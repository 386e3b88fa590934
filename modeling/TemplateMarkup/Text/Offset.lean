/-! # Byte offsets in a text

A text is a list of characters, and an offset into it counts the bytes of its
UTF-8 form. An offset is usable when it falls between two characters; cutting
a text there gives the two parts, and only those.
-/

namespace TemplateMarkup.Text

/-- Length of a text in UTF-8 bytes. -/
def byteSize (s : List Char) : Nat :=
  s.foldr (fun c size => c.utf8Size + size) 0

@[simp] theorem byteSize_nil : byteSize [] = 0 := rfl

@[simp] theorem byteSize_cons (c : Char) (s : List Char) :
    byteSize (c :: s) = c.utf8Size + byteSize s := rfl

@[simp] theorem byteSize_append (s t : List Char) :
    byteSize (s ++ t) = byteSize s + byteSize t := by
  induction s with
  | nil => simp
  | cons c s ih => simp [ih, Nat.add_assoc]

/-- Cut a text at a byte offset, unless the offset is inside a character or past the end. -/
def splitAtByte? : List Char → Nat → Option (List Char × List Char)
  | s, 0 => some ([], s)
  | [], _ + 1 => none
  | c :: s, n + 1 =>
      if c.utf8Size ≤ n + 1 then
        (splitAtByte? s (n + 1 - c.utf8Size)).map fun cut => (c :: cut.1, cut.2)
      else
        none

/-- The cut exists exactly where some leading part has that many bytes, and it is that part. -/
theorem splitAtByte?_eq_some_iff {s before after : List Char} {n : Nat} :
    splitAtByte? s n = some (before, after) ↔ before ++ after = s ∧ byteSize before = n := by
  induction s generalizing n before with
  | nil =>
      cases n with
      | zero => cases before <;> simp [splitAtByte?, eq_comm]
      | succ n =>
          simp only [splitAtByte?, List.append_eq_nil_iff]
          constructor
          · simp
          · rintro ⟨⟨rfl, _⟩, h⟩
            simp at h
  | cons c s ih =>
      cases n with
      | zero =>
          cases before with
          | nil => simp [splitAtByte?, eq_comm]
          | cons b before =>
              have := b.utf8Size_pos
              simp [splitAtByte?]
              omega
      | succ n =>
          cases before with
          | nil => simp [splitAtByte?]
          | cons b before =>
              simp only [splitAtByte?, Option.ite_none_right_eq_some, Option.map_eq_some_iff,
                Prod.exists, Prod.mk.injEq, List.cons.injEq, List.cons_append, byteSize_cons]
              constructor
              · rintro ⟨hc, x, y, hxy, ⟨rfl, rfl⟩, rfl⟩
                obtain ⟨h, hn⟩ := ih.mp hxy
                exact ⟨⟨rfl, h⟩, by omega⟩
              · rintro ⟨⟨rfl, h⟩, hn⟩
                exact ⟨by omega, before, after, ih.mpr ⟨h, by omega⟩, ⟨rfl, rfl⟩, rfl⟩

end TemplateMarkup.Text
