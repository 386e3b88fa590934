import TemplateMarkup.Proofs.Forest.Linear

/-! # Height of a forest

The height of a forest is the largest number of its blocks that are nested in
one another. The limit on open blocks asks nothing else of a forest: if one
limit admits it, the others that do are those from its height on.
-/

namespace TemplateMarkup.Token

mutual

/-- The largest number of blocks of a token that are nested in one another. -/
def height : Token → Nat
  | text _ => 0
  | var _ => 0
  | tag _ => 0
  | block _ ts => heightAll ts + 1

/-- The largest number of blocks of a row of tokens that are nested in one another. -/
def heightAll : List Token → Nat
  | [] => 0
  | t :: ts => max (height t) (heightAll ts)

end

theorem height_of_isBlank {t : Token} (h : t.isBlank = true) : height t = 0 := by
  cases t with
  | text s => rfl
  | tag t => cases h
  | block t ts => cases h
  | var v => cases h

theorem heightAll_of_blank {ts : List Token} (h : ts.all isBlank = true) : heightAll ts = 0 := by
  induction ts with
  | nil => rfl
  | cons t ts ih =>
      obtain ⟨ht, hts⟩ := Bool.and_eq_true_iff.mp h
      rw [heightAll, height_of_isBlank ht, ih hts, Nat.max_self]

variable {registry : Registry} {maxDepth : Nat}

mutual

theorem fits_iff_height (limit : Nat) : {around : List (List Char)} → (t : Token) →
    Fits registry maxDepth around t →
      (Fits registry limit around t ↔ height t = 0 ∨ around.length + height t ≤ limit)
  | _, text _, _ => by simp [Fits, height]
  | _, var _, _ => by simp [Fits, height]
  | _, tag _, h => by simpa [Fits, height] using h
  | around, block t ts, h => by
      obtain ⟨htag, _, hts⟩ := h
      have hbody := fitsAll_iff_heightAll limit ts hts
      rw [List.length_append, List.length_singleton] at hbody
      simp only [Fits, height, hbody]
      constructor
      · rintro ⟨_, hlt, hinner⟩
        omega
      · intro hle
        exact ⟨htag, by omega, by omega⟩

/-- A forest that fits under some limit, inside a number of blocks, fits under another one if it
has no blocks or the limit leaves room for its height. -/
theorem fitsAll_iff_heightAll (limit : Nat) : {around : List (List Char)} → (ts : List Token) →
    FitsAll registry maxDepth around ts →
      (FitsAll registry limit around ts ↔
        heightAll ts = 0 ∨ around.length + heightAll ts ≤ limit)
  | _, [], _ => by simp [FitsAll, heightAll]
  | _, t :: ts, h => by
      have ht := fits_iff_height limit t h.1
      have hts := fitsAll_iff_heightAll limit ts h.2
      simp only [FitsAll, heightAll, ht, hts]
      omega

end

theorem fitsAll_nil_iff_heightAll_le (limit : Nat) {ts : List Token}
    (h : FitsAll registry maxDepth [] ts) :
    FitsAll registry limit [] ts ↔ heightAll ts ≤ limit := by
  rw [fitsAll_iff_heightAll limit ts h, List.length_nil]
  omega

end TemplateMarkup.Token
