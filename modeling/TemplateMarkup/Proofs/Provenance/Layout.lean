import TemplateMarkup.Text.Offset

/-! # Layouts

Words are laid out in a text if they stand in it one behind the other and every
character between them is one that may be left out where it stands. Layouts are
put one behind the other like the texts, and the words of a layout have places
in the text, in byte offsets, outside of which only such characters stand.
-/

namespace TemplateMarkup.Text

/-- Whether a text between two others consists of the given words, in their order, and of
characters that may be left out. Whether one may depends on what stands before and behind it. -/
inductive Layout (omits : List Char → Char → List Char → Prop) (behind : List Char) :
    List Char → List Char → List (List Char) → Prop
  | nil {before : List Char} : Layout omits behind before [] []
  | skip {before s : List Char} {c : Char} {words : List (List Char)}
      (omitted : omits before c (s ++ behind))
      (rest : Layout omits behind (before ++ [c]) s words) :
      Layout omits behind before (c :: s) words
  | keep {before w s : List Char} {words : List (List Char)} (nonempty : w ≠ [])
      (rest : Layout omits behind (before ++ w) s words) :
      Layout omits behind before (w ++ s) (w :: words)

namespace Layout

variable {omits omits' : List Char → Char → List Char → Prop}
  {before behind front back s t w : List Char} {words others : List (List Char)}

theorem word (h : w ≠ []) : Layout omits behind before w [w] := by
  have hkeep : Layout omits behind before (w ++ []) [w] := .keep h .nil
  rwa [List.append_nil] at hkeep

/-- A text of characters that may all be left out holds no words. -/
theorem skipAll (h : ∀ u c v, s = u ++ c :: v → omits (before ++ u) c (v ++ behind)) :
    Layout omits behind before s [] := by
  induction s generalizing before with
  | nil => exact .nil
  | cons c s ih =>
      refine .skip ?_ (ih fun u d v hs => ?_)
      · simpa using h [] c s rfl
      · simpa using h (c :: u) d v (congrArg (c :: ·) hs)

theorem append (hs : Layout omits (t ++ behind) before s words)
    (ht : Layout omits behind (before ++ s) t others) :
    Layout omits behind before (s ++ t) (words ++ others) := by
  induction hs with
  | nil => simpa using ht
  | skip omitted _ ih =>
      refine .skip ?_ (ih ?_)
      · simpa using omitted
      · simpa using ht
  | keep nonempty _ ih =>
      rw [List.append_assoc]
      exact .keep nonempty (ih (by simpa using ht))

/-- A layout stays one between other texts if what may be left out may be left out there. -/
theorem move (h : Layout omits behind before s words)
    (hmove : ∀ u c v, s = u ++ c :: v → omits (before ++ u) c (v ++ behind) →
      omits' (front ++ u) c (v ++ back)) : Layout omits' back front s words := by
  induction h generalizing front with
  | nil => exact .nil
  | @skip before s c words omitted _ ih =>
      refine .skip ?_ (ih fun u d v hs hd => ?_)
      · simpa using hmove [] c s rfl (by simpa using omitted)
      · simpa using hmove (c :: u) d v (congrArg (c :: ·) hs) (by simpa using hd)
  | @keep before w s words nonempty _ ih =>
      refine .keep nonempty (ih fun u d v hs hd => ?_)
      simpa using hmove (w ++ u) d v (by simp [hs]) (by simpa using hd)

end Layout

/-- Whether words stand at their places in a text, from one offset on, each behind the one before
it, and every byte up to another offset that is in none of them belongs to a character that may
be left out. -/
structure Places (omits : List Char → Char → List Char → Prop) (source : List Char)
    (start stop : Nat) (places : List (Nat × List Char)) : Prop where
  stand : ∀ p ∈ places, p.2 ≠ [] ∧ ∃ front rest, source = front ++ p.2 ++ rest ∧
    byteSize front = p.1
  behind_start : ∀ p ∈ places, start ≤ p.1
  apart : places.Pairwise fun p q => p.1 + byteSize p.2 ≤ q.1
  others : ∀ i, start ≤ i → i < stop → (∀ p ∈ places, i < p.1 ∨ p.1 + byteSize p.2 ≤ i) →
    ∃ u c v, source = u ++ c :: v ∧ byteSize u ≤ i ∧ i < byteSize u + c.utf8Size ∧ omits u c v

namespace Places

variable {omits : List Char → Char → List Char → Prop} {source : List Char} {start stop : Nat}
  {places : List (Nat × List Char)} {u v w : List Char} {c : Char}

theorem nil (h : stop ≤ start) : Places omits source start stop [] where
  stand := List.forall_mem_nil _
  behind_start := List.forall_mem_nil _
  apart := .nil
  others i hstart hstop _ := absurd hstop (by omega)

theorem skip (hsource : source = u ++ c :: v) (homits : omits u c v)
    (h : Places omits source (byteSize u + c.utf8Size) stop places) :
    Places omits source (byteSize u) stop places where
  stand := h.stand
  behind_start p hp := Nat.le_of_add_right_le (h.behind_start p hp)
  apart := h.apart
  others i hstart hstop hout := by
    by_cases hi : i < byteSize u + c.utf8Size
    · exact ⟨u, c, v, hsource, hstart, hi, homits⟩
    · exact h.others i (Nat.not_lt.mp hi) hstop hout

theorem cons (hsource : source = u ++ w ++ v) (hw : w ≠ [])
    (h : Places omits source (byteSize u + byteSize w) stop places) :
    Places omits source (byteSize u) stop ((byteSize u, w) :: places) where
  stand := List.forall_mem_cons.mpr ⟨⟨hw, u, v, hsource, rfl⟩, h.stand⟩
  behind_start := List.forall_mem_cons.mpr ⟨Nat.le_refl _, fun p hp =>
    Nat.le_of_add_right_le (h.behind_start p hp)⟩
  apart := List.pairwise_cons.mpr ⟨h.behind_start, h.apart⟩
  others i hstart hstop hout := by
    obtain ⟨hword, hout⟩ := List.forall_mem_cons.mp hout
    rcases hword with hbefore | hbehind
    · exact absurd hstart (Nat.not_le_of_lt hbefore)
    · exact h.others i hbehind hstop hout

end Places

/-- The words of a layout have places in the text around it. -/
theorem Layout.exists_places {omits : List Char → Char → List Char → Prop}
    {before behind s : List Char} {words : List (List Char)}
    (h : Layout omits behind before s words) :
    ∃ places : List (Nat × List Char), places.map Prod.snd = words ∧
      Places omits (before ++ s ++ behind) (byteSize before) (byteSize (before ++ s)) places := by
  induction h with
  | nil => exact ⟨[], rfl, .nil (by simp)⟩
  | @skip before s c words omitted _ ih =>
      obtain ⟨places, hwords, hplaces⟩ := ih
      refine ⟨places, hwords, Places.skip (by simp) omitted ?_⟩
      simpa [Nat.add_assoc] using hplaces
  | @keep before w s words nonempty _ ih =>
      obtain ⟨places, rfl, hplaces⟩ := ih
      refine ⟨(byteSize before, w) :: places, rfl, Places.cons (v := s ++ behind) (by simp)
        nonempty ?_⟩
      simpa [Nat.add_assoc] using hplaces

end TemplateMarkup.Text
