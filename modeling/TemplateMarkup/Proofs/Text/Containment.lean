/-! # Texts inside a text

A text without a certain character stands inside a longer text only on one
side of each such character. Texts put together with separators therefore hold
nothing that none of them holds.
-/

namespace TemplateMarkup.Text

variable {w s t : List Char} {c : Char}

theorem infix_of_infix_append_cons (hc : c ∉ w) (h : w <:+: s ++ c :: t) :
    w <:+: s ∨ w <:+: t := by
  obtain ⟨u, v, huv⟩ := h
  rcases List.append_eq_append_iff.mp huv with ⟨z, hs, _⟩ | ⟨z, huw, hz⟩
  · exact Or.inl ⟨u, z, hs.symm⟩
  · cases z with
    | nil => exact Or.inl ⟨u, [], by rw [List.append_nil, huw, List.append_nil]⟩
    | cons d z =>
        obtain ⟨rfl, rfl⟩ := List.cons.inj hz
        rcases List.append_eq_append_iff.mp huw with ⟨y, _, hw⟩ | ⟨y, _, hy⟩
        · exact absurd (by rw [hw]; simp) hc
        · cases y with
          | nil => exact absurd (by rw [← List.nil_append w, ← hy]; simp) hc
          | cons e y =>
              obtain ⟨_, rfl⟩ := List.cons.inj hy
              exact Or.inr ⟨y, v, rfl⟩

theorem not_infix_append_cons (hc : c ∉ w) (hs : ¬ w <:+: s) (ht : ¬ w <:+: t) :
    ¬ w <:+: s ++ c :: t :=
  fun h => (infix_of_infix_append_cons hc h).elim hs ht

theorem not_infix_nil (hw : w ≠ []) : ¬ w <:+: [] :=
  fun h => hw (List.infix_nil.mp h)

theorem not_infix_cons (hw : w ≠ []) (hc : c ∉ w) (ht : ¬ w <:+: t) : ¬ w <:+: c :: t :=
  not_infix_append_cons (s := []) hc (not_infix_nil hw) ht

theorem not_infix_concat (hw : w ≠ []) (hc : c ∉ w) (hs : ¬ w <:+: s) : ¬ w <:+: s ++ [c] :=
  not_infix_append_cons hc hs (not_infix_nil hw)

/-- Separators do not bring about what none of the texts between them holds. -/
theorem not_infix_append_flatMap {α : Type} {f : α → List Char} {xs : List α} (hc : c ∉ w)
    (hs : ¬ w <:+: s) (h : ∀ x ∈ xs, ¬ w <:+: f x) :
    ¬ w <:+: s ++ xs.flatMap fun x => c :: f x := by
  induction xs generalizing s with
  | nil => simpa using hs
  | cons x xs ih =>
      obtain ⟨hx, hxs⟩ := List.forall_mem_cons.mp h
      rw [List.flatMap_cons, List.cons_append]
      exact not_infix_append_cons hc hs (ih hx hxs)

/-- A pair of characters in two texts one after the other is in one of them or across the
joint. -/
theorem infix_pair_append {a b : Char} (h : [a, b] <:+: s ++ t) :
    [a, b] <:+: s ∨ [a, b] <:+: t ∨ s.getLast? = some a ∧ t.head? = some b := by
  induction s with
  | nil => exact Or.inr (Or.inl h)
  | cons c s ih =>
      rcases List.infix_cons_iff.mp h with hfront | hin
      · obtain ⟨rfl, hb⟩ := List.cons_prefix_cons.mp hfront
        cases s with
        | nil =>
            obtain ⟨rest, rfl⟩ := hb
            exact Or.inr (Or.inr ⟨rfl, rfl⟩)
        | cons d s =>
            obtain ⟨rfl, _⟩ := List.cons_prefix_cons.mp hb
            exact Or.inl ⟨[], s, rfl⟩
      · rcases ih hin with h | h | ⟨h, hhead⟩
        · exact Or.inl (h.trans (List.suffix_cons c s).isInfix)
        · exact Or.inr (Or.inl h)
        · cases s with
          | nil => cases h
          | cons d s => exact Or.inr (Or.inr ⟨by rw [List.getLast?_cons_cons]; exact h, hhead⟩)

end TemplateMarkup.Text
