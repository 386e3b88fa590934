import TemplateMarkup.Grammar.Interior
import TemplateMarkup.Grammar.Repetition

/-! # Nested parentheses

The bound on the number of levels is never felt: nested parentheses satisfy
the recursive equation in which the bound does not occur.
-/

namespace TemplateMarkup.Grammar

open Recogniser

theorem lossless_quotedBy (mark : Char) : Lossless (quotedBy mark) := by
  refine lossless_inOrder fun p hp => ?_
  simp only [List.mem_cons, List.not_mem_nil, or_false] at hp
  rcases hp with rfl | rfl | rfl
  · exact lossless_literal _
  · refine Lossless.many (lossless_firstOf fun q hq => ?_)
    simp only [List.mem_cons, List.not_mem_nil, or_false] at hq
    rcases hq with rfl | rfl
    · refine lossless_inOrder fun r hr => ?_
      simp only [List.mem_cons, List.not_mem_nil, or_false] at hr
      rcases hr with rfl | rfl
      · exact lossless_literal _
      · exact lossless_charIn _
    · exact lossless_charBut _
  · exact lossless_literal _

theorem lossless_quoted : Lossless quoted := by
  refine lossless_firstOf fun p hp => ?_
  simp only [List.mem_cons, List.not_mem_nil, or_false] at hp
  rcases hp with rfl | rfl <;> exact lossless_quotedBy _

theorem nestedWithin_succ (levels : Nat) :
    nestedWithin (levels + 1) = parenthesised (nestedWithin levels) := rfl

theorem lossless_nestedPiece {inner : Recogniser Rule} (h : Lossless inner) :
    Lossless (nestedPiece inner) := by
  refine lossless_firstOf fun p hp => ?_
  simp only [List.mem_cons, List.not_mem_nil, or_false] at hp
  rcases hp with rfl | rfl | rfl
  · exact lossless_quoted
  · exact h
  · exact lossless_charBut _

theorem lossless_parenthesised {inner : Recogniser Rule} (h : Lossless inner) :
    Lossless (parenthesised inner) := by
  refine lossless_inOrder fun p hp => ?_
  simp only [List.mem_cons, List.not_mem_nil, or_false] at hp
  rcases hp with rfl | rfl | rfl
  · exact lossless_literal _
  · exact (lossless_nestedPiece h).many
  · exact lossless_literal _

theorem lossless_nestedWithin (levels : Nat) : Lossless (nestedWithin levels) := by
  induction levels with
  | zero => exact lossless_never
  | succ levels ih => exact lossless_parenthesised ih

theorem lossless_nested : Lossless nested :=
  fun s => lossless_nestedWithin s.length s

/-- A pair of parentheses depends only on what counts as a pair on shorter texts. -/
theorem parenthesised_congr {p q : Recogniser Rule} (hp : Lossless p) {c : Char} {s : List Char}
    (h : ∀ t, t.length ≤ s.length → p t = q t) :
    parenthesised p (c :: s) = parenthesised q (c :: s) := by
  have hmany : many (nestedPiece p) s = many (nestedPiece q) s := by
    refine many_congr (lossless_nestedPiece hp) (k := s.length) (fun t ht => ?_) (Nat.le_refl _)
    simp only [nestedPiece, firstOf, orElse, h t ht]
  by_cases hc : '(' = c
  · subst hc
    simp [parenthesised, inOrder, followedBy, literal, hmany]
  · simp [parenthesised, inOrder, followedBy, literal, hc]

/-- Levels beyond the length of the text change nothing. -/
theorem nestedWithin_eq_nested {levels : Nat} {s : List Char} (h : s.length ≤ levels) :
    nestedWithin levels s = nested s := by
  suffices hs : ∀ n m s, s.length ≤ n → s.length ≤ m → nestedWithin n s = nestedWithin m s from
    hs levels s.length s h (Nat.le_refl _)
  have empty : ∀ n, nestedWithin n [] = none := by
    intro n
    cases n with
    | zero => rfl
    | succ n => rfl
  intro n
  induction n with
  | zero =>
      intro m s hs _
      obtain rfl : s = [] := by simpa using hs
      exact (empty m).symm
  | succ n ih =>
      intro m s hs hm
      cases s with
      | nil => rw [empty, empty]
      | cons c s =>
          cases m with
          | zero => simp at hm
          | succ m =>
              simp only [List.length_cons] at hs hm
              simp only [nestedWithin_succ]
              exact parenthesised_congr (lossless_nestedWithin n)
                fun t ht => ih m t (by omega) (by omega)

/-- A pair of parentheses holds quoted pieces, further pairs, and all else except quotes and
parentheses. -/
theorem nested_eq : nested = parenthesised nested := by
  funext s
  cases s with
  | nil => rfl
  | cons c s =>
      rw [← nestedWithin_eq_nested (Nat.le_refl (c :: s).length), List.length_cons,
        nestedWithin_succ]
      exact parenthesised_congr (lossless_nestedWithin _) fun t ht => nestedWithin_eq_nested ht

end TemplateMarkup.Grammar
