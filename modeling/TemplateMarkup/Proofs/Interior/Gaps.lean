import TemplateMarkup.Grammar.Interior
import TemplateMarkup.Proofs.Grammar.Spelling
import TemplateMarkup.Proofs.Text.Trimming

/-! # Gaps

A row of gaps is read up to the first character that is none.
-/

namespace TemplateMarkup.Grammar

open Recogniser Text

/-- What begins with a gap and does not end in one has gaps and then something else. -/
theorem exists_gaps_append {q : List Char} (hne : q ≠ []) (hhead : ∀ c ∈ q.head?, isGap c = true)
    (hlast : q.getLast?.any isGap = false) :
    ∃ g t, q = g ++ t ∧ g ≠ [] ∧ t ≠ [] ∧ (∀ c ∈ g, isGap c = true) ∧
      t.head?.any isGap = false := by
  obtain ⟨g, t, rfl, hg, ht⟩ := exists_front isGap q
  refine ⟨g, t, rfl, ?_, ?_, hg, ht⟩
  · rintro rfl
    cases t with
    | nil => exact hne rfl
    | cons c t => simp [hhead c rfl] at ht
  · rintro rfl
    rw [List.append_nil] at hne hlast
    rw [List.getLast?_eq_some_getLast hne] at hlast
    simp [hg _ (List.getLast_mem hne)] at hlast

theorem head_not_gap_append {s t : List Char} (hne : s ≠ []) (hs : s.head?.any isGap = false) :
    (s ++ t).head?.any isGap = false := by
  cases s with
  | nil => exact absurd rfl hne
  | cons c s => exact hs

theorem getLast?_append_any {f : Char → Bool} {s t : List Char}
    (h : (s ++ t).getLast?.any f = false) : t.getLast?.any f = false := by
  rw [List.getLast?_append] at h
  cases ht : t.getLast? with
  | none => rfl
  | some c => simpa [ht] using h

theorem getLast?_append_any_of {f : Char → Bool} {s t : List Char}
    (hs : s.getLast?.any f = false) (ht : t.getLast?.any f = false) :
    (s ++ t).getLast?.any f = false := by
  rw [List.getLast?_append]
  cases hlast : t.getLast? with
  | none => exact hs
  | some c => simpa [hlast] using ht

theorem tests_gap : Tests gap isGap := tests_charIn isGap

theorem progressive_gap : Progressive gap := progressive_charIn isGap

theorem lossless_gap : Lossless gap := lossless_charIn isGap

theorem lossless_gaps : Lossless gaps := lossless_gap.many

theorem gaps_append {g t : List Char} (hg : ∀ c ∈ g, isGap c = true)
    (ht : t.head?.any isGap = false) : gaps (g ++ t) = some (g.map .char, t) :=
  many_charIn hg ht

theorem gaps_of_head {s : List Char} (h : s.head?.any isGap = false) : gaps s = some ([], s) :=
  gaps_append (List.forall_mem_nil _) h

theorem many1_gap_append {g t : List Char} (hg : ∀ c ∈ g, isGap c = true) (hne : g ≠ [])
    (ht : t.head?.any isGap = false) : many1 gap (g ++ t) = some (g.map .char, t) :=
  many1_of_many progressive_gap (gaps_append hg ht) (by simpa using hne)

end TemplateMarkup.Grammar
