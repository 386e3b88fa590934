import TemplateMarkup.Proofs.Text.OpenQuote
import TemplateMarkup.Text.Offset

/-! # Where an open quote begins

The automaton that reads quotes also tells where the quote begins in which it
ends. A text has such a place exactly if it has an open quote at its end, and
the place counts the bytes before the quote.
-/

namespace TemplateMarkup.Text

open QuoteState

/-- Where the quote begins in which the reading of a text ends, if it ends in one. The text begins
at `pos`, and `start` is where the quote began in which its first character stands. -/
def QuoteState.openedAt? : QuoteState → Nat → Nat → List Char → Option Nat
  | outside, _, _, [] => none
  | inside _, start, _, [] => some start
  | escaped _, start, _, [] => some start
  | q, start, pos, c :: s =>
      (q.next c).openedAt? (if q = outside then pos else start) (pos + c.utf8Size) s

/-- The offset of the mark that opens the quote in which a text ends. -/
def openQuoteAt? (s : List Char) : Option Nat :=
  outside.openedAt? 0 0 s

theorem QuoteState.openedAt?_cons (q : QuoteState) (start pos : Nat) (c : Char) (s : List Char) :
    q.openedAt? start pos (c :: s) =
      (q.next c).openedAt? (if q = outside then pos else start) (pos + c.utf8Size) s := by
  cases q <;> rfl

/-- What stands before a text matters for the state and the place in which it is met. -/
theorem QuoteState.exists_openedAt?_append (q : QuoteState) (start pos : Nat)
    (w s : List Char) :
    ∃ begun, q.openedAt? start pos (w ++ s) =
      (q.after w).openedAt? begun (pos + byteSize w) s := by
  induction w generalizing q start pos with
  | nil => exact ⟨start, rfl⟩
  | cons c w ih =>
      obtain ⟨begun, h⟩ := ih (q.next c) (if q = outside then pos else start) (pos + c.utf8Size)
      refine ⟨begun, ?_⟩
      rw [List.cons_append, openedAt?_cons, h, after_cons, byteSize_cons, Nat.add_assoc]

/-- A quote that no part of the text closes is the one in which the reading ends. -/
theorem QuoteState.openedAt?_of_prefix_ne {q : QuoteState} {s : List Char}
    (h : ∀ u, u <+: s → q.after u ≠ outside) (start pos : Nat) :
    q.openedAt? start pos s = some start := by
  induction s generalizing q pos with
  | nil =>
      cases q with
      | outside => exact absurd rfl (h [] List.nil_prefix)
      | inside mark => rfl
      | escaped mark => rfl
  | cons c s ih =>
      have hq : q ≠ outside := h [] List.nil_prefix
      rw [openedAt?_cons, if_neg hq]
      apply ih
      intro u hu
      exact h (c :: u) (List.cons_prefix_cons.mpr ⟨rfl, hu⟩)

theorem openQuoteAt?_of_closed {s : List Char} (h : Closed s) : openQuoteAt? s = none := by
  obtain ⟨begun, hread⟩ := outside.exists_openedAt?_append 0 0 s []
  unfold Closed at h
  calc openQuoteAt? s
      = outside.openedAt? 0 0 (s ++ []) := by rw [List.append_nil]; rfl
    _ = outside.openedAt? begun (0 + byteSize s) [] := by rw [hread, h]
    _ = none := rfl

theorem openQuoteAt?_of_openQuote {w q : List Char} (hw : Closed w) (hq : OpenQuote q) :
    openQuoteAt? (w ++ q) = some (byteSize w) := by
  obtain ⟨mark, rest, rfl, hmark, hunclosed⟩ := hq
  obtain ⟨begun, hread⟩ := outside.exists_openedAt?_append 0 0 w (mark :: rest)
  have hopen : outside.next mark = inside mark := if_pos hmark
  unfold Closed at hw
  calc openQuoteAt? (w ++ mark :: rest)
      = outside.openedAt? begun (byteSize w) (mark :: rest) := by
        rw [openQuoteAt?, hread, hw, Nat.zero_add]
    _ = (inside mark).openedAt? (byteSize w) (byteSize w + mark.utf8Size) rest := by
        rw [openedAt?_cons, hopen, if_pos rfl]
    _ = some (byteSize w) :=
        openedAt?_of_prefix_ne (fun u hu => hunclosed.after_prefix_ne hu) _ _

theorem openQuoteAt?_eq_none_iff {s : List Char} : openQuoteAt? s = none ↔ Closed s := by
  constructor
  · intro h
    rcases closed_or_openQuote s with hclosed | ⟨w, q, rfl, hw, hq⟩
    · exact hclosed
    · rw [openQuoteAt?_of_openQuote hw hq] at h
      cases h
  · exact openQuoteAt?_of_closed

theorem openQuoteAt?_eq_some_iff {s : List Char} {i : Nat} :
    openQuoteAt? s = some i ↔ ∃ w q, s = w ++ q ∧ Closed w ∧ OpenQuote q ∧ byteSize w = i := by
  constructor
  · intro h
    rcases closed_or_openQuote s with hclosed | ⟨w, q, rfl, hw, hq⟩
    · rw [openQuoteAt?_of_closed hclosed] at h
      cases h
    · rw [openQuoteAt?_of_openQuote hw hq] at h
      exact ⟨w, q, rfl, hw, hq, Option.some.inj h⟩
  · rintro ⟨w, q, rfl, hw, hq, rfl⟩
    exact openQuoteAt?_of_openQuote hw hq

/-- The reported mark is one, and the quote behind it never closes. -/
example : openQuoteAt? ['a', '"', 'b', '"', '\'', '\\'] = some 4 := by decide

end TemplateMarkup.Text
