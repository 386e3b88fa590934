import TemplateMarkup.Proofs.Text.Quotation

/-! # Open quotes

A text either has complete quotes only, or it is such a text followed by a
quote that never closes. In the same way a text with complete quotes begins
with the longest part that holds characters of one class outside its quotes.
-/

namespace TemplateMarkup.Text

open QuoteState

/-- Whether a text is a quotation mark with a quote behind it that never closes. -/
def OpenQuote (s : List Char) : Prop :=
  ∃ mark rest, s = mark :: rest ∧ isMark mark = true ∧ Unclosed mark rest

theorem OpenQuote.ne_nil {s : List Char} (h : OpenQuote s) : s ≠ [] := by
  obtain ⟨mark, rest, rfl, _, _⟩ := h
  exact List.cons_ne_nil mark rest

/-- Inside a quote nothing that may stand there is an end of the quote. -/
theorem QuoteBody.after_prefix_ne {mark : Char} {w : List Char} (h : QuoteBody mark w) :
    ∀ u, u <+: w → (inside mark).after u ≠ outside := by
  induction h with
  | nil =>
      intro u hu
      rw [List.prefix_nil.mp hu]
      exact QuoteState.noConfusion
  | @escape c s _ ih =>
      intro u hu
      cases u with
      | nil => exact QuoteState.noConfusion
      | cons b u =>
          obtain ⟨rfl, hrest⟩ := List.cons_prefix_cons.mp hu
          cases u with
          | nil => simp [next]
          | cons d u => simpa [next] using ih u (List.cons_prefix_cons.mp hrest).2
  | @char c s hescape hmark _ ih =>
      intro u hu
      cases u with
      | nil => exact QuoteState.noConfusion
      | cons b u =>
          obtain ⟨rfl, hrest⟩ := List.cons_prefix_cons.mp hu
          simpa [next, hescape, hmark] using ih u hrest

/-- Behind the mark of a quote that never closes, no part of the text closes it. -/
theorem Unclosed.after_prefix_ne {mark : Char} {s u : List Char} (h : Unclosed mark s)
    (hu : u <+: s) : (inside mark).after u ≠ outside := by
  obtain ⟨w, hw, rfl | rfl⟩ := h
  · exact hw.after_prefix_ne u hu
  · rcases List.prefix_concat_iff.mp hu with rfl | hu
    · rw [after_append, hw.after_eq]
      exact QuoteState.noConfusion
    · exact hw.after_prefix_ne u hu

theorem OpenQuote.not_closed {s : List Char} (h : OpenQuote s) : ¬ Closed s := by
  obtain ⟨mark, rest, rfl, hmark, hunclosed⟩ := h
  have hopen : outside.next mark = inside mark := if_pos hmark
  intro hclosed
  rw [Closed, after_cons, hopen] at hclosed
  exact hunclosed.after_prefix_ne List.prefix_rfl hclosed

/-- Complete quotes up to the end, or up to a quote that never closes. -/
theorem closed_or_openQuote (s : List Char) :
    Closed s ∨ ∃ w q, s = w ++ q ∧ Closed w ∧ OpenQuote q := by
  induction hn : s.length using Nat.strongRecOn generalizing s with
  | ind n ih =>
      -- a leading part with complete quotes may be taken off
      have extend {u t : List Char} (hs : s = u ++ t) (hne : u ≠ []) (hu : Closed u) :
          Closed s ∨ ∃ w q, s = w ++ q ∧ Closed w ∧ OpenQuote q := by
        have hlength := List.length_pos_iff.mpr hne
        rw [hs, List.length_append] at hn
        subst hs
        rcases ih t.length (by omega) t rfl with ht | ⟨w, q, rfl, hw, hq⟩
        · exact Or.inl (hu.append ht)
        · exact Or.inr ⟨u ++ w, q, (List.append_assoc u w q).symm, hu.append hw, hq⟩
      cases s with
      | nil => exact Or.inl closed_nil
      | cons c s =>
          cases hmark : isMark c with
          | false =>
              exact extend (u := [c]) rfl (List.cons_ne_nil c [])
                ((closed_cons_iff hmark).mpr closed_nil)
          | true =>
              rcases quote_closes_or_not c s with ⟨w, rest, hw, rfl⟩ | hunclosed
              · have hquoted : Quoted (c :: (w ++ [c])) := ⟨c, w, hmark, hw, rfl⟩
                exact extend (t := rest) (by simp) hquoted.ne_nil hquoted.closed
              · exact Or.inr ⟨[], c :: s, rfl, closed_nil, c, s, rfl, hmark, hunclosed⟩

/-- Either way complete quotes come first, and behind them nothing or a quote that never closes. -/
theorem exists_closed_append (s : List Char) :
    ∃ w q, s = w ++ q ∧ Closed w ∧ (q = [] ∨ OpenQuote q) := by
  rcases closed_or_openQuote s with hclosed | ⟨w, q, hsplit, hw, hq⟩
  · exact ⟨s, [], (List.append_nil s).symm, hclosed, Or.inl rfl⟩
  · exact ⟨w, q, hsplit, hw, Or.inr hq⟩

/-- A text with complete quotes begins with a row of quotes and characters of a class, up to its
end or to a plain character outside the class. -/
theorem Closed.exists_fluent {s : List Char} (h : Closed s) (plain : Char → Bool) :
    ∃ v r, s = v ++ r ∧ Fluent plain v ∧ Closed r ∧
      ∀ c ∈ r.head?, isMark c = false ∧ plain c = false := by
  induction h.fluent with
  | nil => exact ⟨[], [], rfl, .nil, closed_nil, by simp⟩
  | @quoted u s hquoted hrest ih =>
      obtain ⟨v, r, rfl, hv, hr, hhead⟩ := ih hrest.closed
      exact ⟨u ++ v, r, (List.append_assoc u v r).symm, .quoted hquoted hv, hr, hhead⟩
  | @char c s hmark _ hrest ih =>
      cases hc : plain c with
      | false =>
          refine ⟨[], c :: s, rfl, .nil, (closed_cons_iff hmark).mpr hrest.closed, ?_⟩
          intro d hd
          obtain rfl := Option.some.inj hd
          exact ⟨hmark, hc⟩
      | true =>
          obtain ⟨v, r, rfl, hv, hr, hhead⟩ := ih hrest.closed
          exact ⟨c :: v, r, rfl, .char hmark hc hv, hr, hhead⟩

theorem isMark_of_isGap {c : Char} (h : isGap c = true) : isMark c = false := by
  rw [Bool.eq_false_iff]
  intro hmark
  rw [not_gap_of_isMark hmark] at h
  cases h

theorem closed_of_gaps {g : List Char} (h : ∀ c ∈ g, isGap c = true) : Closed g :=
  closed_of_forall fun c hc => isMark_of_isGap (h c hc)

end TemplateMarkup.Text
