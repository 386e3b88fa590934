import TemplateMarkup.Proofs.RoundTrip.Pieces

/-! # Items read from a source

Whatever item is read from a source, its lexemes are proper ones. A text that
is read ends with a brace only if nothing is read behind it, as the brace and
what follows would otherwise be an opener.
-/

namespace TemplateMarkup

open Text Outcome

namespace Item

variable {registry : Registry} {item : Item}

theorem cleanWord_of_closerName {name : List Char} (hne : name ≠ [])
    (h : CleanWord (closerName name)) : CleanWord name := by
  obtain ⟨⟨_, hclosed, hsolid⟩, hfree⟩ := h
  rw [closerName, closed_cons_iff rfl, closed_cons_iff rfl, closed_cons_iff rfl] at hclosed
  rw [closerName, bare_cons rfl, bare_cons rfl, bare_cons rfl] at hsolid
  simp only [List.forall_mem_cons] at hsolid
  refine ⟨⟨hne, hclosed, hsolid.2.2.2⟩, fun hin => hfree (hin.trans ?_)⟩
  exact (List.suffix_append ['e', 'n', 'd'] name).isInfix

theorem clean_of_ofWords {words : List (List Char)} {offset : Nat}
    (hwords : ∀ w ∈ words, CleanWord w) (h : ofWords registry offset words = .ok item) :
    item.Clean registry := by
  rcases ofWords_eq_ok_iff.mp h with ⟨_, _, rfl, _, rfl⟩ | ⟨_, _, rfl, _, rfl⟩ |
    ⟨name, rfl, hne, hget, _, rfl⟩
  · exact hwords
  · exact hwords
  · exact ⟨cleanWord_of_closerName hne (hwords _ (List.mem_cons_self ..)), hget⟩

/-- An item that is read from a segment of a source is clean. -/
theorem clean_of_ofSegment {seg : Segment} (hseg : seg.Proper)
    (h : ofSegment registry seg = .ok item) : item.Clean registry := by
  cases seg with
  | text s offset =>
      cases h
      exact hseg
  | tag inner offset =>
      obtain ⟨words, hwords, hitem⟩ := bind_eq_ok_iff.mp h
      refine clean_of_ofWords (fun w hw => ?_) hitem
      obtain ⟨hword, hin⟩ := word_of_tagWords hwords w hw
      exact ⟨hword, fun hcloser => Piece.not_closer_inside hseg (hcloser.trans hin)⟩
  | var inner escape offset =>
      obtain ⟨v, hv, rfl⟩ := map_eq_ok_iff.mp h
      exact (Variable.clean_of_read (Piece.not_closer_inside hseg) hv).1

theorem isText_of_ofWords {words : List (List Char)} {offset : Nat}
    (h : ofWords registry offset words = .ok item) : item.isText = false := by
  rcases ofWords_eq_ok_iff.mp h with ⟨_, _, _, _, rfl⟩ | ⟨_, _, _, _, rfl⟩ |
    ⟨_, _, _, _, _, rfl⟩ <;> rfl

theorem eq_text_of_ofSegment {seg : Segment} {s : List Char}
    (h : ofSegment registry seg = .ok (text s)) : ∃ offset, seg = .text s offset := by
  cases seg with
  | text t offset =>
      cases h
      exact ⟨offset, rfl⟩
  | tag inner offset =>
      obtain ⟨words, _, hitem⟩ := bind_eq_ok_iff.mp h
      cases isText_of_ofWords hitem
  | var inner escape offset =>
      obtain ⟨v, _, hitem⟩ := map_eq_ok_iff.mp h
      cases hitem

/-- Whether an item may be followed by something: it is no text that ends with a brace. -/
def Loose (i _j : Item) : Prop :=
  ∀ s, i = text s → s.getLast? ≠ some '{'

end Item

namespace Piece

variable {registry : Registry}

/-- Behind a text that ends with a brace no further segment is read. -/
theorem isChain_loose {offset : Nat} {ps : List Piece} {segs : List Segment} {items : List Item}
    (hrow : Row ps) (h : segments offset ps = .ok segs)
    (hread : segs.map (Item.ofSegment registry) = items.map .ok) : items.IsChain Item.Loose := by
  induction ps generalizing offset segs items with
  | nil =>
      cases h
      obtain rfl := List.map_eq_nil_iff.mp hread.symm
      exact .nil
  | cons p ps ih =>
      obtain ⟨_, hbefore, hps⟩ := hrow
      obtain ⟨_, tail, htail, rfl⟩ := segments_cons_eq_ok_iff.mp h
      cases hseg : p.segment? offset with
      | none =>
          rw [hseg] at hread
          exact ih hps htail hread
      | some seg =>
          rw [hseg] at hread
          obtain ⟨i, rest, rfl, hi, hrest⟩ := List.map_eq_cons_iff.mp hread.symm
          refine List.isChain_cons.mpr ⟨fun j hj s hs => ?_, ih hps htail hrest.symm⟩
          subst hs
          obtain ⟨start, rfl⟩ := Item.eq_text_of_ofSegment hi.symm
          obtain rfl := eq_text_of_segment? hseg
          rcases hbefore with hnil | ⟨_, hlast⟩
          · exfalso
            cases ps with
            | nil =>
                cases htail
                obtain rfl := List.map_eq_nil_iff.mp hrest
                cases hj
            | cons q ps => exact written_ne_nil hps.1 (List.append_eq_nil_iff.mp hnil).1
          · exact hlast

end Piece

/-- The items of a forest that is read are clean, and none of them follows a text that ends with
a brace. -/
theorem Tokenizer.items_of_forest {t : Tokenizer} {source : List Char} {ts : List Token}
    (h : t.forest source = .ok ts) :
    (∀ i ∈ Token.itemsAll ts, i.Clean t.registry) ∧
      (Token.itemsAll ts).IsChain Item.Loose := by
  obtain ⟨segments, hscan, _, hread⟩ := forest_eq_ok_iff.mp h
  rw [scan_eq_segments_pieces] at hscan
  have hrow := Piece.row_pieces source
  refine ⟨fun i hi => ?_, Piece.isChain_loose hrow hscan hread⟩
  have hmem : .ok i ∈ (Token.itemsAll ts).map (Except.ok (ε := TemplateError)) :=
    List.mem_map_of_mem hi
  rw [← hread] at hmem
  obtain ⟨seg, hseg, hitem⟩ := List.mem_map.mp hmem
  exact Item.clean_of_ofSegment (Piece.proper_of_mem_segments hrow hscan seg hseg) hitem

end TemplateMarkup
