import TemplateMarkup.Proofs.Composition.Relocation
import TemplateMarkup.Proofs.Forest.Reading
import TemplateMarkup.Proofs.Source.Concatenation

/-! # Reading pieces

The items of a source are read from its pieces one after the other, whatever
stands before them. A forest is therefore known from the pieces alone.
-/

namespace TemplateMarkup

open Outcome Token

variable {registry : Registry} {items : List Item} {segs : List Segment} {f : Nat → Nat} {k : Nat}

/-- The items of segments that are moved are those of the segments. -/
theorem map_ofSegment_relocate_iff (hf : ∀ s ∈ segs, ∀ o, s.offset ≤ o → f o = o + k) :
    (segs.map (Segment.relocate f)).map (Item.ofSegment registry) = items.map .ok ↔
      segs.map (Item.ofSegment registry) = items.map .ok := by
  induction segs generalizing items with
  | nil => rfl
  | cons s segs ih =>
      obtain ⟨hs, hsegs⟩ := List.forall_mem_cons.mp hf
      cases items with
      | nil => simp
      | cons item items =>
          simp only [List.map_cons, List.cons.injEq, Item.ofSegment_relocate hs,
            relocate_eq_ok_iff, ih hsegs]

theorem map_ofSegment_append_relocate {back : List Segment}
    (hf : ∀ s ∈ back, ∀ o, s.offset ≤ o → f o = o + k)
    (h : (segs ++ back).map (Item.ofSegment registry) = items.map .ok) :
    (segs ++ back.map (Segment.relocate f)).map (Item.ofSegment registry) =
      items.map .ok := by
  rw [List.map_append] at h
  obtain ⟨xs, ys, rfl, hxs, hys⟩ := List.append_eq_map_iff.mp h
  rw [List.map_append, List.map_append, hxs, (map_ofSegment_relocate_iff hf).mpr hys.symm]

namespace Piece

/-- Whether a row of pieces is read as a row of items. -/
def Reads (registry : Registry) (ps : List Piece) (items : List Item) : Prop :=
  ∃ segs, segments 0 ps = .ok segs ∧ segs.map (Item.ofSegment registry) = items.map .ok

variable {ps qs : List Piece}

/-- It does not matter where the row begins. -/
theorem reads_iff (offset : Nat) : Reads registry ps items ↔
    ∃ segs, segments offset ps = .ok segs ∧
      segs.map (Item.ofSegment registry) = items.map .ok := by
  have hitems : ∀ segs : List Segment,
      (segs.map (Segment.relocate (· + offset))).map (Item.ofSegment registry) = items.map .ok ↔
        segs.map (Item.ofSegment registry) = items.map .ok :=
    fun segs => map_ofSegment_relocate_iff fun _ _ _ _ => rfl
  rw [segments_shift offset]
  constructor
  · rintro ⟨segs, hsegs, hread⟩
    exact ⟨_, by rw [hsegs]; rfl, (hitems segs).mpr hread⟩
  · rintro ⟨moved, hsegs, hread⟩
    obtain ⟨segs, hfound, rfl⟩ := map_eq_ok_iff.mp hsegs
    exact ⟨segs, relocate_eq_ok_iff.mp hfound, (hitems segs).mp hread⟩

theorem reads_append_iff : Reads registry (ps ++ qs) items ↔
    ∃ front back, Reads registry ps front ∧ Reads registry qs back ∧ items = front ++ back := by
  constructor
  · rintro ⟨segs, hsegs, hread⟩
    obtain ⟨xs, ys, hxs, hys, rfl⟩ := segments_append_eq_ok_iff.mp hsegs
    rw [List.map_append] at hread
    obtain ⟨front, back, rfl, hfront, hback⟩ := List.append_eq_map_iff.mp hread
    exact ⟨front, back, ⟨xs, hxs, hfront.symm⟩, (reads_iff _).mpr ⟨ys, hys, hback.symm⟩, rfl⟩
  · rintro ⟨front, back, ⟨xs, hxs, hfront⟩, hqs, rfl⟩
    obtain ⟨ys, hys, hback⟩ := (reads_iff _).mp hqs
    refine ⟨xs ++ ys, segments_append_eq_ok_iff.mpr ⟨xs, ys, hxs, hys, rfl⟩, ?_⟩
    rw [List.map_append, List.map_append, hfront, hback]

theorem reads_cons_iff {p : Piece} : Reads registry (p :: ps) items ↔
    ∃ front back, Reads registry [p] front ∧ Reads registry ps back ∧ items = front ++ back := by
  rw [← List.singleton_append, reads_append_iff]

/-- What is read from one piece is the item of its segment, or nothing if it has none. -/
theorem reads_singleton_iff {p : Piece} : Reads registry [p] items ↔
    (∀ d rest, p ≠ unterminated d rest) ∧
      (p.segment? 0).toList.map (Item.ofSegment registry) = items.map .ok := by
  rw [Reads]
  constructor
  · rintro ⟨segs, hsegs, hread⟩
    obtain ⟨hp, tail, htail, rfl⟩ := segments_cons_eq_ok_iff.mp hsegs
    cases htail
    rw [List.append_nil] at hread
    exact ⟨hp, hread⟩
  · rintro ⟨hp, hread⟩
    refine ⟨_, segments_cons_eq_ok_iff.mpr ⟨hp, [], rfl, rfl⟩, ?_⟩
    rwa [List.append_nil]

theorem comment_of_segment?_none {p : Piece} {offset : Nat}
    (hp : ∀ d rest, p ≠ unterminated d rest) (h : p.segment? offset = none) :
    ∃ inner, p = closed .comment inner := by
  cases p with
  | text s => cases h
  | unterminated d rest => exact absurd rfl (hp d rest)
  | closed d inner =>
      cases d with
      | tag => cases h
      | var => cases h
      | comment => exact ⟨inner, rfl⟩

/-- Every piece is read as one item, except that nothing is read from a comment. -/
theorem Reads.singleton_cases {p : Piece} (h : Reads registry [p] items) :
    (∃ inner, p = closed .comment inner ∧ items = []) ∨ ∃ item, items = [item] := by
  obtain ⟨hp, hread⟩ := reads_singleton_iff.mp h
  cases hseg : p.segment? 0 with
  | none =>
      obtain ⟨inner, rfl⟩ := comment_of_segment?_none hp hseg
      exact Or.inl ⟨inner, rfl, List.map_eq_nil_iff.mp hread.symm⟩
  | some seg =>
      rw [hseg] at hread
      obtain ⟨item, hitem, _⟩ := List.map_eq_singleton_iff.mp hread.symm
      exact Or.inr ⟨item, hitem⟩

theorem Reads.terminated (h : Reads registry ps items) : Terminated ps := by
  obtain ⟨segs, hsegs, _⟩ := h
  exact terminated_of_segments hsegs

theorem Reads.unique {others : List Item} (h : Reads registry ps items)
    (hothers : Reads registry ps others) : items = others := by
  obtain ⟨segs, hsegs, hread⟩ := h
  obtain ⟨found, hfound, hreadothers⟩ := hothers
  rw [hsegs] at hfound
  obtain rfl := Except.ok.inj hfound
  rw [hread] at hreadothers
  exact eq_of_map_ok hreadothers

end Piece

/-- The tokens of a source are a forest that fits and whose items its pieces are read as. -/
theorem Tokenizer.forest_eq_ok_iff_reads {t : Tokenizer} {source : List Char} {ts : List Token} :
    t.forest source = .ok ts ↔
      Piece.Reads t.registry (Piece.pieces source) (itemsAll ts) ∧
        FitsAll t.registry t.maxDepth [] ts := by
  rw [forest_eq_ok_iff, scan_eq_segments_pieces]
  constructor
  · rintro ⟨segs, hsegs, hfits, hread⟩
    exact ⟨⟨segs, hsegs, hread⟩, hfits⟩
  · rintro ⟨⟨segs, hsegs, hread⟩, hfits⟩
    exact ⟨segs, hsegs, hfits, hread⟩

end TemplateMarkup
