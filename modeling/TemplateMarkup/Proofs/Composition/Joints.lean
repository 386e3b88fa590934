import TemplateMarkup.Proofs.Composition.Reading
import TemplateMarkup.Proofs.Failure.Outline
import TemplateMarkup.Proofs.RoundTrip.MergedItems

/-! # Joints

Where two sources are put together, a text at the end of the first and a text at
the start of the second are one segment. Nothing else changes at the joint, so
that what is read differs in texts that follow one another only.
-/

namespace TemplateMarkup

open Text Outcome Piece

/-- Whether a row of segments becomes another one when two texts in it that follow one another,
if there are any, are put together. -/
def Joined (segments joined : List Segment) : Prop :=
  segments = joined ∨ ∃ front s u start offset back,
    segments = front ++ .text s start :: .text u offset :: back ∧
      joined = front ++ .text (s ++ u) start :: back

variable {registry : Registry} {segments joined : List Segment} {items : List Item}
  {a b : List Char} {e : TemplateError}

/-- Putting texts together leaves the tags and variables alone. -/
theorem Joined.filter_eq (h : Joined segments joined) :
    (segments.filter fun s => !s.isText) = joined.filter fun s => !s.isText := by
  rcases h with rfl | ⟨front, s, u, start, offset, back, rfl, rfl⟩
  · rfl
  · simp [Segment.isText]

namespace Item

theorem joinText_text_text (s u : List Char) (row : List Item) :
    joinText (text s) (joinText (text u) row) = joinText (text (s ++ u)) row := by
  cases row with
  | nil => rfl
  | cons i row =>
      cases i with
      | text w => simp [joinText]
      | var v => rfl
      | inline name args => rfl
      | opening name args => rfl
      | closing name => rfl

theorem mergeRow_texts (front back : List Item) (s u : List Char) :
    mergeRow (front ++ text s :: text u :: back) = mergeRow (front ++ text (s ++ u) :: back) := by
  simp [mergeRow, joinText_text_text]

end Item

/-- What is read from segments is what is read where texts in them are put together, up to
merging. -/
theorem Joined.exists_items (h : Joined segments joined)
    (hread : joined.map (Item.ofSegment registry) = items.map .ok) :
    ∃ others, segments.map (Item.ofSegment registry) = others.map .ok ∧
      Item.mergeRow others = Item.mergeRow items := by
  rcases h with rfl | ⟨front, s, u, start, offset, back, rfl, rfl⟩
  · exact ⟨items, hread, rfl⟩
  · rw [List.map_append] at hread
    obtain ⟨xs, zs, rfl, hxs, hzs⟩ := List.append_eq_map_iff.mp hread
    obtain ⟨item, ys, rfl, hitem, hys⟩ := List.map_eq_cons_iff.mp hzs
    cases hitem
    refine ⟨xs ++ .text s :: .text u :: ys, ?_, Item.mergeRow_texts xs ys s u⟩
    rw [List.map_append, List.map_append, ← hxs, List.map_cons, List.map_cons, ← hys]
    rfl

theorem segments_text_cons (offset : Nat) (s : List Char) (ps : List Piece) :
    Piece.segments offset (text s :: ps) =
      (Piece.segments (offset + byteSize s) ps).map (.text s offset :: ·) := rfl

/-- A scan goes on behind a source as it would begin there, except that two texts may be put
together at the joint. -/
theorem scan_append (ha : scan a = .ok segments) (hseam : Seam a b) :
    (∀ e, Piece.segments (byteSize a) (pieces b) = .error e → scan (a ++ b) = .error e) ∧
      ∀ back, Piece.segments (byteSize a) (pieces b) = .ok back →
        ∃ joined, scan (a ++ b) = .ok joined ∧ Joined (segments ++ back) joined := by
  rw [scan_eq_segments_pieces] at ha
  have hterm := terminated_of_segments ha
  have hsize : 0 + byteSize (writtenAll (pieces a)) = byteSize a := by
    rw [writtenAll_pieces, Nat.zero_add]
  rw [scan_eq_segments_pieces]
  rcases Piece.pieces_append hterm hseam with ⟨happend, _⟩ | ⟨ps, s, u, qs, hps, hqs, happend⟩
  · rw [happend, segments_append ha, hsize]
    refine ⟨fun e he => by rw [he]; rfl, fun back hback => ⟨_, by rw [hback]; rfl, Or.inl rfl⟩⟩
  · rw [hps] at ha hsize
    rw [hqs, happend]
    obtain ⟨front, last, hfront, hlast, rfl⟩ := segments_append_eq_ok_iff.mp ha
    cases hlast
    have hstart : 0 + byteSize (writtenAll ps) + byteSize (s ++ u) = byteSize a + byteSize u := by
      rw [← hsize, writtenAll_append, byteSize_append, byteSize_append]
      simp [written, Nat.add_assoc]
    rw [segments_append hfront, segments_text_cons, segments_text_cons, hstart]
    cases Piece.segments (byteSize a + byteSize u) qs with
    | error e =>
        refine ⟨fun _ he => ?_, fun back hback => by cases hback⟩
        cases he
        rfl
    | ok tail =>
        refine ⟨fun _ he => by (cases he), fun back hback => ⟨_, rfl, Or.inr ?_⟩⟩
        cases hback
        exact ⟨front, s, u, _, _, tail, List.append_assoc front _ _, rfl⟩

end TemplateMarkup
