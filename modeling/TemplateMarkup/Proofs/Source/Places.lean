import TemplateMarkup.Proofs.Outcome
import TemplateMarkup.Proofs.Source.Segments

/-! # Places in a source

The offset of a segment is the place where it is written in the source, and
segments follow one another there. A scan fails at an opener whose closer does
not come any more.
-/

namespace TemplateMarkup

open Text Outcome

namespace Segment

/-- What stands before the interior of a segment. -/
def opening : Segment → List Char
  | text .. => []
  | tag .. => Delimiter.tag.opener
  | var _ escape _ => Delimiter.var.opener ++ if escape then ['!'] else []

/-- What stands between the delimiters of a segment; a text has none. -/
def interior : Segment → List Char
  | text s _ => s
  | tag inner _ => inner
  | var inner _ _ => inner

/-- What stands behind the interior of a segment. -/
def closing : Segment → List Char
  | text .. => []
  | tag .. => Delimiter.tag.closer
  | var .. => Delimiter.var.closer

/-- A segment with its delimiters. -/
def written (s : Segment) : List Char :=
  s.opening ++ s.interior ++ s.closing

/-- Whether a segment is written in a source at its offset. -/
def StandsIn (source : List Char) (s : Segment) : Prop :=
  ∃ front rest, source = front ++ s.written ++ rest ∧ byteSize front = s.offset

end Segment

namespace Piece

@[simp] theorem writtenAll_append (ps qs : List Piece) :
    writtenAll (ps ++ qs) = writtenAll ps ++ writtenAll qs :=
  List.flatMap_append

theorem written_of_segment? {offset : Nat} {p : Piece} {seg : Segment}
    (h : p.segment? offset = some seg) : seg.written = p.written := by
  cases p with
  | text s =>
      cases h
      exact List.append_nil s
  | unterminated d rest => cases h
  | closed d inner =>
      cases d with
      | comment => cases h
      | tag =>
          cases h
          rfl
      | var =>
          cases h
          unfold varSegment
          split <;> rfl

variable {offset : Nat} {ps : List Piece} {segs : List Segment}

theorem place_of_mem_segments (h : segments offset ps = .ok segs) :
    ∀ seg ∈ segs, ∃ front rest, writtenAll ps = front ++ seg.written ++ rest ∧
      offset + byteSize front = seg.offset := by
  induction ps generalizing offset segs with
  | nil =>
      cases h
      exact List.forall_mem_nil _
  | cons p ps ih =>
      obtain ⟨_, tail, htail, rfl⟩ := segments_cons_eq_ok_iff.mp h
      refine List.forall_mem_append.mpr ⟨fun seg hseg => ?_, fun seg hseg => ?_⟩
      · have hseg := Option.mem_toList.mp hseg
        refine ⟨[], writtenAll ps, ?_, (offset_of_segment? hseg).symm⟩
        rw [writtenAll_cons, written_of_segment? hseg, List.nil_append]
      · obtain ⟨front, rest, hwritten, hoffset⟩ := ih htail seg hseg
        refine ⟨p.written ++ front, rest, by simp [hwritten], ?_⟩
        rw [byteSize_append, ← Nat.add_assoc, hoffset]

theorem byteSize_pos {s : List Char} (h : s ≠ []) : 0 < byteSize s := by
  cases s with
  | nil => exact absurd rfl h
  | cons c s =>
      rw [byteSize_cons]
      exact Nat.add_pos_left c.utf8Size_pos _

/-- Every segment ends before the next one begins. -/
theorem pairwise_end_of_segments (h : segments offset ps = .ok segs) :
    segs.Pairwise fun s t => s.offset + byteSize s.written ≤ t.offset := by
  induction ps generalizing offset segs with
  | nil =>
      cases h
      exact .nil
  | cons p ps ih =>
      obtain ⟨_, tail, htail, rfl⟩ := segments_cons_eq_ok_iff.mp h
      refine List.pairwise_append.mpr ⟨?_, ih htail, fun s hs t ht => ?_⟩
      · cases p.segment? offset <;> simp
      · have hs := Option.mem_toList.mp hs
        obtain ⟨front, rest, _, hoffset⟩ := place_of_mem_segments htail t ht
        rw [offset_of_segment? hs, written_of_segment? hs]
        omega

/-- A row of pieces has no segments exactly if an opener in it is never closed, and the error is
about the first such opener. -/
theorem exists_unterminated_of_segments_error {e : TemplateError}
    (h : segments offset ps = .error e) :
    ∃ qs d rest rs front, ps = qs ++ unterminated d rest :: rs ∧
      segments offset qs = .ok front ∧
        e = .unterminatedDelimiter d (offset + byteSize (writtenAll qs)) := by
  induction ps generalizing offset with
  | nil => cases h
  | cons p ps ih =>
      by_cases hp : ∃ d rest, p = unterminated d rest
      · obtain ⟨d, rest, rfl⟩ := hp
        cases h
        exact ⟨[], d, rest, ps, [], rfl, rfl, rfl⟩
      · have hne : ∀ d rest, p ≠ unterminated d rest := fun d rest heq => hp ⟨d, rest, heq⟩
        rw [segments_cons hne, map_eq_error_iff] at h
        obtain ⟨qs, d, rest, rs, front, rfl, hfront, rfl⟩ := ih h
        refine ⟨p :: qs, d, rest, rs, _, rfl,
          segments_cons_eq_ok_iff.mpr ⟨hne, front, hfront, rfl⟩, ?_⟩
        rw [writtenAll_cons, byteSize_append, Nat.add_assoc]

theorem row_of_row_append {qs rs : List Piece} (h : Row (qs ++ rs)) : Row rs := by
  induction qs with
  | nil => exact h
  | cons q qs ih => exact ih h.2.2

end Piece

open Piece

theorem standsIn_of_mem_scan {source : List Char} {segs : List Segment}
    (h : scan source = .ok segs) : ∀ seg ∈ segs, seg.StandsIn source := by
  rw [scan_eq_segments_pieces] at h
  intro seg hseg
  obtain ⟨front, rest, hwritten, hoffset⟩ := place_of_mem_segments h seg hseg
  rw [writtenAll_pieces] at hwritten
  exact ⟨front, rest, hwritten, by omega⟩

theorem proper_of_mem_scan {source : List Char} {segs : List Segment}
    (h : scan source = .ok segs) : ∀ seg ∈ segs, seg.Proper := by
  rw [scan_eq_segments_pieces] at h
  exact proper_of_mem_segments (row_pieces source) h

theorem Segment.written_ne_nil {s : Segment} (h : s.Proper) : s.written ≠ [] := by
  cases s with
  | text s offset => exact fun hnil => h.1 ((List.append_nil s).symm.trans hnil)
  | tag interior offset => exact List.cons_ne_nil _ _
  | var interior escape offset => exact List.cons_ne_nil _ _

theorem offset_lt_of_mem_scan {source : List Char} {segs : List Segment}
    (h : scan source = .ok segs) : ∀ seg ∈ segs, seg.offset < byteSize source := by
  intro seg hseg
  obtain ⟨front, rest, rfl, hoffset⟩ := standsIn_of_mem_scan h seg hseg
  have hpos := byteSize_pos (Segment.written_ne_nil (proper_of_mem_scan h seg hseg))
  simp only [byteSize_append]
  omega

theorem pairwise_end_of_scan {source : List Char} {segs : List Segment}
    (h : scan source = .ok segs) :
    segs.Pairwise fun s t => s.offset + byteSize s.written ≤ t.offset := by
  rw [scan_eq_segments_pieces] at h
  exact pairwise_end_of_segments h

theorem pairwise_offset_of_scan {source : List Char} {segs : List Segment}
    (h : scan source = .ok segs) : segs.Pairwise fun s t => s.offset < t.offset := by
  refine (pairwise_end_of_scan h).imp_of_mem fun {s t} hs _ hend => ?_
  have hpos := byteSize_pos (Segment.written_ne_nil (proper_of_mem_scan h s hs))
  omega

/-- A scan fails at the last piece of a source, an opener that is never closed. -/
theorem exists_pieces_of_scan_error {source : List Char} {e : TemplateError}
    (h : scan source = .error e) :
    ∃ qs d rest segs, pieces source = qs ++ [unterminated d rest] ∧ segments 0 qs = .ok segs ∧
      e = .unterminatedDelimiter d (byteSize (writtenAll qs)) := by
  rw [scan_eq_segments_pieces] at h
  obtain ⟨qs, d, rest, rs, segs, hpieces, hsegs, rfl⟩ := exists_unterminated_of_segments_error h
  have hrow := row_pieces source
  rw [hpieces] at hrow
  obtain ⟨_, hbefore, hrs⟩ := row_of_row_append hrow
  obtain rfl := eq_nil_of_writtenAll hrs hbefore
  exact ⟨qs, d, rest, segs, hpieces, hsegs, by rw [Nat.zero_add]⟩

/-- A scan fails at an opener behind which its closer does not occur. -/
theorem exists_opener_of_scan_error {source : List Char} {e : TemplateError}
    (h : scan source = .error e) :
    ∃ front d rest, source = front ++ d.opener ++ rest ∧ ¬ d.closer <:+: rest ∧
      e = .unterminatedDelimiter d (byteSize front) := by
  obtain ⟨qs, d, rest, _, hpieces, _, rfl⟩ := exists_pieces_of_scan_error h
  have hrow := row_pieces source
  have hsource := writtenAll_pieces source
  rw [hpieces] at hrow hsource
  refine ⟨writtenAll qs, d, rest, ?_, (row_of_row_append hrow).1, rfl⟩
  rw [← hsource, writtenAll_append, writtenAll_cons, writtenAll_nil, List.append_nil, written,
    List.append_assoc]

end TemplateMarkup
