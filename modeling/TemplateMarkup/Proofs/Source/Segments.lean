import TemplateMarkup.Proofs.Source.PieceTree
import TemplateMarkup.Segment

/-! # Segments of the pieces

The scan of a source agrees with cutting it at the leftmost opener and the
first closer behind it: every piece is a segment or a comment, and an opener
without a closer is an error.
-/

namespace TemplateMarkup

open Grammar Text

namespace Piece

/-- A mark right after the opener of a variable is no part of its interior. -/
def varSegment (offset : Nat) : List Char → Segment
  | '!' :: inner => .var inner true offset
  | inner => .var inner false offset

theorem varSegment_of_ne {offset : Nat} {inner : List Char} (h : ∀ t, inner ≠ '!' :: t) :
    varSegment offset inner = .var inner false offset := by
  unfold varSegment
  split
  · rename_i t
    exact absurd rfl (h t)
  · rfl

/-- The segment of a piece at an offset; comments leave none. -/
def segment? (offset : Nat) : Piece → Option Segment
  | text s => some (.text s offset)
  | closed .tag inner => some (.tag inner offset)
  | closed .var inner => some (varSegment offset inner)
  | closed .comment _ => none
  | unterminated _ _ => none

/-- The segments of a row of pieces from an offset on; an opener without a closer is an error. -/
def segments (offset : Nat) : List Piece → Except TemplateError (List Segment)
  | [] => .ok []
  | unterminated d _ :: _ => .error (.unterminatedDelimiter d offset)
  | p :: ps =>
      (segments (offset + byteSize p.written) ps).map ((p.segment? offset).toList ++ ·)

/-- The construct of a piece at an offset. -/
def construct (offset : Nat) : Piece → Construct
  | text s => .segment (.text s offset)
  | closed .tag inner => .segment (.tag inner offset)
  | closed .var inner => .segment (varSegment offset inner)
  | closed .comment _ => .comment offset
  | unterminated d _ => .unterminated d offset

def constructs (offset : Nat) : List Piece → List Construct
  | [] => []
  | p :: ps => p.construct offset :: constructs (offset + byteSize p.written) ps

theorem ofTree?_tree (offset : Nat) (p : Piece) :
    Construct.ofTree? offset p.tree = some (p.construct offset) := by
  cases p with
  | text s => simp [tree, Construct.ofTree?, construct]
  | closed d inner =>
      cases d with
      | tag =>
          simp [tree, closedRule, Construct.ofTree?, construct, innerTrees, Construct.partText,
            Delimiter.opener, ParseTree.isNode, ParseTree.text]
      | comment => rfl
      | var =>
          by_cases hmark : ∃ t, inner = '!' :: t
          · obtain ⟨t, rfl⟩ := hmark
            simp [tree, closedRule, Construct.ofTree?, construct, innerTrees, varParts, varSegment,
              Construct.partText, Delimiter.opener, ParseTree.isNode, ParseTree.text]
          · have hne : ∀ t, inner ≠ '!' :: t := fun t ht => hmark ⟨t, ht⟩
            simp [tree, closedRule, Construct.ofTree?, construct, innerTrees, varParts_of_ne hne,
              varSegment_of_ne hne, Construct.partText, Delimiter.opener, Delimiter.closer,
              ParseTree.isNode, ParseTree.text]
  | unterminated d rest => cases d <;> rfl

theorem filterMap_placed_tree (offset : Nat) (ps : List Piece) (ts : List (ParseTree Rule)) :
    (ParseTree.placed offset (ps.map tree ++ ts)).filterMap
        (fun found => Construct.ofTree? found.1 found.2) =
      constructs offset ps ++
        (ParseTree.placed (offset + byteSize (writtenAll ps)) ts).filterMap
          (fun found => Construct.ofTree? found.1 found.2) := by
  induction ps generalizing offset with
  | nil => simp [constructs]
  | cons p ps ih =>
      simp [ParseTree.placed, constructs, ofTree?_tree, ih, Nat.add_assoc]

theorem segments_constructs (offset : Nat) (ps : List Piece) :
    Construct.segments (constructs offset ps) = segments offset ps := by
  induction ps generalizing offset with
  | nil => rfl
  | cons p ps ih =>
      cases p with
      | text s => simp [constructs, construct, Construct.segments, segments, segment?, ih]
      | unterminated d rest => rfl
      | closed d inner =>
          cases d with
          | tag => simp [constructs, construct, Construct.segments, segments, segment?, ih]
          | var => simp [constructs, construct, Construct.segments, segments, segment?, ih]
          | comment =>
              simp only [constructs, construct, Construct.segments, segments, segment?, ih]
              cases segments (offset + byteSize (closed .comment inner).written) ps <;> rfl

end Piece

open Piece

/-- The constructs of a source are those of its pieces. -/
theorem ofSource?_eq_pieces (source : List Char) :
    Construct.ofSource? source = some (constructs 0 (pieces source)) := by
  simp only [Construct.ofSource?, Recogniser.parts?, template_eq_some, Option.map_some,
    List.flatMap_cons, List.flatMap_nil, List.append_nil, ParseTree.children,
    filterMap_placed_tree]
  simp [ParseTree.placed, Construct.ofTree?]

theorem scan_eq_segments_pieces (source : List Char) :
    scan source = segments 0 (pieces source) := by
  rw [scan, ofSource?_eq_pieces]
  exact segments_constructs 0 (pieces source)

/-- What the pieces of a source are, said of a segment. -/
def Segment.Proper : Segment → Prop
  | text s _ => (Piece.text s).Proper
  | tag inner _ => (Piece.closed .tag inner).Proper
  | var inner _ _ => (Piece.closed .var inner).Proper

namespace Piece

theorem not_closer_inside {d : Delimiter} {inner : List Char} (h : (closed d inner).Proper) :
    ¬ d.closer <:+: inner := by
  rintro ⟨u, v, rfl⟩
  have hnil := h u (v ++ d.closer) (by simp only [List.append_assoc])
  cases d <;> simp [Delimiter.closer] at hnil

@[simp] theorem offset_varSegment (offset : Nat) (inner : List Char) :
    (varSegment offset inner).offset = offset := by
  unfold varSegment
  split <;> rfl

theorem offset_of_segment? {offset : Nat} {p : Piece} {seg : Segment}
    (h : p.segment? offset = some seg) : seg.offset = offset := by
  cases p with
  | text s =>
      cases h
      rfl
  | unterminated d rest => cases h
  | closed d inner =>
      cases d with
      | comment => cases h
      | tag =>
          cases h
          rfl
      | var =>
          cases h
          exact offset_varSegment offset inner

theorem proper_of_segment? {offset : Nat} {p : Piece} {seg : Segment}
    (h : p.segment? offset = some seg) (hp : p.Proper) : seg.Proper := by
  cases p with
  | text s =>
      cases h
      exact hp
  | unterminated d rest => cases h
  | closed d inner =>
      cases d with
      | comment => cases h
      | tag =>
          cases h
          exact hp
      | var =>
          cases h
          unfold varSegment
          split
          · exact proper_of_marked hp
          · exact hp

theorem eq_text_of_segment? {offset start : Nat} {p : Piece} {s : List Char}
    (h : p.segment? offset = some (.text s start)) : p = text s := by
  cases p with
  | text t =>
      cases h
      rfl
  | unterminated d rest => cases h
  | closed d inner =>
      cases d with
      | tag => cases h
      | comment => cases h
      | var =>
          simp only [segment?, varSegment] at h
          split at h <;> cases h

theorem eq_tag_of_segment? {offset start : Nat} {p : Piece} {inner : List Char}
    (h : p.segment? offset = some (.tag inner start)) : p = closed .tag inner := by
  cases p with
  | text t => cases h
  | unterminated d rest => cases h
  | closed d found =>
      cases d with
      | tag =>
          cases h
          rfl
      | comment => cases h
      | var =>
          simp only [segment?, varSegment] at h
          split at h <;> cases h

theorem segments_cons {p : Piece} (hp : ∀ d rest, p ≠ unterminated d rest) (offset : Nat)
    (ps : List Piece) : segments offset (p :: ps) =
      (segments (offset + byteSize p.written) ps).map ((p.segment? offset).toList ++ ·) := by
  cases p with
  | text s => rfl
  | closed d inner => rfl
  | unterminated d rest => exact absurd rfl (hp d rest)

theorem segments_cons_eq_ok_iff {offset : Nat} {p : Piece} {ps : List Piece}
    {segs : List Segment} :
    segments offset (p :: ps) = .ok segs ↔
      (∀ d rest, p ≠ unterminated d rest) ∧
        ∃ tail, segments (offset + byteSize p.written) ps = .ok tail ∧
          segs = (p.segment? offset).toList ++ tail := by
  constructor
  · intro h
    have hp : ∀ d rest, p ≠ unterminated d rest := by
      rintro d rest rfl
      cases h
    rw [segments_cons hp] at h
    cases htail : segments (offset + byteSize p.written) ps with
    | error e =>
        rw [htail] at h
        cases h
    | ok tail =>
        rw [htail] at h
        cases h
        exact ⟨hp, tail, rfl, rfl⟩
  · rintro ⟨hp, tail, htail, rfl⟩
    rw [segments_cons hp, htail]
    rfl

theorem proper_of_mem_segments {offset : Nat} {ps : List Piece} {segs : List Segment}
    (hrow : Row ps) (h : segments offset ps = .ok segs) : ∀ seg ∈ segs, seg.Proper := by
  induction ps generalizing offset segs with
  | nil =>
      cases h
      exact List.forall_mem_nil _
  | cons p ps ih =>
      obtain ⟨hp, _, hps⟩ := hrow
      obtain ⟨_, tail, htail, rfl⟩ := segments_cons_eq_ok_iff.mp h
      refine List.forall_mem_append.mpr ⟨fun seg hseg => ?_, ih hps htail⟩
      exact proper_of_segment? (Option.mem_toList.mp hseg) hp

end Piece

end TemplateMarkup
