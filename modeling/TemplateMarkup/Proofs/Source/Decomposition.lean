import TemplateMarkup.Grammar.Production
import TemplateMarkup.Proofs.Source.Segments

/-! # Scanning is cutting into pieces

The nodes of the grammar tile the source, the constructs with their delimiters
put back are the source again, and between two texts that follow one another
stands a comment.
-/

namespace TemplateMarkup

open Grammar Text Piece

namespace Grammar

/-- Spans that follow one another without gap or overlap from a place to a place. -/
def Span.Tiles : Nat → Nat → List (Span Rule) → Prop
  | start, stop, [] => start = stop
  | start, stop, .mk _ first last _ :: spans =>
      first = start ∧ first ≤ last ∧ Span.Tiles last stop spans

theorem tiles_spansAll {ts : List (ParseTree Rule)}
    (h : ∀ t ∈ ts, ∃ rule children, t = .node rule children) (offset : Nat) :
    Span.Tiles offset (offset + byteSize (ParseTree.textAll ts)) (ParseTree.spansAll offset ts) := by
  induction ts generalizing offset with
  | nil => rfl
  | cons t ts ih =>
      obtain ⟨rule, children, rfl⟩ := h _ (List.mem_cons_self ..)
      have hts := ih (fun t ht => h t (List.mem_cons_of_mem _ ht))
        (offset + byteSize (ParseTree.textAll children))
      simp only [ParseTree.spansAll, ParseTree.spans, ParseTree.text, ParseTree.textAll,
        List.singleton_append, byteSize_append, Span.Tiles, true_and]
      refine ⟨Nat.le_add_right _ _, ?_⟩
      rwa [← Nat.add_assoc]

end Grammar

namespace Construct

def offset : Construct → Nat
  | segment s => s.offset
  | comment offset => offset
  | unterminated _ offset => offset

/-- What a construct is written as, its delimiters put back around its interior. -/
def Writes : Construct → List Char → Prop
  | segment (.text s _), w => w = s
  | segment (.tag inner _), w => w = Delimiter.tag.opener ++ inner ++ Delimiter.tag.closer
  | segment (.var inner escape _), w =>
      w = Delimiter.var.opener ++ (if escape then ['!'] else []) ++ inner ++ Delimiter.var.closer
  | comment _, w => ∃ inner, w = Delimiter.comment.opener ++ inner ++ Delimiter.comment.closer
  | unterminated d _, w => ∃ rest, w = d.opener ++ rest

/-- A row of constructs that makes up a text, each at the offset where it is written. -/
inductive Covers : Nat → List Construct → List Char → Prop
  | nil (start : Nat) : Covers start [] []
  | cons {c : Construct} {w s : List Char} {cs : List Construct} (writes : c.Writes w)
      (rest : Covers (c.offset + byteSize w) cs s) : Covers c.offset (c :: cs) (w ++ s)

end Construct

namespace Piece

@[simp] theorem offset_construct (offset : Nat) (p : Piece) :
    (p.construct offset).offset = offset := by
  cases p with
  | text s => rfl
  | unterminated d rest => rfl
  | closed d inner =>
      cases d with
      | tag => rfl
      | comment => rfl
      | var => exact offset_varSegment offset inner

theorem writes_construct (offset : Nat) (p : Piece) : (p.construct offset).Writes p.written := by
  cases p with
  | text s => rfl
  | unterminated d rest => exact ⟨rest, rfl⟩
  | closed d inner =>
      cases d with
      | tag => rfl
      | comment => exact ⟨inner, rfl⟩
      | var =>
          simp only [construct, varSegment]
          split <;> rfl

theorem covers_constructs (offset : Nat) (ps : List Piece) :
    Construct.Covers offset (constructs offset ps) (writtenAll ps) := by
  induction ps generalizing offset with
  | nil => exact .nil offset
  | cons p ps ih =>
      have hps : Construct.Covers ((p.construct offset).offset + byteSize p.written)
          (constructs (offset + byteSize p.written) ps) (writtenAll ps) := by
        rw [offset_construct]
        exact ih _
      have hp := Construct.Covers.cons (writes_construct offset p) hps
      rwa [offset_construct] at hp

theorem mem_constructs {offset : Nat} {ps : List Piece} {c : Construct}
    (h : c ∈ constructs offset ps) : ∃ p ∈ ps, ∃ start, c = p.construct start := by
  induction ps generalizing offset with
  | nil => cases h
  | cons p ps ih =>
      rcases List.mem_cons.mp h with rfl | h
      · exact ⟨p, List.mem_cons_self .., offset, rfl⟩
      · obtain ⟨q, hq, start, rfl⟩ := ih h
        exact ⟨q, List.mem_cons_of_mem p hq, start, rfl⟩

theorem proper_of_mem {ps : List Piece} (h : Row ps) {p : Piece} (hp : p ∈ ps) : p.Proper := by
  induction ps with
  | nil => cases hp
  | cons q ps ih =>
      rcases List.mem_cons.mp hp with rfl | hp
      · exact h.1
      · exact ih h.2.2 hp

theorem segment?_of_construct {offset : Nat} {p : Piece} {seg : Segment}
    (h : p.construct offset = .segment seg) : p.segment? offset = some seg := by
  cases p with
  | text s =>
      cases h
      rfl
  | unterminated d rest => cases h
  | closed d inner =>
      cases d with
      | comment => cases h
      | tag =>
          cases h
          rfl
      | var =>
          cases h
          rfl

theorem proper_of_mem_constructs {ps : List Piece} (h : Row ps) {start : Nat} {seg : Segment}
    (hmem : .segment seg ∈ constructs start ps) : seg.Proper := by
  obtain ⟨p, hp, offset, hc⟩ := mem_constructs hmem
  exact proper_of_segment? (segment?_of_construct hc.symm) (proper_of_mem h hp)

theorem le_offset_of_mem_segments {offset : Nat} {ps : List Piece} {segs : List Segment}
    (h : segments offset ps = .ok segs) : ∀ seg ∈ segs, offset ≤ seg.offset := by
  induction ps generalizing offset segs with
  | nil =>
      cases h
      intro seg hseg
      cases hseg
  | cons p ps ih =>
      obtain ⟨_, tail, htail, rfl⟩ := segments_cons_eq_ok_iff.mp h
      intro seg hseg
      rcases List.mem_append.mp hseg with hseg | hseg
      · exact Nat.le_of_eq (offset_of_segment? (Option.mem_toList.mp hseg)).symm
      · exact Nat.le_trans (Nat.le_add_right _ _) (ih htail seg hseg)

/-- A row that follows a text has a comment before its next text, if that is its next segment. -/
theorem comment_before_text {offset : Nat} {ps : List Piece} {tail : List Segment}
    {s t : List Char} {start : Nat} (hrow : Row ps) (hbefore : (text s).Before (writtenAll ps))
    (h : segments offset ps = .ok (.text t start :: tail)) :
    .comment offset ∈ constructs offset ps ∧ offset < start := by
  cases ps with
  | nil => cases h
  | cons p ps =>
      obtain ⟨hne, rest, hrest, hsegs⟩ := segments_cons_eq_ok_iff.mp h
      cases p with
      | unterminated d r => exact absurd rfl (hne d r)
      | text u =>
          rcases hbefore with hnil | ⟨hopen, _⟩
          · exact absurd (List.append_eq_nil_iff.mp hnil).1 hrow.1.1
          · rw [writtenAll_cons, written, ofOpener?_text hrow.1 hrow.2.1] at hopen
            cases hopen
      | closed d inner =>
          cases d with
          | tag => cases hsegs
          | var =>
              simp only [segment?, varSegment] at hsegs
              split at hsegs <;> cases hsegs
          | comment =>
              have hsegs' : Segment.text t start :: tail = rest := hsegs
              have hle := le_offset_of_mem_segments hrest (.text t start) (by simp [← hsegs'])
              have hpos : 0 < byteSize (closed .comment inner).written := by
                simp only [written, Delimiter.opener, List.cons_append, byteSize_cons]
                have := Char.utf8Size_pos '{'
                omega
              refine ⟨List.mem_cons_self .., ?_⟩
              change offset + _ ≤ start at hle
              omega

/-- Between two texts that follow one another among the segments stands a comment. -/
theorem comment_between_texts {offset : Nat} {ps : List Piece} {segs : List Segment}
    (hrow : Row ps) (h : segments offset ps = .ok segs) {s t : List Char} {start stop : Nat}
    (hin : [.text s start, .text t stop] <:+: segs) :
    ∃ place, .comment place ∈ constructs offset ps ∧ start < place ∧ place < stop := by
  induction ps generalizing offset segs with
  | nil =>
      cases h
      simp at hin
  | cons p ps ih =>
      obtain ⟨hp, hbefore, hps⟩ := hrow
      obtain ⟨_, tail, htail, rfl⟩ := segments_cons_eq_ok_iff.mp h
      have hlater (hin : [.text s start, .text t stop] <:+: tail) :
          ∃ place, .comment place ∈ constructs offset (p :: ps) ∧
            start < place ∧ place < stop := by
        obtain ⟨place, hmem, hlt⟩ := ih hps htail hin
        exact ⟨place, List.mem_cons_of_mem _ hmem, hlt⟩
      cases hseg : p.segment? offset with
      | none =>
          rw [hseg] at hin
          exact hlater hin
      | some seg =>
          rw [hseg, Option.toList_some, List.singleton_append, List.infix_cons_iff] at hin
          rcases hin with hpre | hin
          · obtain ⟨rfl, htext⟩ := List.cons_prefix_cons.mp hpre
            obtain ⟨after, rfl⟩ := htext
            have hstart : start = offset := offset_of_segment? hseg
            obtain rfl := eq_text_of_segment? hseg
            obtain ⟨hmem, hlt⟩ := comment_before_text hps hbefore htail
            have hpos : 0 < byteSize s := by
              cases s with
              | nil => exact absurd rfl hp.1
              | cons c s =>
                  rw [byteSize_cons]
                  have := c.utf8Size_pos
                  omega
            refine ⟨_, List.mem_cons_of_mem _ hmem, ?_, hlt⟩
            simp only [written]
            omega
          · exact hlater hin

end Piece

/-- The scan of a source is its decomposition at the leftmost opener and the first closer behind
it. The nodes of the grammar tile the source, its constructs with their delimiters put back are
the source again, no text is empty or holds an opener, no interior holds its own closer, and two
texts that follow one another are parted by a comment. -/
theorem scan_decomposes (source : List Char) :
    scan source = segments 0 (pieces source) ∧
      (∃ inner, Rule.spans? .template source = some [.mk .template 0 (byteSize source) inner] ∧
        Span.Tiles 0 (byteSize source) inner) ∧
      ∃ cs, Construct.ofSource? source = some cs ∧ Construct.Covers 0 cs source ∧
        (∀ s o, .segment (.text s o) ∈ cs → s ≠ [] ∧ ∀ d : Delimiter, ¬ d.opener <:+: s) ∧
        (∀ s o, .segment (.tag s o) ∈ cs → ¬ Delimiter.tag.closer <:+: s) ∧
        (∀ s escape o, .segment (.var s escape o) ∈ cs → ¬ Delimiter.var.closer <:+: s) ∧
        ∀ segs, scan source = .ok segs → ∀ s start t stop,
          [.text s start, .text t stop] <:+: segs →
            ∃ place, .comment place ∈ cs ∧ start < place ∧ place < stop := by
  have hrow := row_pieces source
  refine ⟨scan_eq_segments_pieces source, ?_, constructs 0 (pieces source),
    ofSource?_eq_pieces source, ?_, ?_, ?_, ?_, ?_⟩
  · have htext : ParseTree.textAll ((pieces source).map tree ++ [.node .endOfText []]) =
        source := by
      simp [textAll_map_tree, ParseTree.textAll, ParseTree.text]
    have hnodes : ∀ t ∈ (pieces source).map tree ++ [.node .endOfText []],
        ∃ rule children, t = .node rule children := by
      intro t ht
      rcases List.mem_append.mp ht with ht | ht
      · obtain ⟨p, _, rfl⟩ := List.mem_map.mp ht
        cases p <;> exact ⟨_, _, rfl⟩
      · exact ⟨_, _, List.mem_singleton.mp ht⟩
    have htiles := tiles_spansAll hnodes 0
    rw [htext, Nat.zero_add] at htiles
    refine ⟨_, ?_, htiles⟩
    simp only [Rule.spans?, Rule.recogniser, template_eq_some, Option.map_some,
      ParseTree.spansAll, ParseTree.spans, htext, Nat.zero_add, List.append_nil]
  · have hcovers := covers_constructs 0 (pieces source)
    rwa [writtenAll_pieces] at hcovers
  · intro s o hmem
    exact proper_of_mem_constructs hrow hmem
  · intro s o hmem
    exact not_closer_inside (proper_of_mem_constructs hrow hmem)
  · intro s escape o hmem
    exact not_closer_inside (proper_of_mem_constructs hrow hmem)
  · intro segs hsegs s start t stop hin
    rw [scan_eq_segments_pieces] at hsegs
    exact comment_between_texts hrow hsegs hin

end TemplateMarkup
