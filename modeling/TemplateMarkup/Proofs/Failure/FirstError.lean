import TemplateMarkup.Proofs.Composition.Relocation
import TemplateMarkup.Proofs.Failure.Outline
import TemplateMarkup.Proofs.Failure.Places
import TemplateMarkup.Proofs.Source.Concatenation

/-! # The first error

A scan that fails is the outcome, whatever the tags before are worth. Otherwise
segments are taken in from left to right, and the first that is refused decides:
what stands before it has no error of its own except for blocks left open, and
what stands behind it is not looked at.
-/

namespace TemplateMarkup

open Text Outcome

variable {segments before after : List Segment} {s u : Segment} {source : List Char}
  {registry : Registry} {e : TemplateError} {offset : Nat}

/-- Whether an offset is inside of a segment with its delimiters. -/
def Segment.Spans (s : Segment) (offset : Nat) : Prop :=
  s.offset ≤ offset ∧ offset < s.offset + byteSize s.written

namespace Segment

theorem spans_offset (h : s.isText = false) : s.Spans s.offset := by
  refine ⟨Nat.le_refl _, Nat.lt_add_of_pos_right (Piece.byteSize_pos ?_)⟩
  cases s with
  | text s offset => cases h
  | tag interior offset => exact List.cons_ne_nil _ _
  | var interior escape offset => exact List.cons_ne_nil _ _

/-- A segment spans every place in its interior. -/
theorem spans_interior {w q : List Char} (hinterior : s.interior = w ++ q) (hq : q ≠ []) :
    s.Spans (s.offset + byteSize s.opening + byteSize w) := by
  have hpos := Piece.byteSize_pos hq
  refine ⟨by omega, ?_⟩
  rw [written, hinterior]
  simp only [byteSize_append]
  omega

theorem isText_of_ofSegment_error (h : Item.ofSegment registry s = .error e) :
    s.isText = false := by
  cases s with
  | text s offset => cases h
  | tag interior offset => rfl
  | var interior escape offset => rfl

/-- A segment from which no item is read spans the place of the error. -/
theorem spans_of_ofSegment_error (h : Item.ofSegment registry s = .error e) :
    s.Spans e.offset := by
  have hself := spans_offset (isText_of_ofSegment_error h)
  rcases Item.ofSegment_eq_error_iff.mp h with
    ⟨interior, offset, rfl, hquote | ⟨words, _, hwords⟩⟩ | ⟨interior, escape, offset, rfl, hread⟩
  · obtain ⟨w, q, hsplit, _, hq, rfl⟩ := exists_openQuote_of_tagWords hquote
    exact spans_interior hsplit hq.ne_nil
  · rcases Item.ofWords_eq_error_iff.mp hwords with ⟨_, rfl⟩ | ⟨name, args, _, _, hname⟩
    · exact hself
    rcases hname with ⟨_, rfl⟩ | ⟨target, _, hcloser⟩
    · exact hself
    rcases Item.ofCloser_eq_error_iff.mp hcloser with ⟨_, rfl⟩ | ⟨_, _, rfl⟩
    · exact hself
    · exact hself
  · rcases Variable.error_of_read hread with rfl | ⟨w, q, hsplit, _, hq, rfl⟩
    · exact hself
    · rw [TemplateError.offset, ← byteSize_opening_var interior]
      exact spans_interior hsplit hq.ne_nil

/-- So does a segment whose item has no place. -/
theorem spans_of_place_error {n : Nesting} {item : Item} {maxDepth : Nat}
    (hitem : Item.ofSegment registry s = .ok item)
    (h : n.place maxDepth s.offset item = .error e) : s.isText = false ∧ s.Spans e.offset := by
  have hblock : (∃ name args, item = .opening name args) ∨ ∃ name, item = .closing name := by
    rcases Nesting.place_eq_error_iff.mp h with ⟨name, args, rfl, _⟩ | ⟨name, rfl, _⟩
    · exact Or.inl ⟨name, args, rfl⟩
    · exact Or.inr ⟨name, rfl⟩
  obtain ⟨interior, _, htag, _⟩ := Item.exists_tag_of_ofSegment hitem hblock
  have hself : s.isText = false := by
    rw [htag]
    rfl
  refine ⟨hself, ?_⟩
  rcases Nesting.place_eq_error_iff.mp h with ⟨_, _, _, _, rfl⟩ | ⟨_, _, _, rfl⟩
  · exact spans_offset hself
  · exact spans_offset hself

end Segment

/-- No two segments of a source span the same place. -/
theorem eq_of_spans (hscan : scan source = .ok (before ++ s :: after)) (hs : s.Spans offset)
    (hu : u ∈ before ++ s :: after) (hspans : u.Spans offset) : u = s := by
  obtain ⟨_, hbehind, hfront⟩ := List.pairwise_append.mp (pairwise_end_of_scan hscan)
  obtain ⟨hafter, _⟩ := List.pairwise_cons.mp hbehind
  obtain ⟨hle, hlt⟩ := hs
  obtain ⟨hule, hult⟩ := hspans
  rcases List.mem_append.mp hu with hu | hu
  · have hend := hfront u hu s (List.mem_cons_self ..)
    omega
  · rcases List.mem_cons.mp hu with rfl | hu
    · rfl
    · have hend := hafter u hu
      omega

theorem Piece.exists_closed_of_segment? {p : Piece} (h : p.segment? offset = some s)
    (hs : s.isText = false) : ∃ d inner, p = closed d inner := by
  cases p with
  | text t =>
      cases h
      cases hs
  | closed d inner => exact ⟨d, inner, rfl⟩
  | unterminated d rest => cases h

/-- A source may be cut before and behind a tag or a variable. The scan of the first part is what
was scanned before, and another source behind the second part adds its own segments. -/
theorem exists_cut_of_scan (hscan : scan source = .ok (before ++ s :: after))
    (hs : s.isText = false) :
    ∃ front rest, source = front ++ s.written ++ rest ∧ byteSize front = s.offset ∧
      scan front = .ok before ∧ ∀ r segs, scan r = .ok segs →
        ∃ others, scan (front ++ s.written ++ r) = .ok (before ++ s :: others) := by
  rw [scan_eq_segments_pieces] at hscan
  obtain ⟨qs, p, rs, hpieces, hqs, hp⟩ := Piece.exists_piece_of_segments hscan
  have hrow := Piece.row_pieces source
  have hsource := Piece.writtenAll_pieces source
  rw [hpieces] at hrow hsource
  have hwritten := Piece.written_of_segment? hp
  have hoffset := Piece.offset_of_segment? hp
  rw [Nat.zero_add] at hp hoffset
  refine ⟨Piece.writtenAll qs, Piece.writtenAll rs, ?_, hoffset.symm, ?_, fun r segs hr => ?_⟩
  · rw [← hsource, hwritten]
    simp
  · rw [scan_eq_segments_pieces, Piece.pieces_writtenAll (Piece.row_of_append_row hrow), hqs]
  · obtain ⟨d, inner, rfl⟩ := Piece.exists_closed_of_segment? hp hs
    rw [scan_eq_segments_pieces] at hr
    let others := segs.map (Segment.relocate (· + (s.offset + byteSize s.written)))
    have hothers : Piece.segments (s.offset + byteSize s.written) (Piece.pieces r) =
        .ok others := by
      rw [Piece.segments_shift, hr]
      rfl
    have hcut : Piece.segments (byteSize (Piece.writtenAll qs))
        (Piece.closed d inner :: Piece.pieces r) = .ok (s :: others) := by
      rw [← hoffset] at hp ⊢
      refine Piece.segments_cons_eq_ok_iff.mpr ⟨fun _ _ => Piece.noConfusion, others, ?_, ?_⟩
      · rw [← hwritten, hothers]
      · rw [hp]
        rfl
    refine ⟨others, ?_⟩
    rw [scan_eq_segments_pieces, hwritten,
      Piece.pieces_behind_closed hrow (Piece.terminated_of_segments hqs)]
    rw [← Nat.zero_add (byteSize _)] at hcut
    exact Piece.segments_append_eq_ok_iff.mpr ⟨before, _, hqs, hcut, rfl⟩

namespace Tokenizer

variable {t : Tokenizer} {n : Nesting}

/-- A segment that is refused behind others decides, whatever follows. -/
theorem tokenize_of_step_error (hscan : scan source = .ok (before ++ s :: after))
    (hnest : t.nest .empty before = .ok n) (hstep : t.step n s = .error e) :
    t.tokenize source = .error e := by
  have hrun : t.nest .empty (before ++ s :: after) = .error e := by
    rw [nest, List.foldlM_append]
    exact bind_eq_error_iff.mpr (Or.inr ⟨n, hnest, bind_eq_error_iff.mpr (Or.inl hstep)⟩)
  rw [tokenize_eq_error_iff]
  exact bind_eq_error_iff.mpr (Or.inr ⟨_, hscan, bind_eq_error_iff.mpr (Or.inl hrun)⟩)

/-- Where all segments of a source can be taken in, only a block that is left open is an error. -/
theorem tokenize_of_nest (hscan : scan source = .ok segments)
    (hnest : t.nest .empty segments = .ok n) :
    (∃ ts, t.tokenize source = .ok ts) ∨
      ∃ name offset, t.tokenize source = .error (.missingClose name offset) := by
  have hforest : t.forest source = n.finish := by
    rw [forest_of_scan hscan, hnest]
    rfl
  cases hfinish : n.finish with
  | ok ts => exact Or.inl ⟨_, tokenize_eq_ok_iff.mpr ⟨ts, hforest.trans hfinish, rfl⟩⟩
  | error e =>
      obtain ⟨start, name, _, rfl⟩ := Nesting.finish_eq_error_iff.mp hfinish
      exact Or.inr ⟨name, start, tokenize_eq_error_iff.mpr (hforest.trans hfinish)⟩

/-- An error that is neither an opener without a closer nor a block left open is that of the first
segment that is refused. -/
theorem exists_refused_of_error (h : t.tokenize source = .error e)
    (hopener : ∀ d offset, e ≠ .unterminatedDelimiter d offset)
    (hopen : ∀ name offset, e ≠ .missingClose name offset) :
    ∃ before s after n, scan source = .ok (before ++ s :: after) ∧
      t.nest .empty before = .ok n ∧ t.step n s = .error e ∧ s.isText = false ∧
        s.Spans e.offset := by
  rcases cause_of_error h with hscan | ⟨_, hscan, hcause⟩
  · obtain ⟨_, _, _, _, _, rfl⟩ := exists_opener_of_scan_error hscan
    exact absurd rfl (hopener _ _)
  rcases hcause with ⟨before, s, after, items, n, rfl, hreaches, hstep⟩ | ⟨_, _, _, hfinish⟩
  · refine ⟨before, s, after, n, hscan, nest_empty_eq_ok_iff.mpr ⟨items, hreaches⟩,
      bind_eq_error_iff.mpr hstep, ?_⟩
    rcases hstep with hread | ⟨item, hitem, hplace⟩
    · exact ⟨Segment.isText_of_ofSegment_error hread, Segment.spans_of_ofSegment_error hread⟩
    · exact Segment.spans_of_place_error hitem hplace
  · obtain ⟨_, _, _, rfl⟩ := Nesting.finish_eq_error_iff.mp hfinish
    exact absurd rfl (hopen _ _)

/-- An opener that is never closed is the outcome whatever stands before it. Any other error but a
block left open lies in one tag or variable of the source: what stands before that has no error
but blocks left open, and whatever is put behind it, if it is scanned on its own, the error is the
same. -/
theorem first_error_decides (t : Tokenizer) (source : List Char) :
    (∀ e, scan source = .error e →
      (∃ d offset, e = .unterminatedDelimiter d offset) ∧ t.tokenize source = .error e) ∧
      ∀ e, t.tokenize source = .error e → (∀ d offset, e ≠ .unterminatedDelimiter d offset) →
        (∀ name offset, e ≠ .missingClose name offset) →
          ∃ segments s front rest, scan source = .ok segments ∧
            (s ∈ segments ∧ s.isText = false ∧ s.Spans e.offset ∧
              ∀ u ∈ segments, u.Spans e.offset → u = s) ∧
            (source = front ++ s.written ++ rest ∧ byteSize front = s.offset) ∧
            ((∃ ts, t.tokenize front = .ok ts) ∨
              ∃ name offset, t.tokenize front = .error (.missingClose name offset)) ∧
            ∀ r others, scan r = .ok others →
              t.tokenize (front ++ s.written ++ r) = .error e := by
  constructor
  · intro e he
    obtain ⟨_, d, _, _, _, rfl⟩ := exists_opener_of_scan_error he
    exact ⟨⟨d, _, rfl⟩, tokenize_of_scan_error he⟩
  · intro e he hopener hopen
    obtain ⟨before, s, after, n, hscan, hnest, hstep, htext, hspans⟩ :=
      exists_refused_of_error he hopener hopen
    obtain ⟨front, rest, hsource, hoffset, hfront, hbehind⟩ := exists_cut_of_scan hscan htext
    refine ⟨before ++ s :: after, s, front, rest, hscan, ⟨by simp, htext, hspans, ?_⟩,
      ⟨hsource, hoffset⟩, tokenize_of_nest hfront hnest, ?_⟩
    · exact fun u hu => eq_of_spans hscan hspans hu
    · intro r others hr
      obtain ⟨found, hfound⟩ := hbehind r others hr
      exact tokenize_of_step_error hfound hnest hstep

/-- A closing tag in a block of another name, and a variable behind it that is refused as well. -/
theorem first_error_decides_closing_tag :
    (⟨.ofList [(['i', 'f'], .block)], 1⟩ : Tokenizer).tokenize
        (displayWords [['i', 'f']] ++ displayWords [closerName ['o']] ++
          ['{', '{', '\'', '}', '}']) =
      .error (.unbalancedClose ['o'] (some ['i', 'f']) 8) := by
  have hscan : scan (displayWords [['i', 'f']] ++ displayWords [closerName ['o']]) =
      .ok [.tag [' ', 'i', 'f', ' '] 0, .tag [' ', 'e', 'n', 'd', 'o', ' '] 8] := by rfl
  have hfail : (⟨.ofList [(['i', 'f'], .block)], 1⟩ : Tokenizer).tokenize
      (displayWords [['i', 'f']] ++ displayWords [closerName ['o']]) =
      .error (.unbalancedClose ['o'] (some ['i', 'f']) 8) := by rfl
  have hbehind : scan ['{', '{', '\'', '}', '}'] = .ok [.var ['\''] false 0] := by rfl
  obtain ⟨segments, s, front, rest, hfound, ⟨hmem, _, ⟨_, hlt⟩, _⟩, ⟨hsource, hoffset⟩, _, hsame⟩ :=
    (first_error_decides _ _).2 _ hfail (fun _ _ => TemplateError.noConfusion)
      fun _ _ => TemplateError.noConfusion
  rw [hscan] at hfound
  obtain rfl := Except.ok.inj hfound
  rcases List.mem_cons.mp hmem with rfl | hmem
  · -- the opening of the block ends where the error is
    exact absurd hlt (by decide)
  · obtain rfl := List.mem_singleton.mp hmem
    have hcut : splitAtByte? (displayWords [['i', 'f']] ++ displayWords [closerName ['o']]) 8 =
        some (displayWords [['i', 'f']], displayWords [closerName ['o']]) := by rfl
    rw [List.append_assoc front] at hsource
    have hfront := splitAtByte?_eq_some_iff.mpr ⟨hsource.symm, hoffset⟩
    cases hfront.symm.trans hcut
    exact hsame _ _ hbehind

end Tokenizer

end TemplateMarkup
