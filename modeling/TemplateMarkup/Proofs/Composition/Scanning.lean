import TemplateMarkup.Proofs.Composition.Succession
import TemplateMarkup.Proofs.Source.Decomposition

/-! # Scans in succession

Behind a source that is scanned, another one is scanned as if it stood alone,
as long as no opener straddles the seam. Two texts that meet there are one; a
comment at the seam keeps them apart. An opener that straddles the seam begins
a construct of its own, whatever the first source was read as.
-/

namespace TemplateMarkup

open Text Outcome Piece

variable {a b : List Char} {front back rest : List Segment}

/-- Whether the last character of a text and the first of another one make an opener. -/
def Straddled (a b : List Char) : Prop :=
  a.getLast? = some '{' ∧ (b.head? = some '{' ∨ b.head? = some '%' ∨ b.head? = some '#')

theorem isSome_ofOpener?_of_straddled (h : Straddled a b) :
    (Delimiter.ofOpener? ('{' :: b)).isSome = true := by
  have hopen : ∀ d c, Delimiter.opener d = ['{', c] → b.head? = some c →
      (Delimiter.ofOpener? ('{' :: b)).isSome = true := by
    intro d c hd hhead
    obtain ⟨tail, rfl⟩ := List.head?_eq_some_iff.mp hhead
    rw [Delimiter.ofOpener?_eq_some_iff.mpr ⟨tail, by rw [hd]; rfl⟩, Option.isSome_some]
  rcases h.2 with hhead | hhead | hhead
  · exact hopen .var _ rfl hhead
  · exact hopen .tag _ rfl hhead
  · exact hopen .comment _ rfl hhead

namespace Piece

variable {ps qs : List Piece} {offset start : Nat} {s u : List Char}

/-- A text that reaches the end of a row of pieces is the last of them. -/
theorem exists_text_of_segments_end (hrow : Row ps)
    (h : segments offset ps = .ok (front ++ [.text s start]))
    (hend : start + byteSize s = offset + byteSize (writtenAll ps)) :
    ∃ qs, ps = qs ++ [text s] ∧ segments offset qs = .ok front ∧
      offset + byteSize (writtenAll qs) = start := by
  obtain ⟨qs, p, rs, rfl, hqs, hseg⟩ := exists_piece_of_segments h
  obtain rfl := eq_text_of_segment? hseg
  have hstart : start = offset + byteSize (writtenAll qs) := offset_of_segment? hseg
  have hrs : Row rs := (row_of_row_append hrow).2.2
  rw [writtenAll_append, writtenAll_cons, byteSize_append, byteSize_append, written] at hend
  have hnil : rs = [] := by
    apply Decidable.byContradiction
    intro hne
    have hpos := byteSize_pos (writtenAll_ne_nil hrs hne)
    omega
  rw [hnil]
  exact ⟨qs, rfl, hqs, hstart.symm⟩

/-- A text where a row of pieces begins is the first of them. -/
theorem exists_text_of_segments_start (hrow : Row ps)
    (h : segments offset ps = .ok (.text u offset :: rest)) :
    ∃ qs, ps = text u :: qs ∧ segments (offset + byteSize u) qs = .ok rest := by
  cases ps with
  | nil => cases h
  | cons p ps =>
      obtain ⟨_, tail, htail, hsegs⟩ := segments_cons_eq_ok_iff.mp h
      cases hp : p.segment? offset with
      | none =>
          rw [hp, Option.toList_none, List.nil_append] at hsegs
          have hle := le_offset_of_mem_segments htail (.text u offset)
            (hsegs ▸ List.mem_cons_self ..)
          have hpos := byteSize_pos (written_ne_nil hrow.1)
          rw [Segment.offset] at hle
          omega
      | some seg =>
          rw [hp, Option.toList_some, List.singleton_append] at hsegs
          obtain ⟨rfl, rfl⟩ := List.cons.inj hsegs
          obtain rfl := eq_text_of_segment? hp
          exact ⟨ps, rfl, htail⟩

/-- What stands before the last text of a row may stand before any other row, since it is no
text. -/
theorem row_append_of_text (hps : Row (ps ++ [text s])) (hterm : Terminated ps) (hqs : Row qs) :
    Row (ps ++ qs) := by
  refine row_append (row_of_append_row hps) hterm hqs fun t ht => ?_
  obtain ⟨rs, rfl⟩ := List.getLast?_eq_some_iff.mp ht
  rw [List.append_assoc] at hps
  exact absurd hps not_row_texts

/-- The brace at the end of a row of pieces whose openers are all closed belongs to a text. -/
theorem exists_text_of_getLast? (hrow : Row ps) (hterm : Terminated ps)
    (hlast : (writtenAll ps).getLast? = some '{') :
    ∃ qs s, ps = qs ++ [text (s ++ ['{'])] := by
  rcases List.eq_nil_or_concat ps with rfl | ⟨qs, p, rfl⟩
  · cases hlast
  rw [List.concat_eq_append] at hrow hterm hlast ⊢
  have hp : p.Proper := (row_of_row_append hrow).1
  rw [writtenAll_append, writtenAll_cons, writtenAll_nil, List.append_nil,
    List.getLast?_append_of_ne_nil _ (written_ne_nil hp)] at hlast
  cases p with
  | text s =>
      obtain ⟨t, rfl⟩ := List.getLast?_eq_some_iff.mp hlast
      exact ⟨qs, t, rfl⟩
  | closed d inner => cases d <;> simp [written, Delimiter.closer] at hlast
  | unterminated d tail =>
      exact absurd (List.mem_append_right qs (List.mem_singleton.mpr rfl)) (hterm d tail)

/-- The brace at the end of a text may be given to what stands behind the text. -/
theorem exists_row_before_brace (hrow : Row (ps ++ [text (s ++ ['{'])])) (hterm : Terminated ps)
    (hqs : Row qs) (hopen : (Delimiter.ofOpener? (writtenAll qs)).isSome = true) :
    ∃ rs, Row (rs ++ qs) ∧ writtenAll rs = writtenAll ps ++ s := by
  by_cases hs : s = []
  · refine ⟨ps, row_append_of_text hrow hterm hqs, ?_⟩
    rw [hs, List.append_nil]
  · have hproper : (text (s ++ ['{'])).Proper := (row_of_row_append hrow).1
    have hshort : (text s).Proper :=
      ⟨hs, fun d hin => hproper.2 d (hin.trans (List.prefix_append s ['{']).isInfix)⟩
    have hbefore : (text s).Before (writtenAll qs) := by
      -- two braces at the end of the text would be an opener inside it
      refine Or.inr ⟨hopen, fun hlast => hproper.2 .var ?_⟩
      obtain ⟨t, rfl⟩ := List.getLast?_eq_some_iff.mp hlast
      exact ⟨t, [], by simp [Delimiter.opener]⟩
    have hjoined : Row (ps ++ text s :: qs) :=
      row_append_of_text hrow hterm ⟨hshort, hbefore, hqs⟩
    refine ⟨ps ++ [text s], by rwa [List.append_assoc], ?_⟩
    rw [writtenAll_append, writtenAll_cons, writtenAll_nil, List.append_nil, written]

theorem constructs_append (offset : Nat) (ps qs : List Piece) :
    constructs offset (ps ++ qs) =
      constructs offset ps ++ constructs (offset + byteSize (writtenAll ps)) qs := by
  induction ps generalizing offset with
  | nil => rfl
  | cons p ps ih =>
      rw [List.cons_append, constructs, ih, constructs, writtenAll_cons, byteSize_append,
        Nat.add_assoc, List.cons_append]

theorem eq_text_of_construct {p : Piece} (h : p.construct offset = .segment (.text s start)) :
    p = text s :=
  eq_text_of_segment? (segment?_of_construct h)

end Piece

/-- Two texts that meet at the seam are one. -/
theorem scan_append_of_texts {s u : List Char} {start : Nat}
    (ha : scan a = .ok (front ++ [.text s start])) (hend : start + byteSize s = byteSize a)
    (hb : scan b = .ok (.text u 0 :: rest)) (hseam : Seam a b) :
    scan (a ++ b) = .ok
      (front ++ .text (s ++ u) start :: rest.map (Segment.relocate (· + byteSize a))) := by
  rw [scan_eq_segments_pieces] at ha hb ⊢
  obtain ⟨ps, hps, hfront, hstart⟩ := exists_text_of_segments_end (row_pieces a) ha
    (by rw [writtenAll_pieces, Nat.zero_add, hend])
  obtain ⟨qs, hqs, hrest⟩ := exists_text_of_segments_start (row_pieces b) hb
  have hmoved : segments (byteSize u + byteSize a) qs =
      .ok (rest.map (Segment.relocate (· + byteSize a))) := by
    calc segments (byteSize u + byteSize a) qs
        = (relocate (· + byteSize a) (segments (byteSize u) qs)).map
            (List.map (Segment.relocate (· + byteSize a))) :=
          segments_relocate (f := (· + byteSize a)) (fun _ _ => rfl) qs
      _ = .ok (rest.map (Segment.relocate (· + byteSize a))) := by
          rw [Nat.zero_add] at hrest
          rw [hrest]
          rfl
  have hplace : start + byteSize (s ++ u) = byteSize u + byteSize a := by
    rw [byteSize_append, ← Nat.add_assoc, hend, Nat.add_comm]
  rw [pieces_append_of_texts (terminated_of_segments ha) hseam hps hqs, segments_append hfront,
    hstart, segments_text_cons, hplace, hmoved]
  rfl

/-- Where no two texts meet at the seam, the segments are put one behind the other. -/
theorem scan_append_of_apart (ha : scan a = .ok front) (hb : scan b = .ok back)
    (hapart : ∀ init s start, front = init ++ [.text s start] → start + byteSize s = byteSize a →
      ∀ u rest, back ≠ .text u 0 :: rest) (hseam : Seam a b) :
    scan (a ++ b) = .ok (front ++ back.map (Segment.relocate (· + byteSize a))) := by
  rw [scan_eq_segments_pieces] at ha hb ⊢
  have hpieces : pieces (a ++ b) = pieces a ++ pieces b := by
    refine pieces_append_of_apart (terminated_of_segments ha) hseam fun s u hs hu => ?_
    obtain ⟨ps, hps⟩ := List.getLast?_eq_some_iff.mp hs
    obtain ⟨qs, hqs⟩ := List.head?_eq_some_iff.mp hu
    have hsize := congrArg byteSize (writtenAll_pieces a)
    rw [hps, writtenAll_append, writtenAll_cons, writtenAll_nil, List.append_nil,
      byteSize_append] at hsize
    rw [hps] at ha
    obtain ⟨init, last, hinit, hlast, rfl⟩ := segments_append_eq_ok_iff.mp ha
    cases hlast
    rw [hqs] at hb
    obtain ⟨_, tail, _, rfl⟩ := segments_cons_eq_ok_iff.mp hb
    exact hapart init s _ rfl ((Nat.zero_add _).symm ▸ hsize) u tail rfl
  rw [hpieces, segments_append ha, writtenAll_pieces, Nat.zero_add, segments_shift, hb]
  rfl

/-- An opener across the seam begins a construct where the first source has its last brace. -/
theorem exists_construct_of_straddled (ha : scan a = .ok front) (h : Straddled a b) :
    ∃ cs c, Construct.ofSource? (a ++ b) = some cs ∧ c ∈ cs ∧ c.offset + 1 = byteSize a ∧
      ∀ s start, c ≠ .segment (.text s start) := by
  rw [scan_eq_segments_pieces] at ha
  have hterm := terminated_of_segments ha
  have hrow := row_pieces a
  have hopen := isSome_ofOpener?_of_straddled h
  obtain ⟨ps, s, hps⟩ := exists_text_of_getLast? hrow hterm
    (by rw [writtenAll_pieces]; exact h.1)
  have hwritten := writtenAll_pieces a
  rw [hps] at hrow hterm hwritten
  have hpsterm : Terminated ps := fun d tail hmem => hterm d tail (List.mem_append_left _ hmem)
  obtain ⟨rs, hrs, hfront⟩ := exists_row_before_brace hrow hpsterm (row_pieces ('{' :: b))
    (by rwa [writtenAll_pieces])
  have hsplit : a = writtenAll rs ++ ['{'] := by
    rw [← hwritten, hfront, writtenAll_append, writtenAll_cons, writtenAll_nil, written,
      List.append_nil, List.append_assoc]
  have hpieces : pieces (a ++ b) = rs ++ pieces ('{' :: b) := by
    apply pieces_eq_of_row hrs
    rw [writtenAll_append, writtenAll_pieces, hsplit, List.append_assoc]
    rfl
  cases hq : pieces ('{' :: b) with
  | nil =>
      have hnil := writtenAll_pieces ('{' :: b)
      rw [hq] at hnil
      cases hnil
  | cons q qs =>
      refine ⟨_, q.construct (0 + byteSize (writtenAll rs)), ofSource?_eq_pieces (a ++ b), ?_, ?_,
        fun u start htext => ?_⟩
      · rw [hpieces, hq, constructs_append]
        exact List.mem_append_right _ (List.mem_cons_self ..)
      · rw [offset_construct, Nat.zero_add, hsplit, byteSize_append]
        rfl
      · obtain rfl := eq_text_of_construct htext
        have hqrow := row_pieces ('{' :: b)
        rw [hq] at hqrow
        have hnone := ofOpener?_text hqrow.1 hqrow.2.1
        rw [← written.eq_1 u, ← writtenAll_cons, ← hq, writtenAll_pieces] at hnone
        rw [hnone] at hopen
        cases hopen

/-- Behind a source that is scanned, another one is scanned as it is alone: it fails at the same
delimiter, moved by the first source, or its segments follow, moved in the same way, and only two
texts that meet at the seam are one. The exception is an opener across the seam, which begins a
construct at the last brace of the first source. -/
theorem scan_append_of_scan (ha : scan a = .ok front) :
    (¬ Straddled a b →
      (∀ e, scan b = .error e → ∃ d o, e = .unterminatedDelimiter d o ∧
        scan (a ++ b) = .error (.unterminatedDelimiter d (o + byteSize a))) ∧
      ∀ back, scan b = .ok back →
        (∀ init s start u rest, front = init ++ [.text s start] →
          start + byteSize s = byteSize a → back = .text u 0 :: rest →
            scan (a ++ b) = .ok
              (init ++ .text (s ++ u) start :: rest.map (Segment.relocate (· + byteSize a)))) ∧
        ((∀ init s start, front = init ++ [.text s start] → start + byteSize s = byteSize a →
          ∀ u rest, back ≠ .text u 0 :: rest) →
            scan (a ++ b) = .ok (front ++ back.map (Segment.relocate (· + byteSize a))))) ∧
    (Straddled a b → ∃ cs c, Construct.ofSource? (a ++ b) = some cs ∧ c ∈ cs ∧
      c.offset + 1 = byteSize a ∧ ∀ s start, c ≠ .segment (.text s start)) := by
  refine ⟨fun hnot => ?_, exists_construct_of_straddled ha⟩
  have hseam : Seam a b := seam_of_not_opener hnot
  refine ⟨fun e he => ?_, fun back hb => ⟨?_, fun hapart => ?_⟩⟩
  · obtain ⟨_, d, _, _, _, rfl⟩ := exists_opener_of_scan_error he
    refine ⟨d, _, rfl, (scan_append ha hseam).1 _ ?_⟩
    rw [segments_shift, ← scan_eq_segments_pieces, he]
    rfl
  · rintro init s start u rest rfl hend rfl
    exact scan_append_of_texts ha hend hb hseam
  · exact scan_append_of_apart ha hb hapart hseam

/-- A text behind a variable meets a text, a brace at the end meets a percent sign. -/
theorem scan_append_to_braces :
    scan (['{', '{', 'v', '}', '}', 'é'] ++ ['x', '{', '#', '#', '}']) =
        .ok [.var ['v'] false 0, .text ['é', 'x'] 5] ∧
      ∃ cs c, Construct.ofSource? (['é', '{'] ++ ['%', 't']) = some cs ∧ c ∈ cs ∧
        c.offset = 2 ∧ ∀ s start, c ≠ .segment (.text s start) := by
  have hvar : scan ['{', '{', 'v', '}', '}', 'é'] =
      .ok ([.var ['v'] false 0] ++ [.text ['é'] 5]) := by rfl
  have htext : scan ['x', '{', '#', '#', '}'] = .ok [.text ['x'] 0] := by rfl
  have hbrace : scan ['é', '{'] = .ok [.text ['é', '{'] 0] := by rfl
  have hapart : ¬ Straddled ['{', '{', 'v', '}', '}', 'é'] ['x', '{', '#', '#', '}'] := by
    simp [Straddled]
  have hmeet : Straddled ['é', '{'] ['%', 't'] := by simp [Straddled]
  obtain ⟨hgoes, -⟩ := scan_append_of_scan (b := ['x', '{', '#', '#', '}']) hvar
  obtain ⟨-, hstraddles⟩ := scan_append_of_scan (b := ['%', 't']) hbrace
  obtain ⟨cs, c, hcs, hmem, hoffset, hc⟩ := hstraddles hmeet
  have hsize : byteSize ['é', '{'] = 3 := by decide
  exact ⟨((hgoes hapart).2 _ htext).1 _ _ _ _ _ rfl (by decide) rfl,
    cs, c, hcs, hmem, by omega, hc⟩

end TemplateMarkup
