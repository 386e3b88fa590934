import TemplateMarkup.Proofs.Composition.Displacement
import TemplateMarkup.Proofs.Composition.Joints
import TemplateMarkup.Proofs.Failure.Places
import TemplateMarkup.Proofs.RoundTrip.Retokenizing

/-! # Comments

A comment may be put anywhere into a source behind a part that is scanned on its
own. It changes nothing but the offsets behind it: the tokens stay the same up
to texts that it keeps apart, and so does an error up to its offset.
-/

namespace TemplateMarkup

open Text Outcome Piece Token

variable {segments : List Segment} {t : Tokenizer} {e : TemplateError} {a b c : List Char}

/-- A comment with its delimiters. -/
def comment (c : List Char) : List Char :=
  Delimiter.comment.opener ++ c ++ Delimiter.comment.closer

theorem proper_comment (h : ¬ Delimiter.comment.closer <:+: c) :
    (closed .comment c).Proper :=
  proper_closed h nofun

/-- Behind a comment a scan goes on as it would in place of the comment. -/
theorem scan_append_comment (ha : scan a = .ok segments) (hlast : a.getLast? ≠ some '{')
    (hcloser : ¬ Delimiter.comment.closer <:+: c) :
    scan (a ++ comment c ++ b) =
      ((relocate (makeRoom (byteSize a) (byteSize (comment c)))
        (Piece.segments (byteSize a) (pieces b))).map (List.map
          (Segment.relocate (makeRoom (byteSize a) (byteSize (comment c)))))).map
            (segments ++ ·) := by
  rw [scan_eq_segments_pieces] at ha ⊢
  have hpieces : pieces (a ++ comment c ++ b) = pieces a ++ closed .comment c :: pieces b := by
    rw [List.append_assoc]
    exact pieces_append_closed (terminated_of_segments ha) hlast (proper_comment hcloser)
  have hskip : Piece.segments (byteSize a) (closed .comment c :: pieces b) =
      Piece.segments (byteSize a + byteSize (comment c)) (pieces b) := by
    rw [segments_cons fun _ _ => Piece.noConfusion, written]
    change (Piece.segments (byteSize a + byteSize (comment c)) (pieces b)).map _ = _
    cases Piece.segments (byteSize a + byteSize (comment c)) (pieces b) <;> rfl
  rw [hpieces, segments_append ha, writtenAll_pieces, Nat.zero_add, hskip,
    ← segments_relocate fun o ho => makeRoom_of_le ho, makeRoom_of_le (Nat.le_refl _)]

namespace Tokenizer

theorem offset_lt_of_followAll_error (hscan : scan a = .ok segments)
    (h : t.followAll [] segments = .error e) : e.offset < byteSize a := by
  have hverdict : t.verdict segments = .error e := by
    rw [verdict, h]
    rfl
  have hfail : t.tokenize a = .error e :=
    tokenize_eq_error_iff.mpr ((forest_eq_error_iff_verdict hscan).mpr hverdict)
  obtain ⟨before, ch, after, rfl, hoffset⟩ := (pointsInto_of_error hfail).exists_char
  have hpos := ch.utf8Size_pos
  rw [byteSize_append, byteSize_cons, ← hoffset]
  omega

/-- Sources whose segments are read as the same items up to merging have the same tokens up to
merging. -/
theorem exists_tokens_of_verdicts {source other : List Char} {others : List Segment}
    (hscan : scan source = .ok segments) (hother : scan other = .ok others)
    (hverdict : t.verdict segments = .ok ()) (hverdict' : t.verdict others = .ok ())
    (hread : ∀ items, others.map (Item.ofSegment t.registry) = items.map .ok →
      ∃ found, segments.map (Item.ofSegment t.registry) = found.map .ok ∧
        Item.mergeRow found = Item.mergeRow items) :
    ∃ ts us, t.tokenize source = .ok ts ∧ t.tokenize other = .ok us ∧ mergeAll ts = mergeAll us := by
  obtain ⟨ts, hts, htsfits, htsread⟩ := exists_forest_of_verdict hscan hverdict
  obtain ⟨us, hus, husfits, husread⟩ := exists_forest_of_verdict hother hverdict'
  obtain ⟨found, hfound, hmerge⟩ := hread (itemsAll us) husread
  rw [hfound] at htsread
  obtain rfl := eq_of_map_ok htsread
  have hsame := mergeAll_eq_of_mergeRow_eq htsfits husfits hmerge
  refine ⟨clearBlank ts, clearBlank us, tokenize_eq_ok_iff.mpr ⟨ts, hts, rfl⟩,
    tokenize_eq_ok_iff.mpr ⟨us, hus, rfl⟩, ?_⟩
  rw [← clearBlank_mergeAll, ← clearBlank_mergeAll, hsame]

/-- Putting a comment behind a source that is scanned on its own changes nothing about what is
tokenized, whatever follows: the tokens are the same when texts that follow one another are
joined, and an error is the same, at a place that the comment has moved if it stood before it. -/
theorem tokenize_append_comment (t : Tokenizer) (b : List Char) (hscan : scan a = .ok segments)
    (hlast : a.getLast? ≠ some '{') (hcloser : ¬ Delimiter.comment.closer <:+: c) :
    (∃ ts us, t.tokenize (a ++ comment c ++ b) = .ok ts ∧ t.tokenize (a ++ b) = .ok us ∧
      mergeAll ts = mergeAll us) ∨
      ∃ e, t.tokenize (a ++ b) = .error e ∧ t.tokenize (a ++ comment c ++ b) =
        .error (e.relocate (makeRoom (byteSize a) (byteSize (comment c)))) := by
  have hcomment := scan_append_comment (b := b) hscan hlast hcloser
  obtain ⟨hfail, hgoes⟩ := scan_append hscan (seam_of_getLast? (b := b) hlast)
  cases hback : Piece.segments (byteSize a) (pieces b) with
  | error e =>
      rw [hback] at hcomment
      exact Or.inr ⟨e, tokenize_of_scan_error (hfail e hback), tokenize_of_scan_error hcomment⟩
  | ok back =>
      rw [hback] at hcomment
      obtain ⟨joined, hjoined, hjoin⟩ := hgoes back hback
      have hle : ∀ s ∈ back, byteSize a ≤ s.offset := by
        intro s hs
        obtain ⟨front, rest, _, hoffset⟩ := place_of_mem_segments hback s hs
        omega
      -- texts that are put together at the joint are followed as if they were apart
      have hmoved := verdict_relocate (t := t) (k := byteSize (comment c))
        (offset_lt_of_mem_scan hscan) (fun e => offset_lt_of_followAll_error hscan) hle
      rw [verdict_congr hjoin.filter_eq] at hmoved
      cases hverdict : t.verdict joined with
      | error e =>
          rw [hverdict] at hmoved
          exact Or.inr ⟨e, tokenize_of_verdict_error hjoined hverdict,
            tokenize_of_verdict_error hcomment hmoved⟩
      | ok =>
          rw [hverdict] at hmoved
          refine Or.inl (exists_tokens_of_verdicts hcomment hjoined hmoved hverdict
            fun items hitems => ?_)
          obtain ⟨found, hfound, hmerge⟩ := hjoin.exists_items hitems
          exact ⟨found, map_ofSegment_append_relocate
            (fun s hs o ho => makeRoom_of_le ((hle s hs).trans ho)) hfound, hmerge⟩

/-- A comment with an opener and a mark in it, in a block that is not closed by what follows. -/
theorem tokenize_append_comment_in_open_block :
    (⟨.ofList [(['i', 'f'], .block)], 1⟩ : Tokenizer).tokenize
        (displayWords [['i', 'f']] ++ comment ['{', '{', '\''] ++ displayWords [closerName ['o']]) =
      .error (.unbalancedClose ['o'] (some ['i', 'f']) 15) := by
  have hscan : scan (displayWords [['i', 'f']]) = .ok [.tag [' ', 'i', 'f', ' '] 0] := by rfl
  have hfail : (⟨.ofList [(['i', 'f'], .block)], 1⟩ : Tokenizer).tokenize
      (displayWords [['i', 'f']] ++ displayWords [closerName ['o']]) =
      .error (.unbalancedClose ['o'] (some ['i', 'f']) 8) := by rfl
  rcases tokenize_append_comment ⟨.ofList [(['i', 'f'], .block)], 1⟩ (displayWords [closerName ['o']])
    hscan (by decide) (by decide : ¬ Delimiter.comment.closer <:+: ['{', '{', '\'']) with
    ⟨_, _, _, hok, _⟩ | ⟨e, he, hmoved⟩
  · rw [hfail] at hok
    cases hok
  · rw [hfail] at he
    cases he
    exact hmoved

end Tokenizer

end TemplateMarkup
