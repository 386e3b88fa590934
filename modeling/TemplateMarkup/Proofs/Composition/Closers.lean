import Mathlib.Logic.Function.Iterate
import TemplateMarkup.Proofs.Composition.Bodies
import TemplateMarkup.Proofs.Events.Trace
import TemplateMarkup.Proofs.Failure.Diagnosis

/-! # Closing what is reported

A block that is reported as not closed is closed by its closing tag at the end
of the source. What is then reported is the block around it, which begins
further to the front. Each report that is followed closes one block, so that
as many are followed as blocks are open at the end.
-/

namespace TemplateMarkup.Tokenizer

open Text Outcome Piece

variable {t : Tokenizer} {source name : List Char} {segments : List Segment} {offset : Nat}
  {block : Nat × List Char} {opens closed : List (Nat × List Char)}

/-- Whether a source is read to its end and leaves a row of blocks open, outermost first. -/
structure Leaves (t : Tokenizer) (source : List Char) (segments : List Segment)
    (opens : List (Nat × List Char)) : Prop where
  scanned : scan source = .ok segments
  followed : t.followAll [] segments = .ok opens

/-- Append the closing tag of the block that is reported as not closed, if one is. -/
def closeReported (t : Tokenizer) (source : List Char) : List Char :=
  match t.tokenize source with
  | .error (.missingClose name _) => source ++ displayWords [closerName name]
  | _ => source

theorem Leaves.exists_reaches (h : t.Leaves source segments opens) :
    ∃ items n, t.Reaches segments items n ∧ n.opened = opens := by
  have hfollow : (t.nest .empty segments).map Nesting.opened = .ok opens :=
    (map_opened_nest t .empty segments).trans h.followed
  obtain ⟨n, hnest, hopened⟩ := map_eq_ok_iff.mp hfollow
  obtain ⟨items, hreaches⟩ := nest_empty_eq_ok_iff.mp hnest
  exact ⟨items, n, hreaches, hopened⟩

theorem Leaves.openAfter (h : t.Leaves source segments opens) :
    OpenAfter t.registry segments opens := by
  obtain ⟨items, n, hreaches, rfl⟩ := h.exists_reaches
  exact hreaches.openAfter (pairwise_offset_of_scan h.scanned)

/-- The name of an open block can be written as a word of a tag, and it is registered. -/
theorem Leaves.cleanWord_and_block (h : t.Leaves source segments opens) (hmem : block ∈ opens) :
    Item.CleanWord block.2 ∧ t.registry.get? block.2 = some .block := by
  obtain ⟨items, n, hreaches, rfl⟩ := h.exists_reaches
  obtain ⟨interior, args, htag, hwords, hblock⟩ := hreaches.exists_tag_of_opened hmem
  obtain ⟨hword, hin⟩ := word_of_tagWords hwords block.2 (List.mem_cons_self ..)
  have hproper := proper_of_mem_scan h.scanned _ htag
  exact ⟨⟨hword, fun hcloser => not_closer_inside hproper (hcloser.trans hin)⟩, hblock⟩

theorem Leaves.verdict_eq (h : t.Leaves source segments opens) :
    t.verdict segments = closeAll opens := by
  rw [verdict, h.followed]
  rfl

theorem Leaves.exists_tokenize (h : t.Leaves source segments []) :
    ∃ ts, t.tokenize source = .ok ts := by
  obtain ⟨ts, hforest, _⟩ := exists_forest_of_verdict h.scanned h.verdict_eq
  exact ⟨_, tokenize_eq_ok_iff.mpr ⟨ts, hforest, rfl⟩⟩

/-- The innermost of the open blocks is the one that is reported. -/
theorem Leaves.tokenize_eq_error (h : t.Leaves source segments (opens ++ [block])) :
    t.tokenize source = .error (.missingClose block.2 block.1) := by
  apply tokenize_of_verdict_error h.scanned
  rw [h.verdict_eq, closeAll, List.getLast?_concat]

theorem exists_leaves_of_missingClose
    (h : t.tokenize source = .error (.missingClose name offset)) :
    ∃ segments opens, t.Leaves source segments (opens ++ [(offset, name)]) := by
  obtain ⟨segments, n, hscan, hnest, hfinish⟩ := exists_nest_of_missingClose h
  have hfollow : t.followAll [] segments = .ok n.opened := by
    calc t.followAll [] segments
        = (t.nest .empty segments).map Nesting.opened := (map_opened_nest t .empty segments).symm
      _ = .ok n.opened := by rw [hnest]; rfl
  obtain ⟨start, found, hlast, herror⟩ := Nesting.finish_eq_error_iff.mp hfinish
  cases herror
  obtain ⟨opens, hopens⟩ := List.getLast?_eq_some_iff.mp hlast
  exact ⟨segments, opens, hscan, hopens ▸ hfollow⟩

/-- A closing tag at the end of a source is a segment of its own, unless the source ends with a
brace. -/
theorem scan_append_closer (hscan : scan source = .ok segments) (hname : Item.CleanWord name)
    (hlast : source.getLast? ≠ some '{') :
    scan (source ++ displayWords [closerName name]) =
      .ok (segments ++ [.tag (wordsInterior [closerName name]) (byteSize source)]) := by
  rw [scan_eq_segments_pieces] at hscan
  have hpieces : pieces (source ++ (displayWords [closerName name] ++ [])) =
      pieces source ++ [(Item.closing name).piece] := by
    rw [displayWords_eq, ← pieces_nil]
    exact pieces_append_closed (terminated_of_segments hscan) hlast (proper_closing hname)
  rw [List.append_nil] at hpieces
  rw [scan_eq_segments_pieces, hpieces, segments_append hscan, writtenAll_pieces, Nat.zero_add]
  rfl

/-- The closing tag of the innermost open block closes that block and no other. -/
theorem Leaves.append_closer (h : t.Leaves source segments (opens ++ [block]))
    (hlast : source.getLast? ≠ some '{') (hfree : t.registry.get? (closerName block.2) = none) :
    ∃ others, t.Leaves (source ++ displayWords [closerName block.2]) others opens := by
  obtain ⟨hname, hblock⟩ := h.cleanWord_and_block (List.mem_append_right _ (List.mem_cons_self ..))
  have hclean : (Item.closing block.2).Clean t.registry := ⟨hname, hfree⟩
  obtain ⟨seg, hseg, hread⟩ := Item.exists_segment hclean hblock (byteSize source)
  cases hseg
  refine ⟨_, scan_append_closer h.scanned hname hlast, ?_⟩
  have hfollow : t.follow (opens ++ [block])
      (.tag (wordsInterior [closerName block.2]) (byteSize source)) = .ok opens := by
    rw [follow, hread]
    change Item.track t.maxDepth (opens ++ [block]) _ (.closing block.2) = .ok opens
    rw [Item.track, List.getLast?_concat, Option.map_some, if_pos rfl, List.dropLast_concat]
  rw [followAll_append, h.followed]
  change t.followAll (opens ++ [block]) [_] = .ok opens
  rw [followAll_cons, hfollow]
  rfl

theorem getLast?_append_displayWords (source : List Char) (words : List (List Char)) :
    (source ++ displayWords words).getLast? ≠ some '{' := by
  have hlast : (source ++ displayWords words).getLast? = some '}' := by
    simp [displayWords, Delimiter.closer]
  rw [hlast]
  decide

/-- Each report that is followed closes the innermost block that is still open. -/
theorem Leaves.iterate_closeReported (h : t.Leaves source segments (opens ++ closed))
    (hlast : source.getLast? ≠ some '{')
    (hfree : ∀ block ∈ closed, t.registry.get? (closerName block.2) = none) :
    ∃ others, t.Leaves (t.closeReported^[closed.length] source) others opens := by
  -- the blocks are closed from the last to the first
  induction closed using List.reverseRecOn generalizing source segments with
  | nil =>
      rw [List.append_nil] at h
      exact ⟨segments, h⟩
  | append_singleton closed block ih =>
      rw [← List.append_assoc] at h
      obtain ⟨hrest, hblock⟩ := List.forall_mem_append.mp hfree
      obtain ⟨others, hothers⟩ := h.append_closer hlast (hblock block (List.mem_cons_self ..))
      have hstep : t.closeReported source = source ++ displayWords [closerName block.2] := by
        rw [closeReported, h.tokenize_eq_error]
      rw [List.length_append, List.length_singleton, Function.iterate_succ_apply, hstep]
      exact ih hothers (getLast?_append_displayWords source _) hrest

/-- A source that fails since a block is not closed is repaired one block at a time. With the
closing tag of the reported block at its end it is tokenized, or a block further to the front is
reported. As long as the closing tags are not registered themselves, following the reports names
the open blocks from the innermost to the outermost, and ends after as many steps as there are
blocks. -/
theorem tokenize_append_closer (h : t.tokenize source = .error (.missingClose name offset))
    (hlast : source.getLast? ≠ some '{') :
    (t.registry.get? (closerName name) = none →
      (∃ ts, t.tokenize (source ++ displayWords [closerName name]) = .ok ts) ∨
        ∃ other place, t.tokenize (source ++ displayWords [closerName name]) =
          .error (.missingClose other place) ∧ place < offset) ∧
      ∃ segments opens, scan source = .ok segments ∧ OpenAfter t.registry segments opens ∧
        opens.getLast? = some (offset, name) ∧
        ((∀ block ∈ opens, t.registry.get? (closerName block.2) = none) →
          (∀ front block back, opens = front ++ block :: back →
            t.tokenize (t.closeReported^[back.length] source) =
              .error (.missingClose block.2 block.1)) ∧
          ∃ ts, t.tokenize (t.closeReported^[opens.length] source) = .ok ts) := by
  obtain ⟨segments, opens, hleaves⟩ := exists_leaves_of_missingClose h
  have hopen := hleaves.openAfter
  refine ⟨fun hfree => ?_, segments, opens ++ [(offset, name)], hleaves.scanned, hopen,
    List.getLast?_concat, fun hfree => ⟨fun front block back hsplit => ?_, ?_⟩⟩
  · obtain ⟨others, hothers⟩ := hleaves.append_closer hlast hfree
    rcases List.eq_nil_or_concat opens with rfl | ⟨rest, block, rfl⟩
    · exact Or.inl hothers.exists_tokenize
    · rw [List.concat_eq_append] at hothers hopen
      obtain ⟨_, _, hbefore⟩ := List.pairwise_append.mp hopen.ordered
      exact Or.inr ⟨block.2, block.1, hothers.tokenize_eq_error, hbefore block
        (List.mem_append_right _ (List.mem_cons_self ..)) _ (List.mem_cons_self ..)⟩
  · rw [hsplit, List.append_cons] at hleaves
    rw [hsplit] at hfree
    obtain ⟨others, hothers⟩ := hleaves.iterate_closeReported hlast fun b hb =>
      hfree b (List.mem_append_right _ (List.mem_cons_of_mem block hb))
    exact hothers.tokenize_eq_error
  · have hall : t.Leaves source segments ([] ++ (opens ++ [(offset, name)])) := hleaves
    obtain ⟨others, hothers⟩ := hall.iterate_closeReported hlast hfree
    exact hothers.exists_tokenize

/-- Two blocks are open, the inner one with a name that holds a quote. -/
theorem tokenize_append_closer_nested :
    ∃ other place, (⟨.ofList [(['a'], .block), (['"', ' ', '"'], .block)], 2⟩ : Tokenizer).tokenize
        ((displayWords [['a']] ++ displayWords [['"', ' ', '"']]) ++
          displayWords [closerName ['"', ' ', '"']]) = .error (.missingClose other place) ∧
      place < 7 := by
  have hfail : (⟨.ofList [(['a'], .block), (['"', ' ', '"'], .block)], 2⟩ : Tokenizer).tokenize
      (displayWords [['a']] ++ displayWords [['"', ' ', '"']]) =
        .error (.missingClose ['"', ' ', '"'] 7) := by rfl
  have hstill : (⟨.ofList [(['a'], .block), (['"', ' ', '"'], .block)], 2⟩ : Tokenizer).tokenize
      ((displayWords [['a']] ++ displayWords [['"', ' ', '"']]) ++
        displayWords [closerName ['"', ' ', '"']]) = .error (.missingClose ['a'] 0) := by rfl
  obtain ⟨hcloser, -⟩ := tokenize_append_closer hfail (by decide)
  rcases hcloser (by rfl) with ⟨ts, hts⟩ | hless
  · rw [hstill] at hts
    cases hts
  · exact hless

end TemplateMarkup.Tokenizer
