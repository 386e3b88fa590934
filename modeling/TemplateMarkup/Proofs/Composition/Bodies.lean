import TemplateMarkup.Proofs.Composition.Reading
import TemplateMarkup.Proofs.Failure.Causes
import TemplateMarkup.Proofs.Forest.Enclosure
import TemplateMarkup.Proofs.Interior.OpenQuotes
import TemplateMarkup.Proofs.RoundTrip.Pieces

/-! # Bodies

A source may be put between the opening and the closing of a block. What is read
from it there is what is read from it alone, under a limit that is lower by one,
with the block around it. Conversely nothing that would close the block too
early, or swallow its closing, is read as one block.
-/

namespace TemplateMarkup

open Text Outcome Piece Token

/-- A source with the opening of a block before it and the closing of the block behind it. -/
def enclosedSource (name source : List Char) : List Char :=
  displayWords [name] ++ source ++ displayWords [closerName name]

variable {registry : Registry} {name source : List Char} {items : List Item} {ts : List Token}
  {offset : Nat}

/-- The interior of a tag of one word is the word with gaps around it. -/
theorem exists_gaps_of_tagWords_singleton {interior w : List Char}
    (h : tagWords interior offset = .ok [w]) :
    ∃ g g', interior = g ++ w ++ g' ∧ (∀ c ∈ g, isGap c = true) ∧ (∀ c ∈ g', isGap c = true) := by
  obtain ⟨g, s, rfl, hg, hs⟩ := tagWords_eq_ok_iff_spaced.mp h
  obtain ⟨g', rfl, hg'⟩ := hs.singleton
  exact ⟨g, g', (List.append_assoc g w g').symm, hg, hg'⟩

/-- Where a tag of one word ends a source, and so does the tag of this word with single spaces,
they are the same tag. -/
theorem eq_of_append_displayWords {front rest interior w : List Char} (hw : Word w)
    (h : tagWords interior offset = .ok [w])
    (heq : front ++ (closed .tag interior).written = rest ++ displayWords [w]) : front = rest := by
  obtain ⟨g, g', rfl, hg, hg'⟩ := exists_gaps_of_tagWords_singleton h
  have hspace : ∀ c ∈ [' '], isGap c = true := List.forall_mem_singleton.mpr rfl
  have hends : front ++ Delimiter.tag.opener ++ g ++ w ++ g' =
      rest ++ Delimiter.tag.opener ++ [' '] ++ w ++ [' '] := by
    have hclosers : front ++ Delimiter.tag.opener ++ g ++ w ++ g' ++ Delimiter.tag.closer =
        rest ++ Delimiter.tag.opener ++ [' '] ++ w ++ [' '] ++ Delimiter.tag.closer := by
      simpa [displayWords, written] using heq
    exact List.append_cancel_right hclosers
  -- the gaps behind the word agree, and then those before it
  have hword : ∀ u : List Char, (u ++ w).getLast?.any isGap = false := by
    intro u
    rw [List.getLast?_append_of_ne_nil u hw.ne_nil]
    exact hw.last_not_gap
  have hopener : ∀ u : List Char, (u ++ Delimiter.tag.opener).getLast?.any isGap = false := by
    intro u
    have hne : Delimiter.tag.opener ≠ [] := List.cons_ne_nil _ _
    rw [List.getLast?_append_of_ne_nil u hne]
    rfl
  obtain ⟨hfront, _⟩ := eq_of_append_gaps (hword _) (hword _) hg' hspace hends
  obtain ⟨hrest, _⟩ := eq_of_append_gaps (hopener _) (hopener _) hg hspace
    (List.append_cancel_right hfront)
  exact List.append_cancel_right hrest

namespace Piece

/-- A clean item is read from the piece it is written as. -/
theorem reads_piece {item : Item} (h : item.Clean registry) (hknown : item.Known registry) :
    Reads registry [item.piece] [item] := by
  obtain ⟨seg, hseg, hread⟩ := Item.exists_segment h hknown 0
  refine reads_singleton_iff.mpr ⟨?_, by rw [hseg]; exact congrArg (· :: []) hread⟩
  intro d rest hpiece
  rw [hpiece] at hseg
  cases hseg

/-- A piece that is read as the closing of a block is a tag of one word. -/
theorem exists_tag_of_reads_closing {p : Piece} (h : Reads registry [p] [.closing name]) :
    ∃ interior start, p = closed .tag interior ∧
      tagWords interior start = .ok [closerName name] := by
  obtain ⟨_, hread⟩ := reads_singleton_iff.mp h
  cases hseg : p.segment? 0 with
  | none =>
      rw [hseg] at hread
      cases hread
  | some seg =>
      rw [hseg] at hread
      have hitem : Item.ofSegment registry seg = .ok (.closing name) := (List.cons.inj hread).1
      obtain ⟨interior, words, htag, hwords, hclosing⟩ :=
        Item.exists_tag_of_ofSegment hitem (Or.inr ⟨name, rfl⟩)
      obtain ⟨rfl, _⟩ := Item.ofWords_eq_closing_iff.mp hclosing
      rw [htag] at hseg
      exact ⟨interior, seg.offset, eq_tag_of_segment? hseg, hwords⟩

end Piece

/-- A source that ends with a tag does not end with a comment. -/
theorem ne_append_comment {front rest inner words : List Char} :
    front ++ (closed .comment inner).written ≠ rest ++ (closed .tag words).written := by
  intro h
  simp only [written, ← List.append_assoc] at h
  have hclosers := List.append_inj_right' h rfl
  simp [Delimiter.closer] at hclosers

/-- Nothing but the closing tag itself closes a block where the closing tag ends the source. -/
theorem reads_of_reads_closing (hname : Word (closerName name))
    (h : Reads registry (pieces (source ++ displayWords [closerName name]))
      (items ++ [.closing name])) : Reads registry (pieces source) items := by
  have hrow := row_pieces (source ++ displayWords [closerName name])
  have hwritten := writtenAll_pieces (source ++ displayWords [closerName name])
  generalize pieces (source ++ displayWords [closerName name]) = ps at h hrow hwritten
  rcases List.eq_nil_or_concat ps with rfl | ⟨qs, p, rfl⟩
  · simp [displayWords, Delimiter.opener] at hwritten
  rw [List.concat_eq_append] at h hrow hwritten
  rw [writtenAll_append, writtenAll_cons, writtenAll_nil, List.append_nil] at hwritten
  obtain ⟨front, back, hfront, hback, hitems⟩ := reads_append_iff.mp h
  -- the last piece is a comment, which does not end like the tag, or it is read as the closing
  rcases hback.singleton_cases with ⟨inner, rfl, _⟩ | ⟨item, rfl⟩
  · rw [displayWords_eq] at hwritten
    exact absurd hwritten ne_append_comment
  · obtain ⟨rfl, hitem⟩ := List.append_inj' hitems rfl
    obtain rfl := List.cons.inj hitem |>.1
    obtain ⟨interior, start, rfl, hwords⟩ := exists_tag_of_reads_closing hback
    rw [← eq_of_append_displayWords hname hwords hwritten,
      pieces_writtenAll (row_of_append_row hrow)]
    exact hfront

theorem proper_opening (h : Item.CleanWord name) : (Item.opening name []).piece.Proper :=
  Item.proper_words (List.forall_mem_singleton.mpr h)

theorem proper_closing (h : Item.CleanWord name) : (Item.closing name).piece.Proper :=
  Item.proper_words (List.forall_mem_singleton.mpr h.closerName)

theorem exists_of_reads_enclosedSource (hname : Item.CleanWord name)
    (hblock : registry.get? name = some .block)
    (h : Reads registry (pieces (enclosedSource name source)) items) :
    ∃ rest, items = .opening name [] :: rest ∧
      Reads registry (pieces (source ++ displayWords [closerName name])) rest := by
  have hopening : Reads registry [(Item.opening name []).piece] [.opening name []] :=
    reads_piece (List.forall_mem_singleton.mpr hname) hblock
  have hpieces : pieces (enclosedSource name source) = (Item.opening name []).piece ::
      pieces (source ++ displayWords [closerName name]) := by
    rw [enclosedSource, List.append_assoc, displayWords_eq]
    exact pieces_closed_append (proper_opening hname) _
  rw [hpieces] at h
  obtain ⟨front, back, hfront, hback, rfl⟩ := reads_cons_iff.mp h
  obtain rfl := hfront.unique hopening
  exact ⟨back, rfl, hback⟩

/-- Between the tags of a block, a source is read as it is read alone. -/
theorem reads_enclosedSource (hname : Item.CleanWord name)
    (hblock : registry.get? name = some .block) (hfree : registry.get? (closerName name) = none)
    (hlast : source.getLast? ≠ some '{') (h : Reads registry (pieces source) items) :
    Reads registry (pieces (enclosedSource name source))
      (.opening name [] :: (items ++ [.closing name])) := by
  have hpieces : pieces (enclosedSource name source) = (Item.opening name []).piece ::
      (pieces source ++ [(Item.closing name).piece]) := by
    have hclosed : pieces (source ++ (displayWords [closerName name] ++ [])) =
        pieces source ++ (Item.closing name).piece :: pieces [] := by
      rw [displayWords_eq]
      exact pieces_append_closed h.terminated hlast (proper_closing hname)
    rw [enclosedSource, List.append_assoc, displayWords_eq,
      pieces_closed_append (proper_opening hname), ← List.append_nil (displayWords _), hclosed,
      pieces_nil]
    rfl
  rw [hpieces]
  refine reads_cons_iff.mpr ⟨[_], _, reads_piece ?_ hblock, reads_append_iff.mpr ⟨items, [_], h,
    reads_piece ⟨hname, hfree⟩ hblock, rfl⟩, rfl⟩
  exact List.forall_mem_singleton.mpr hname

namespace Tokenizer

variable {maxDepth : Nat}

/-- A source between the tags of a block is one block exactly if it is a forest on its own. -/
theorem forest_enclosedSource_iff (hname : Item.CleanWord name)
    (hblock : registry.get? name = some .block) (hfree : registry.get? (closerName name) = none)
    (hlast : source.getLast? ≠ some '{') {u : Token} :
    (⟨registry, maxDepth + 1⟩ : Tokenizer).forest (enclosedSource name source) = .ok [u] ↔
      ∃ ts, (⟨registry, maxDepth⟩ : Tokenizer).forest source = .ok ts ∧
        u = .block ⟨name, [], .block, []⟩ (withinAll name ts) := by
  simp only [forest_eq_ok_iff_reads]
  constructor
  · rintro ⟨hread, hfits, _⟩
    obtain ⟨rest, hitems, hrest⟩ := exists_of_reads_enclosedSource hname hblock hread
    cases u with
    | text s => cases hitems
    | var v => cases hitems
    | tag t => cases hitems
    | block t body =>
        obtain ⟨foundName, args, kind, ancestors⟩ := t
        obtain ⟨⟨_, rfl, rfl⟩, _, hbody⟩ := hfits
        rw [itemsAll, itemsAll, List.append_nil, items, List.cons_append] at hitems
        obtain ⟨hopening, rfl⟩ := List.cons.inj hitems
        cases hopening
        obtain ⟨ts, rfl⟩ := exists_withinAll body hbody
        rw [itemsAll_withinAll] at hrest
        exact ⟨ts, ⟨reads_of_reads_closing hname.closerName.1 hrest,
          (fitsAll_withinAll_iff ts).mp hbody⟩, rfl⟩
  · rintro ⟨ts, ⟨hread, hfits⟩, rfl⟩
    have hitems : itemsAll [.block ⟨name, [], .block, []⟩ (withinAll name ts)] =
        .opening name [] :: (itemsAll ts ++ [.closing name]) := by
      simp [itemsAll, items, itemsAll_withinAll]
    rw [hitems]
    refine ⟨reads_enclosedSource hname hblock hfree hlast hread, ?_, trivial⟩
    exact ⟨⟨hblock, rfl, rfl⟩, Nat.zero_lt_succ maxDepth, (fitsAll_withinAll_iff ts).mpr hfits⟩

theorem forest_of_tokenize_cons {t : Tokenizer} {u : Token} {us : List Token}
    (h : t.tokenize source = .ok (u :: us)) : t.forest source = .ok (u :: us) := by
  obtain ⟨ts, hforest, hclear⟩ := tokenize_eq_ok_iff.mp h
  unfold clearBlank at hclear
  split at hclear
  · cases hclear
  · rwa [hclear] at hforest

/-- A source between the tags of a block is tokenized as one block exactly if it is tokenized on
its own, with one open block less allowed. The body of the block is then the forest of the source,
blank or not, where every tag names the block before all others around it. -/
theorem tokenize_enclosedSource (hdepth : 1 ≤ maxDepth)
    (hword : tagWords name offset = .ok [name]) (hcloser : ¬ Delimiter.tag.closer <:+: name)
    (hblock : registry.get? name = some .block) (hfree : registry.get? (closerName name) = none)
    (hlast : source.getLast? ≠ some '{') :
    ((∃ u, (⟨registry, maxDepth⟩ : Tokenizer).tokenize (enclosedSource name source) = .ok [u]) ↔
      ∃ us, (⟨registry, maxDepth - 1⟩ : Tokenizer).tokenize source = .ok us) ∧
      ∀ u, (⟨registry, maxDepth⟩ : Tokenizer).tokenize (enclosedSource name source) = .ok [u] →
        ∃ ts, (⟨registry, maxDepth - 1⟩ : Tokenizer).forest source = .ok ts ∧
          u = .block ⟨name, [], .block, []⟩ (withinAll name ts) := by
  have hname : Item.CleanWord name :=
    ⟨(word_of_tagWords hword name (List.mem_singleton.mpr rfl)).1, hcloser⟩
  obtain ⟨d, rfl⟩ := Nat.exists_eq_add_of_le' hdepth
  rw [Nat.add_sub_cancel]
  have hbody : ∀ u, (⟨registry, d + 1⟩ : Tokenizer).tokenize (enclosedSource name source) =
      .ok [u] → ∃ ts, (⟨registry, d⟩ : Tokenizer).forest source = .ok ts ∧
        u = .block ⟨name, [], .block, []⟩ (withinAll name ts) :=
    fun u hu => (forest_enclosedSource_iff hname hblock hfree hlast).mp (forest_of_tokenize_cons hu)
  refine ⟨⟨?_, ?_⟩, hbody⟩
  · rintro ⟨u, hu⟩
    obtain ⟨ts, hforest, _⟩ := hbody u hu
    exact ⟨_, tokenize_eq_ok_iff.mpr ⟨ts, hforest, rfl⟩⟩
  · rintro ⟨us, hus⟩
    obtain ⟨ts, hforest, _⟩ := tokenize_eq_ok_iff.mp hus
    exact ⟨_, tokenize_eq_ok_iff.mpr ⟨_, (forest_enclosedSource_iff hname hblock hfree hlast).mpr
      ⟨ts, hforest, rfl⟩, rfl⟩⟩

/-- A block with an inline tag in it, inside a block of the same name. -/
theorem tokenize_enclosedSource_nested :
    ∃ ts, (⟨.ofList [(['a'], .block), (['i'], .inline)], 1⟩ : Tokenizer).forest
        (enclosedSource ['a'] (displayWords [['i'], ['x']])) = .ok ts ∧
      (⟨.ofList [(['a'], .block), (['i'], .inline)], 2⟩ : Tokenizer).tokenize
          (enclosedSource ['a'] (enclosedSource ['a'] (displayWords [['i'], ['x']]))) =
        .ok [.block ⟨['a'], [], .block, []⟩ (withinAll ['a'] ts)] := by
  have hbody : (⟨.ofList [(['a'], .block), (['i'], .inline)], 1⟩ : Tokenizer).tokenize
      (enclosedSource ['a'] (displayWords [['i'], ['x']])) =
        .ok [.block ⟨['a'], [], .block, []⟩ [.tag ⟨['i'], [['x']], .inline, [['a']]⟩]] := by rfl
  have hword : tagWords ['a'] 0 = .ok [['a']] := by rfl
  obtain ⟨hone, hbodies⟩ := tokenize_enclosedSource (by decide : 1 ≤ 2) hword (by decide)
    (by rfl : (Registry.ofList [(['a'], .block), (['i'], .inline)]).get? ['a'] = some .block)
    (by rfl) (by decide : (enclosedSource ['a'] (displayWords [['i'], ['x']])).getLast? ≠ some '{')
  obtain ⟨u, hu⟩ := hone.mpr ⟨_, hbody⟩
  obtain ⟨ts, hts, rfl⟩ := hbodies u hu
  exact ⟨ts, hts, hu⟩

end Tokenizer

end TemplateMarkup
