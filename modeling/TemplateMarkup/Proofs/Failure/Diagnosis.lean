import Mathlib.Data.List.Sort
import TemplateMarkup.Proofs.Failure.Places

/-! # Diagnosis of a tag

An error that blames a tag is true of the words of the tag and of the blocks
that the segments before it leave open. Which blocks these are is said of the
segments alone, by what their tags open and close.
-/

namespace TemplateMarkup

open Text Outcome

/-- Whether a row of blocks, each an offset and a name, is the blocks that a row of segments
leaves open, in the order in which they are opened. -/
structure OpenAfter (registry : Registry) (segments : List Segment)
    (opens : List (Nat × List Char)) : Prop where
  ordered : opens.Pairwise fun a b => a.1 < b.1
  complete : ∃ items, segments.map (Item.ofSegment registry) = items.map .ok ∧
    ∀ start name, (start, name) ∈ opens ↔
      Item.LeavesOpen (Tokenizer.placedItems segments items) start name

namespace TemplateError

/-- Whether an error blames a tag for its words or for the place it has among the others. -/
def blamesTag : TemplateError → Bool
  | .unknownTag .. | .missingClose .. | .unexpectedClose .. | .unbalancedClose ..
  | .argumentsOnClose .. | .emptyTag .. | .nestingTooDeep .. => true
  | .unterminatedDelimiter .. | .unterminatedQuote .. | .malformedVariable .. | .grammar .. => false

/-- Whether what an error says is true of the interior of a tag, with a row of blocks open before
it. -/
def TrueOfTag (t : Tokenizer) (interior : List Char) (opens : List (Nat × List Char)) :
    TemplateError → Prop
  | .unknownTag name offset =>
      (∃ args, tagWords interior offset = .ok (name :: args)) ∧ t.registry.get? name = none ∧
        ∀ rest, rest ≠ [] → name ≠ closerName rest
  | .argumentsOnClose name offset =>
      (∃ args, args ≠ [] ∧ tagWords interior offset = .ok (closerName name :: args)) ∧
        t.registry.get? (closerName name) = none
  | .unexpectedClose name offset =>
      tagWords interior offset = .ok [closerName name] ∧
        t.registry.get? (closerName name) = none ∧ t.registry.get? name = some .inline
  | .unbalancedClose name expected offset =>
      tagWords interior offset = .ok [closerName name] ∧
        t.registry.get? (closerName name) = none ∧ t.registry.get? name ≠ some .inline ∧
          expected = opens.getLast?.map Prod.snd ∧ (expected = none ↔ opens = []) ∧
            expected ≠ some name
  | .nestingTooDeep name maxDepth offset =>
      (∃ args, tagWords interior offset = .ok (name :: args)) ∧ maxDepth = t.maxDepth ∧
        t.registry.get? name = some .block ∧ opens.length = t.maxDepth
  | .emptyTag _ => ∀ c ∈ interior, isGap c = true
  | _ => False

/-- Whether what an error says is true of a source. A block that is never closed is the innermost
one of those that the whole source leaves open; any other error blames a tag for what it says and
for the blocks that are open where it stands. -/
def TrueOf (t : Tokenizer) (source : List Char) : TemplateError → Prop
  | .missingClose name offset =>
      ∃ segments opens interior args, scan source = .ok segments ∧
        OpenAfter t.registry segments opens ∧ opens.getLast? = some (offset, name) ∧
          .tag interior offset ∈ segments ∧ tagWords interior offset = .ok (name :: args) ∧
            t.registry.get? name = some .block
  | e =>
      ∃ before interior after opens,
        scan source = .ok (before ++ .tag interior e.offset :: after) ∧
          (∀ s ∈ before, s.offset < e.offset) ∧ (∀ s ∈ after, e.offset < s.offset) ∧
            OpenAfter t.registry before opens ∧ e.TrueOfTag t interior opens

end TemplateError

open TemplateError

/-- A row of segments leaves one row of blocks open. -/
theorem OpenAfter.unique {registry : Registry} {segments : List Segment}
    {opens others : List (Nat × List Char)} (h : OpenAfter registry segments opens)
    (hothers : OpenAfter registry segments others) : opens = others := by
  obtain ⟨items, hread, hopens⟩ := h.complete
  obtain ⟨found, hfound, hopens'⟩ := hothers.complete
  rw [hread] at hfound
  obtain rfl := eq_of_map_ok hfound
  have hirrefl : Std.Irrefl fun a b : Nat × List Char => a.1 < b.1 := ⟨fun a => Nat.lt_irrefl a.1⟩
  have hasymm : Std.Asymm fun a b : Nat × List Char => a.1 < b.1 :=
    ⟨fun _ _ => Nat.lt_asymm⟩
  exact h.ordered.eq_of_mem_iff hothers.ordered fun block =>
    (hopens block.1 block.2).trans (hopens' block.1 block.2).symm

theorem gaps_of_tagWords_nil {interior : List Char} {offset : Nat}
    (h : tagWords interior offset = .ok []) : ∀ c ∈ interior, isGap c = true := by
  obtain ⟨g, s, rfl, hg, hs⟩ := tagWords_eq_ok_iff_spaced.mp h
  obtain rfl := hs.eq_nil_iff.mpr rfl
  rwa [List.append_nil]

namespace Tokenizer

variable {t : Tokenizer} {source interior : List Char} {segments before after : List Segment}
  {items : List Item} {n : Nesting} {e : TemplateError} {offset : Nat}

theorem map_fst_placedItems {registry : Registry}
    (h : segments.map (Item.ofSegment registry) = items.map .ok) :
    (placedItems segments items).map Prod.fst = segments.map Segment.offset := by
  have hlength := congrArg List.length h
  simp only [List.length_map] at hlength
  exact List.map_fst_zip (by simp [hlength])

/-- The open blocks of a nesting are those that the segments taken in leave open. -/
theorem Reaches.openAfter (h : t.Reaches segments items n)
    (hordered : segments.Pairwise fun s u => s.offset < u.offset) :
    OpenAfter t.registry segments n.opened := by
  refine ⟨?_, items, h.read, fun _ _ => Nesting.mem_opened_iff h.placed⟩
  have hsub := Nesting.sublist_opened h.placed
  rw [map_fst_placedItems h.read] at hsub
  exact List.pairwise_map.mp ((List.pairwise_map.mpr hordered).sublist hsub)

/-- What is wrong with the words of a tag is true of the tag. -/
theorem trueOfTag_of_ofWords {words : List (List Char)} {opens : List (Nat × List Char)}
    (hwords : tagWords interior offset = .ok words)
    (h : Item.ofWords t.registry offset words = .error e) :
    e.offset = offset ∧ e.TrueOfTag t interior opens := by
  rcases Item.ofWords_eq_error_iff.mp h with
    ⟨rfl, rfl⟩ | ⟨name, args, rfl, hget, hname⟩
  · exact ⟨rfl, gaps_of_tagWords_nil hwords⟩
  rcases hname with ⟨htarget, rfl⟩ | ⟨target, htarget, hcloser⟩
  · refine ⟨rfl, ⟨args, hwords⟩, hget, fun rest hne heq => ?_⟩
    rw [closerTarget?_eq_some_iff.mpr ⟨heq, hne⟩] at htarget
    cases htarget
  obtain ⟨rfl, _⟩ := closerTarget?_eq_some_iff.mp htarget
  rcases Item.ofCloser_eq_error_iff.mp hcloser with ⟨hargs, rfl⟩ | ⟨rfl, hinline, rfl⟩
  · exact ⟨rfl, ⟨args, hargs, hwords⟩, hget⟩
  · exact ⟨rfl, hwords, hget, hinline⟩

/-- What is wrong with the place of an item is true of the tag it is read from. -/
theorem trueOfTag_of_place {s : Segment} {item : Item}
    (hfit : n.Fit t.registry t.maxDepth) (hitem : Item.ofSegment t.registry s = .ok item)
    (h : n.place t.maxDepth s.offset item = .error e) :
    ∃ interior, s = .tag interior e.offset ∧ e.TrueOfTag t interior n.opened := by
  rcases Nesting.place_eq_error_iff.mp h with ⟨name, args, rfl, hdepth, rfl⟩ | ⟨name, rfl, hne, rfl⟩
  · obtain ⟨interior, words, htag, hwords, hopening⟩ :=
      Item.exists_tag_of_ofSegment hitem (Or.inl ⟨name, args, rfl⟩)
    obtain ⟨rfl, hget⟩ := Item.ofWords_eq_opening_iff.mp hopening
    refine ⟨interior, htag, ⟨args, hwords⟩, rfl, hget, ?_⟩
    rw [Nesting.length_opened]
    exact Nat.le_antisymm hfit.depth_le hdepth
  · obtain ⟨interior, words, htag, hwords, hclosing⟩ :=
      Item.exists_tag_of_ofSegment hitem (Or.inr ⟨name, rfl⟩)
    obtain ⟨rfl, _, hget, hinline⟩ := Item.ofWords_eq_closing_iff.mp hclosing
    refine ⟨interior, htag, hwords, hget, hinline, rfl, ?_, hne⟩
    rw [Nesting.innermost?, Option.map_eq_none_iff, List.getLast?_eq_none_iff]

/-- An error that is true of a tag of a source is true of the source. -/
theorem trueOf_of_trueOfTag (hscan : scan source = .ok (before ++ .tag interior e.offset :: after))
    (hreaches : t.Reaches before items n) (h : e.TrueOfTag t interior n.opened) :
    e.TrueOf t source := by
  have hordered := pairwise_offset_of_scan hscan
  obtain ⟨hbefore, hafter, hcross⟩ := List.pairwise_append.mp hordered
  have htruth : ∃ before interior after opens,
      scan source = .ok (before ++ .tag interior e.offset :: after) ∧
        (∀ s ∈ before, s.offset < e.offset) ∧ (∀ s ∈ after, e.offset < s.offset) ∧
          OpenAfter t.registry before opens ∧ e.TrueOfTag t interior opens :=
    ⟨before, interior, after, n.opened, hscan,
      fun s hs => hcross s hs _ (List.mem_cons_self ..),
      (List.pairwise_cons.mp hafter).1, hreaches.openAfter hbefore, h⟩
  cases e with
  | missingClose name offset => exact h.elim
  | _ => exact htruth

/-- An error that blames a tag is true of the source: of the words of the tag, and of the blocks
that are open where it stands, or at the end of the source. -/
theorem trueOf_of_tokenize (h : t.tokenize source = .error e) (hblames : e.blamesTag = true) :
    e.TrueOf t source := by
  rcases cause_of_error h with hscan | ⟨segments, hscan, hcause⟩
  · obtain ⟨front, d, rest, _, _, rfl⟩ := exists_opener_of_scan_error hscan
    cases hblames
  rcases hcause with ⟨before, s, after, items, n, rfl, hreaches, hstep⟩ |
    ⟨items, n, hreaches, hfinish⟩
  · rcases hstep with hread | ⟨item, hitem, hplace⟩
    · rcases Item.ofSegment_eq_error_iff.mp hread with
        ⟨interior, offset, rfl, hwords | ⟨words, hwords, h⟩⟩ | ⟨interior, escape, offset, rfl, h⟩
      · obtain ⟨w, q, _, _, _, rfl⟩ := exists_openQuote_of_tagWords hwords
        cases hblames
      · obtain ⟨rfl, htrue⟩ : e.offset = offset ∧ e.TrueOfTag t interior n.opened :=
          trueOfTag_of_ofWords hwords h
        exact trueOf_of_trueOfTag hscan hreaches htrue
      · rcases Variable.error_of_read h with rfl | ⟨w, q, _, _, _, rfl⟩ <;> cases hblames
    · obtain ⟨interior, rfl, htrue⟩ := trueOfTag_of_place hreaches.fit hitem hplace
      exact trueOf_of_trueOfTag hscan hreaches htrue
  · obtain ⟨start, name, hlast, rfl⟩ := Nesting.finish_eq_error_iff.mp hfinish
    obtain ⟨interior, args, hmem, hwords, hget⟩ :=
      hreaches.exists_tag_of_opened (List.mem_of_getLast? hlast)
    exact ⟨segments, n.opened, interior, args, hscan,
      hreaches.openAfter (pairwise_offset_of_scan hscan), hlast, hmem, hwords, hget⟩

/-- A closing of the outer of two open blocks. -/
theorem trueOf_unbalanced_of_crossing :
    (⟨.ofList [(['a'], .block), (['b'], .block)], 2⟩ : Tokenizer).tokenize
        (displayWords [['a']] ++ displayWords [['b']] ++ displayWords [closerName ['a']]) =
      .error (.unbalancedClose ['a'] (some ['b']) 14) ∧
      (TemplateError.unbalancedClose ['a'] (some ['b']) 14).TrueOf
        ⟨.ofList [(['a'], .block), (['b'], .block)], 2⟩
        (displayWords [['a']] ++ displayWords [['b']] ++ displayWords [closerName ['a']]) := by
  have hfail : (⟨.ofList [(['a'], .block), (['b'], .block)], 2⟩ : Tokenizer).tokenize
      (displayWords [['a']] ++ displayWords [['b']] ++ displayWords [closerName ['a']]) =
      .error (.unbalancedClose ['a'] (some ['b']) 14) := by rfl
  exact ⟨hfail, trueOf_of_tokenize hfail rfl⟩

end Tokenizer

end TemplateMarkup
