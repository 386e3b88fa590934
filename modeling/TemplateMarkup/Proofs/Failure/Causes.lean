import TemplateMarkup.Proofs.Forest.OpenBlocks
import TemplateMarkup.Proofs.Forest.Reading

/-! # Causes of a failure

A run fails while the source is scanned, at a segment that no item can be read
from, at an item that has no place behind those before it, or at the end with a
block left open. For each of these the error is known from the words of a tag
and from the blocks that are open.
-/

namespace TemplateMarkup

open Outcome

namespace Item

variable {registry : Registry} {offset : Nat} {words : List (List Char)} {item : Item}
  {e : TemplateError} {name : List Char} {args : List (List Char)}

theorem ofCloser_eq_error_iff : ofCloser registry name args offset = .error e ↔
    args ≠ [] ∧ e = .argumentsOnClose name offset ∨
      args = [] ∧ registry.get? name = some .inline ∧ e = .unexpectedClose name offset := by
  unfold ofCloser
  by_cases hargs : args = []
  · by_cases hinline : registry.get? name = some .inline
    · simp [hargs, hinline, eq_comm]
    · simp [hargs, hinline]
  · simp [hargs, eq_comm]

/-- The words of a tag are refused if there are none, if the first one is neither registered nor
the name of a closing tag, and if it is such a name with words behind it or that of an inline
tag. -/
theorem ofWords_eq_error_iff : ofWords registry offset words = .error e ↔
    words = [] ∧ e = .emptyTag offset ∨
      ∃ name args, words = name :: args ∧ registry.get? name = none ∧
        (closerTarget? name = none ∧ e = .unknownTag name offset ∨
          ∃ target, closerTarget? name = some target ∧
            ofCloser registry target args offset = .error e) := by
  cases words with
  | nil => simp [ofWords, eq_comm]
  | cons name args =>
      constructor
      · intro h
        refine Or.inr ⟨name, args, rfl, ?_⟩
        cases hget : registry.get? name with
        | some kind =>
            rw [ofWords, hget] at h
            cases kind <;> cases h
        | none =>
            refine ⟨rfl, ?_⟩
            cases htarget : closerTarget? name with
            | none =>
                rw [ofWords_of_unknown hget htarget] at h
                cases h
                exact Or.inl ⟨rfl, rfl⟩
            | some target =>
                rw [ofWords_of_closer hget htarget] at h
                exact Or.inr ⟨target, rfl, h⟩
      · rintro (⟨hnil, _⟩ | ⟨_, _, hwords, hget, hcause⟩)
        · cases hnil
        · cases hwords
          rcases hcause with ⟨htarget, rfl⟩ | ⟨target, htarget, h⟩
          · exact ofWords_of_unknown hget htarget
          · rwa [ofWords_of_closer hget htarget]

theorem ofWords_eq_opening_iff : ofWords registry offset words = .ok (opening name args) ↔
    words = name :: args ∧ registry.get? name = some .block := by
  rw [ofWords_eq_ok_iff]
  constructor
  · rintro (⟨_, _, _, _, h⟩ | ⟨_, _, rfl, hget, h⟩ | ⟨_, _, _, _, _, h⟩)
    · cases h
    · cases h
      exact ⟨rfl, hget⟩
    · cases h
  · rintro ⟨rfl, hget⟩
    exact Or.inr (Or.inl ⟨name, args, rfl, hget, rfl⟩)

/-- A tag closes a block if it is the one word that closing tags of the block have, no tag has
that name, and the block is not registered as an inline tag. -/
theorem ofWords_eq_closing_iff : ofWords registry offset words = .ok (closing name) ↔
    words = [closerName name] ∧ name ≠ [] ∧ registry.get? (closerName name) = none ∧
      registry.get? name ≠ some .inline := by
  rw [ofWords_eq_ok_iff]
  constructor
  · rintro (⟨_, _, _, _, h⟩ | ⟨_, _, _, _, h⟩ | ⟨_, rfl, hne, hget, hinline, h⟩)
    · cases h
    · cases h
    · cases h
      exact ⟨rfl, hne, hget, hinline⟩
  · rintro ⟨rfl, hne, hget, hinline⟩
    exact Or.inr (Or.inr ⟨name, rfl, hne, hget, hinline, rfl⟩)

/-- No item is read from a tag or a variable only. -/
theorem ofSegment_eq_error_iff {s : Segment} : ofSegment registry s = .error e ↔
    (∃ interior offset, s = .tag interior offset ∧
      (tagWords interior offset = .error e ∨
        ∃ words, tagWords interior offset = .ok words ∧
          ofWords registry offset words = .error e)) ∨
      ∃ interior escape offset, s = .var interior escape offset ∧
        Variable.read interior escape offset = .error e := by
  constructor
  · intro h
    cases s with
    | text s offset => cases h
    | tag interior offset => exact Or.inl ⟨interior, offset, rfl, bind_eq_error_iff.mp h⟩
    | var interior escape offset =>
        exact Or.inr ⟨interior, escape, offset, rfl, map_eq_error_iff.mp h⟩
  · rintro (⟨interior, offset, rfl, h⟩ | ⟨interior, escape, offset, rfl, h⟩)
    · exact bind_eq_error_iff.mpr h
    · exact map_eq_error_iff.mpr h

/-- Blocks are opened and closed by tags only. -/
theorem exists_tag_of_ofSegment {s : Segment}
    (h : ofSegment registry s = .ok item)
    (hitem : (∃ name args, item = opening name args) ∨ ∃ name, item = closing name) :
    ∃ interior words, s = .tag interior s.offset ∧ tagWords interior s.offset = .ok words ∧
      ofWords registry s.offset words = .ok item := by
  cases s with
  | text text offset =>
      cases h
      simp at hitem
  | tag interior offset =>
      obtain ⟨words, hwords, h⟩ := bind_eq_ok_iff.mp h
      exact ⟨interior, words, rfl, hwords, h⟩
  | var interior escape offset =>
      obtain ⟨v, _, rfl⟩ := map_eq_ok_iff.mp h
      simp at hitem

end Item

namespace Nesting

variable {maxDepth offset : Nat} {n : Nesting} {item : Item} {e : TemplateError}

/-- Name of the innermost open block. -/
def innermost? (n : Nesting) : Option (List Char) :=
  n.opened.getLast?.map Prod.snd

theorem getLast?_opened (n : Nesting) :
    n.opened.getLast? = n.blocks.head?.map fun b => (b.offset, b.tag.name) := by
  rw [opened, List.getLast?_reverse, List.head?_map]

theorem innermost?_eq (n : Nesting) : n.innermost? = n.blocks.head?.map fun b => b.tag.name := by
  rw [innermost?, getLast?_opened, Option.map_map]
  rfl

/-- Only an opening below the limit and a closing of another block than the innermost one have no
place. -/
theorem place_eq_error_iff : n.place maxDepth offset item = .error e ↔
    (∃ name args, item = .opening name args ∧ maxDepth ≤ n.depth ∧
      e = .nestingTooDeep name maxDepth offset) ∨
      ∃ name, item = .closing name ∧ n.innermost? ≠ some name ∧
        e = .unbalancedClose name n.innermost? offset := by
  cases item with
  | text s => simp [place]
  | var v => simp [place]
  | inline name args => simp [place]
  | opening name args =>
      by_cases hdepth : maxDepth ≤ n.depth <;> simp [place, hdepth, eq_comm]
  | closing name =>
      rw [innermost?_eq]
      obtain ⟨top, blocks⟩ := n
      cases blocks with
      | nil => simp [place, eq_comm]
      | cons b bs =>
          by_cases hname : b.tag.name = name
          · simp [place, hname]
          · simp [place, hname, eq_comm (b := e)]

theorem finish_eq_error_iff : n.finish = .error e ↔
    ∃ start name, n.opened.getLast? = some (start, name) ∧ e = .missingClose name start := by
  rw [getLast?_opened]
  obtain ⟨top, blocks⟩ := n
  cases blocks with
  | nil => simp [finish]
  | cons b bs =>
      constructor
      · intro h
        cases h
        exact ⟨b.offset, b.tag.name, rfl, rfl⟩
      · rintro ⟨_, _, hlast, rfl⟩
        cases hlast
        rfl

end Nesting

namespace Tokenizer

/-- Whether a row of segments can be taken in, as a row of items that nest in a certain way. -/
structure Reaches (t : Tokenizer) (segments : List Segment) (items : List Item) (n : Nesting) :
    Prop where
  read : segments.map (Item.ofSegment t.registry) = items.map .ok
  placed : Nesting.empty.placeAll t.maxDepth (placedItems segments items) = .ok n

variable {t : Tokenizer} {source : List Char} {segments : List Segment} {items : List Item}
  {n : Nesting} {e : TemplateError}

theorem nest_empty_eq_ok_iff :
    t.nest .empty segments = .ok n ↔ ∃ items, t.Reaches segments items n :=
  nest_eq_ok_iff.trans (exists_congr fun _ => ⟨fun h => ⟨h.1, h.2⟩, fun h => ⟨h.read, h.placed⟩⟩)

theorem exists_segment_of_mem_placedItems {registry : Registry} {entry : Nat × Item}
    (h : segments.map (Item.ofSegment registry) = items.map .ok)
    (hentry : entry ∈ placedItems segments items) :
    ∃ s ∈ segments, s.offset = entry.1 ∧ Item.ofSegment registry s = .ok entry.2 := by
  induction segments generalizing items with
  | nil => cases hentry
  | cons s segments ih =>
      obtain ⟨item, rest, rfl, hitem, hrest⟩ := List.map_eq_cons_iff.mp h.symm
      rcases List.mem_cons.mp hentry with rfl | hentry
      · exact ⟨s, List.mem_cons_self .., rfl, hitem.symm⟩
      · obtain ⟨s', hs', hfound⟩ := ih hrest.symm hentry
        exact ⟨s', List.mem_cons_of_mem s hs', hfound⟩

theorem Reaches.fit (h : t.Reaches segments items n) : n.Fit t.registry t.maxDepth :=
  (Nesting.fit_empty _ _).placeAll (registered_of_mem_placedItems h.read) h.placed

/-- Every failure has one of these causes. -/
theorem cause_of_error (h : t.tokenize source = .error e) :
    scan source = .error e ∨
      ∃ segments, scan source = .ok segments ∧
        ((∃ before s after items n, segments = before ++ s :: after ∧ t.Reaches before items n ∧
            (Item.ofSegment t.registry s = .error e ∨
              ∃ item, Item.ofSegment t.registry s = .ok item ∧
                n.place t.maxDepth s.offset item = .error e)) ∨
          ∃ items n, t.Reaches segments items n ∧ n.finish = .error e) := by
  have hforest := map_eq_error_iff.mp h
  rcases bind_eq_error_iff.mp hforest with hscan | ⟨segments, hscan, hforest⟩
  · exact Or.inl hscan
  refine Or.inr ⟨segments, hscan, ?_⟩
  rcases bind_eq_error_iff.mp hforest with hnest | ⟨n, hnest, hfinish⟩
  · obtain ⟨before, s, after, n, hsplit, hbefore, hstep⟩ := exists_of_foldlM_eq_error hnest
    obtain ⟨items, hreaches⟩ := nest_empty_eq_ok_iff.mp hbefore
    exact Or.inl ⟨before, s, after, items, n, hsplit, hreaches, bind_eq_error_iff.mp hstep⟩
  · obtain ⟨items, hreaches⟩ := nest_empty_eq_ok_iff.mp hnest
    exact Or.inr ⟨items, n, hreaches, hfinish⟩

end Tokenizer

end TemplateMarkup
