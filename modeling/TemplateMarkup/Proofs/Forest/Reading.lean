import TemplateMarkup.Proofs.Forest.Linear
import TemplateMarkup.Proofs.Outcome
import TemplateMarkup.Tokenizer

/-! # Reading a forest

Every segment is an item on its own account or the source is refused. The
tokens of a source are the one forest whose items are those of its segments,
where every tag is as the registry, the surrounding blocks and the limit on
their number demand.
-/

namespace TemplateMarkup

open Token Nesting Outcome

namespace Item

variable {registry : Registry} {offset : Nat} {words : List (List Char)} {item : Item}
  {name : List Char} {args : List (List Char)}

theorem ofCloser_eq_ok_iff : ofCloser registry name args offset = .ok item ↔
    args = [] ∧ registry.get? name ≠ some .inline ∧ item = closing name := by
  unfold ofCloser
  by_cases hargs : args = []
  · by_cases hinline : registry.get? name = some .inline
    · simp [hargs, hinline]
    · simp [hargs, hinline, eq_comm]
  · simp [hargs]

theorem ofWords_of_unknown (hget : registry.get? name = none) (hname : closerTarget? name = none) :
    ofWords registry offset (name :: args) = .error (.unknownTag name offset) := by
  simp [ofWords, hget, hname]

theorem ofWords_of_closer {target : List Char} (hget : registry.get? name = none)
    (hname : closerTarget? name = some target) :
    ofWords registry offset (name :: args) = ofCloser registry target args offset := by
  simp [ofWords, hget, hname]

/-- The words of a tag are read as an item if the first one is registered, or if there is one only,
it is not registered, and it is the name of the closing tag of what is no inline tag. -/
theorem ofWords_eq_ok_iff : ofWords registry offset words = .ok item ↔
    (∃ name args, words = name :: args ∧ registry.get? name = some .inline ∧
      item = inline name args) ∨
    (∃ name args, words = name :: args ∧ registry.get? name = some .block ∧
      item = opening name args) ∨
    ∃ name, words = [closerName name] ∧ name ≠ [] ∧ registry.get? (closerName name) = none ∧
      registry.get? name ≠ some .inline ∧ item = closing name := by
  constructor
  · intro h
    cases words with
    | nil => cases h
    | cons name args =>
        cases hget : registry.get? name with
        | some kind =>
            rw [ofWords, hget] at h
            cases kind with
            | inline =>
                cases h
                exact Or.inl ⟨name, args, rfl, hget, rfl⟩
            | block =>
                cases h
                exact Or.inr (Or.inl ⟨name, args, rfl, hget, rfl⟩)
        | none =>
            cases htarget : closerTarget? name with
            | none =>
                rw [ofWords_of_unknown hget htarget] at h
                cases h
            | some target =>
                rw [ofWords_of_closer hget htarget] at h
                obtain ⟨rfl, hinline, rfl⟩ := ofCloser_eq_ok_iff.mp h
                obtain ⟨rfl, hne⟩ := closerTarget?_eq_some_iff.mp htarget
                exact Or.inr (Or.inr ⟨target, rfl, hne, hget, hinline, rfl⟩)
  · rintro (⟨name, args, rfl, hget, rfl⟩ | ⟨name, args, rfl, hget, rfl⟩ |
      ⟨name, rfl, hne, hget, hinline, rfl⟩)
    · rw [ofWords, hget]
    · rw [ofWords, hget]
    · rw [ofWords_of_closer hget (closerTarget?_eq_some_iff.mpr ⟨rfl, hne⟩)]
      exact ofCloser_eq_ok_iff.mpr ⟨rfl, hinline, rfl⟩

theorem registered_of_ofWords (h : ofWords registry offset words = .ok item) :
    item.Registered registry := by
  rcases ofWords_eq_ok_iff.mp h with ⟨_, _, _, hget, rfl⟩ | ⟨_, _, _, hget, rfl⟩ |
    ⟨name, _, _, _, _, rfl⟩
  · exact fun _ => hget
  · exact fun _ => hget
  · exact fun hne => absurd rfl (hne name)

theorem registered_of_ofSegment {s : Segment} (h : ofSegment registry s = .ok item) :
    item.Registered registry := by
  cases s with
  | text t offset =>
      cases h
      exact fun _ => trivial
  | tag interior offset =>
      obtain ⟨words, _, hitem⟩ := bind_eq_ok_iff.mp h
      exact registered_of_ofWords hitem
  | var interior escape offset =>
      obtain ⟨v, _, rfl⟩ := map_eq_ok_iff.mp h
      exact fun _ => trivial

end Item

namespace Tokenizer

/-- Items with the offsets of the segments they were read from. -/
def placedItems (segments : List Segment) (items : List Item) : List (Nat × Item) :=
  (segments.map Segment.offset).zip items

theorem map_snd_placedItems {registry : Registry} {segments : List Segment} {items : List Item}
    (h : segments.map (Item.ofSegment registry) = items.map .ok) :
    (placedItems segments items).map Prod.snd = items := by
  have hlength := congrArg List.length h
  simp only [List.length_map] at hlength
  exact List.map_snd_zip (by simp [hlength])

theorem registered_of_mem_placedItems {registry : Registry} {segments : List Segment}
    {items : List Item} (h : segments.map (Item.ofSegment registry) = items.map .ok) :
    ∀ entry ∈ placedItems segments items, entry.2.Registered registry := by
  intro entry hentry
  have hmem : .ok entry.2 ∈ items.map (Except.ok (ε := TemplateError)) :=
    List.mem_map_of_mem (map_snd_placedItems h ▸ List.mem_map_of_mem hentry)
  rw [← h] at hmem
  obtain ⟨s, _, hs⟩ := List.mem_map.mp hmem
  exact Item.registered_of_ofSegment hs

theorem nest_cons (t : Tokenizer) (n : Nesting) (s : Segment) (segments : List Segment) :
    t.nest n (s :: segments) = t.step n s >>= fun next => t.nest next segments :=
  List.foldlM_cons

/-- Taking in segments is reading each of them as an item and placing the items. -/
theorem nest_eq_ok_iff {t : Tokenizer} {n last : Nesting} {segments : List Segment} :
    t.nest n segments = .ok last ↔
      ∃ items, segments.map (Item.ofSegment t.registry) = items.map .ok ∧
        n.placeAll t.maxDepth (placedItems segments items) = .ok last := by
  induction segments generalizing n with
  | nil =>
      constructor
      · intro h
        exact ⟨[], rfl, h⟩
      · rintro ⟨items, _, hplace⟩
        exact hplace
  | cons s segments ih =>
      rw [nest_cons, bind_eq_ok_iff]
      constructor
      · rintro ⟨next, hstep, hrest⟩
        obtain ⟨item, hitem, hplace⟩ := bind_eq_ok_iff.mp hstep
        obtain ⟨items, hitems, hrow⟩ := ih.mp hrest
        refine ⟨item :: items, by simp [hitem, hitems], ?_⟩
        exact placeAll_cons_eq_ok_iff.mpr ⟨next, hplace, hrow⟩
      · rintro ⟨items, hitems, hplace⟩
        obtain ⟨item, rest, rfl, hitem, hrest⟩ := List.map_eq_cons_iff.mp hitems.symm
        obtain ⟨next, hnext, hrow⟩ := placeAll_cons_eq_ok_iff.mp hplace
        exact ⟨next, bind_eq_ok_iff.mpr ⟨item, hitem.symm, hnext⟩,
          ih.mpr ⟨rest, hrest.symm, hrow⟩⟩

theorem finish_eq_ok_iff {n : Nesting} {ts : List Token} :
    n.finish = .ok ts ↔ n = ⟨ts, []⟩ := by
  obtain ⟨top, blocks⟩ := n
  cases blocks <;> simp [finish]

theorem forest_of_scan {t : Tokenizer} {source : List Char} {segments : List Segment}
    (hscan : scan source = .ok segments) :
    t.forest source = t.nest .empty segments >>= Nesting.finish := by
  rw [forest, hscan]
  rfl

/-- The tokens of a source are a forest that fits and whose items its segments are read as. -/
theorem forest_eq_ok_iff {t : Tokenizer} {source : List Char} {ts : List Token} :
    t.forest source = .ok ts ↔
      ∃ segments, scan source = .ok segments ∧ FitsAll t.registry t.maxDepth [] ts ∧
        segments.map (Item.ofSegment t.registry) = (itemsAll ts).map .ok := by
  constructor
  · intro h
    obtain ⟨segments, hscan, h⟩ := bind_eq_ok_iff.mp h
    obtain ⟨n, hnest, hfinish⟩ := bind_eq_ok_iff.mp h
    obtain rfl := finish_eq_ok_iff.mp hfinish
    obtain ⟨items, hread, hplace⟩ := nest_eq_ok_iff.mp hnest
    have hsnd := map_snd_placedItems hread
    have hitems : itemsAll ts = items := by
      have hplaced := items_of_placeAll hplace
      rw [hsnd] at hplaced
      simpa [Nesting.items, openItems, Nesting.empty, itemsAll] using hplaced
    have hregistered := registered_of_mem_placedItems hread
    refine ⟨segments, hscan, ((fit_empty _ _).placeAll hregistered hplace).top, ?_⟩
    rw [hitems, hread]
  · rintro ⟨segments, hscan, hfits, hread⟩
    have hplace := placeAll_itemsAll .empty ts hfits _ (map_snd_placedItems hread)
    rw [appendAll_empty] at hplace
    refine bind_eq_ok_iff.mpr ⟨segments, hscan, ?_⟩
    exact bind_eq_ok_iff.mpr ⟨_, nest_eq_ok_iff.mpr ⟨_, hread, hplace⟩, rfl⟩

theorem tokenize_eq_ok_iff {t : Tokenizer} {source : List Char} {ts : List Token} :
    t.tokenize source = .ok ts ↔ ∃ us, t.forest source = .ok us ∧ clearBlank us = ts :=
  map_eq_ok_iff

/-- What is the same for all blank forests is not changed by clearing one. -/
theorem apply_clearBlank {α : Type} (f : List Token → α)
    (h : ∀ ts, ts.all Token.isBlank = true → f ts = f []) (ts : List Token) :
    f (clearBlank ts) = f ts := by
  unfold clearBlank
  split
  case isTrue hblank => exact (h ts hblank).symm
  case isFalse => rfl

end Tokenizer

end TemplateMarkup
