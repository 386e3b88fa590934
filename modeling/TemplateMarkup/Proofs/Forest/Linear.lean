import TemplateMarkup.Nesting

/-! # Forests in a line

A forest is laid out as a row of items: a block becomes its opening, the items
of its body and its closing. Placing items one by one rebuilds the forest. At
each moment the finished tokens and the open blocks, laid out in the same way,
are the items placed so far, and closing is the only step that looks back.
-/

namespace TemplateMarkup

/-- Whether a registry knows an item as what it is: inline tags are registered as inline, and
tags that are opened or closed as blocks. -/
def Item.Known (registry : Registry) : Item → Prop
  | inline name _ => registry.get? name = some .inline
  | opening name _ => registry.get? name = some .block
  | closing name => registry.get? name = some .block
  | _ => True

/-- Whether an item is known as what it is, unless it is a closing; which block a closing names is
seen only when it is placed. -/
def Item.Registered (registry : Registry) (item : Item) : Prop :=
  (∀ name, item ≠ closing name) → item.Known registry

namespace Token

mutual

/-- The items of a token from left to right. -/
def items : Token → List Item
  | text s => [.text s]
  | var v => [.var v]
  | tag t => [.inline t.name t.args]
  | block t ts => .opening t.name t.args :: itemsAll ts ++ [.closing t.name]

/-- The items of a row of tokens from left to right. -/
def itemsAll : List Token → List Item
  | [] => []
  | t :: ts => items t ++ itemsAll ts

end

@[simp] theorem itemsAll_append (ts us : List Token) :
    itemsAll (ts ++ us) = itemsAll ts ++ itemsAll us := by
  induction ts with
  | nil => rfl
  | cons t ts ih => simp [itemsAll, ih]

mutual

/-- Whether every tag of a token is as its registry and its surroundings demand: it carries the
kind its name is registered with, has a body exactly if it is a block, names the blocks around it
from the outermost one on, and a block is enclosed by fewer blocks than the limit. -/
def Fits (registry : Registry) (maxDepth : Nat) (around : List (List Char)) : Token → Prop
  | text _ => True
  | var _ => True
  | tag t => registry.get? t.name = some t.kind ∧ t.kind = .inline ∧ t.ancestors = around
  | block t ts =>
      (registry.get? t.name = some t.kind ∧ t.kind = .block ∧ t.ancestors = around) ∧
        around.length < maxDepth ∧ FitsAll registry maxDepth (around ++ [t.name]) ts

/-- Whether every tag of a row of tokens is as its registry and its surroundings demand. -/
def FitsAll (registry : Registry) (maxDepth : Nat) (around : List (List Char)) :
    List Token → Prop
  | [] => True
  | t :: ts => Fits registry maxDepth around t ∧ FitsAll registry maxDepth around ts

end

variable {registry : Registry} {maxDepth : Nat} {around : List (List Char)}

@[simp] theorem fitsAll_append (ts us : List Token) :
    FitsAll registry maxDepth around (ts ++ us) ↔
      FitsAll registry maxDepth around ts ∧ FitsAll registry maxDepth around us := by
  induction ts with
  | nil => simp [FitsAll]
  | cons t ts ih => simp [FitsAll, ih, and_assoc]

mutual

/-- Every item that comes from a token that fits is known to the registry as what it is. -/
theorem known_of_mem_items {item : Item} : {around : List (List Char)} → (t : Token) →
    Fits registry maxDepth around t → item ∈ items t → item.Known registry
  | _, text _, _, hmem => by
      obtain rfl := List.mem_singleton.mp hmem
      trivial
  | _, var _, _, hmem => by
      obtain rfl := List.mem_singleton.mp hmem
      trivial
  | _, tag t, h, hmem => by
      obtain rfl := List.mem_singleton.mp hmem
      exact h.1.trans (congrArg some h.2.1)
  | _, block t ts, h, hmem => by
      obtain ⟨⟨hget, hkind, _⟩, _, hts⟩ := h
      have hblock : registry.get? t.name = some .block := hget.trans (congrArg some hkind)
      rcases List.mem_cons.mp hmem with rfl | hmem
      · exact hblock
      · rcases List.mem_append.mp hmem with hmem | hmem
        · exact known_of_mem_itemsAll ts hts hmem
        · obtain rfl := List.mem_singleton.mp hmem
          exact hblock

theorem known_of_mem_itemsAll {item : Item} : {around : List (List Char)} → (ts : List Token) →
    FitsAll registry maxDepth around ts → item ∈ itemsAll ts → item.Known registry
  | _, [], _, hmem => by cases hmem
  | _, t :: ts, h, hmem => by
      rcases List.mem_append.mp hmem with hmem | hmem
      · exact known_of_mem_items t h.1 hmem
      · exact known_of_mem_itemsAll ts h.2 hmem

end

end Token

open Token

/-- The items of a block that still collects its body. -/
def OpenBlock.items (b : OpenBlock) : List Item :=
  .opening b.tag.name b.tag.args :: itemsAll b.body

namespace Nesting

/-- The items of the open blocks, the outermost block first. -/
def openItems : List OpenBlock → List Item
  | [] => []
  | b :: bs => openItems bs ++ b.items

/-- The items placed so far. -/
def items (n : Nesting) : List Item :=
  itemsAll n.top ++ openItems n.blocks

/-- Names of a row of open blocks, outermost first. -/
def openNames (bs : List OpenBlock) : List (List Char) :=
  (bs.map fun b => b.tag.name).reverse

@[simp] theorem openNames_cons (b : OpenBlock) (bs : List OpenBlock) :
    openNames (b :: bs) = openNames bs ++ [b.tag.name] := by
  simp [openNames]

@[simp] theorem length_openNames (bs : List OpenBlock) : (openNames bs).length = bs.length := by
  simp [openNames]

/-- Whether every open block, and all it collected, is as the blocks outside it demand. -/
def OpenFit (registry : Registry) (maxDepth : Nat) : List OpenBlock → Prop
  | [] => True
  | b :: bs =>
      (registry.get? b.tag.name = some b.tag.kind ∧ b.tag.kind = .block ∧
        b.tag.ancestors = openNames bs) ∧
      bs.length < maxDepth ∧ FitsAll registry maxDepth (openNames (b :: bs)) b.body ∧
        OpenFit registry maxDepth bs

/-- Whether all tokens of a nesting, finished or not, are as their surroundings demand. -/
structure Fit (registry : Registry) (maxDepth : Nat) (n : Nesting) : Prop where
  top : FitsAll registry maxDepth [] n.top
  blocks : OpenFit registry maxDepth n.blocks

theorem ancestors_eq_openNames (n : Nesting) : n.ancestors = openNames n.blocks := rfl

theorem length_ancestors (n : Nesting) : n.ancestors.length = n.depth :=
  length_openNames n.blocks

theorem fit_empty (registry : Registry) (maxDepth : Nat) : empty.Fit registry maxDepth :=
  ⟨trivial, trivial⟩

theorem Fit.depth_le {registry : Registry} {maxDepth : Nat} {n : Nesting}
    (h : n.Fit registry maxDepth) : n.depth ≤ maxDepth := by
  obtain ⟨top, blocks⟩ := n
  cases blocks with
  | nil => exact Nat.zero_le maxDepth
  | cons b bs => exact h.blocks.2.1

theorem items_append (n : Nesting) (t : Token) : (n.append t).items = n.items ++ t.items := by
  obtain ⟨top, blocks⟩ := n
  cases blocks with
  | nil => simp [append, items, openItems, itemsAll]
  | cons b bs => simp [append, items, openItems, OpenBlock.items, itemsAll]

theorem items_push (n : Nesting) (tag : Tag) (offset : Nat) :
    (n.push tag offset).items = n.items ++ [.opening tag.name tag.args] := by
  simp [push, items, openItems, OpenBlock.items, itemsAll]

theorem Fit.append {registry : Registry} {maxDepth : Nat} {n : Nesting} {t : Token}
    (h : n.Fit registry maxDepth) (ht : t.Fits registry maxDepth n.ancestors) :
    (n.append t).Fit registry maxDepth := by
  obtain ⟨top, blocks⟩ := n
  cases blocks with
  | nil => exact ⟨by simpa [Nesting.append, FitsAll] using ⟨h.top, ht⟩, trivial⟩
  | cons b bs =>
      obtain ⟨hb, hlt, hbody, hbs⟩ := h.blocks
      refine ⟨h.top, hb, hlt, ?_, hbs⟩
      exact (fitsAll_append b.body [t]).mpr ⟨hbody, ht, trivial⟩

variable {registry : Registry} {maxDepth offset : Nat} {n next : Nesting} {item : Item}

/-- A placed item is the last of the items placed so far. -/
theorem items_of_place (h : n.place maxDepth offset item = .ok next) :
    next.items = n.items ++ [item] := by
  cases item with
  | text s =>
      cases h
      exact items_append n (.text s)
  | var v =>
      cases h
      exact items_append n (.var v)
  | inline name args =>
      cases h
      exact items_append n (.tag ⟨name, args, .inline, n.ancestors⟩)
  | opening name args =>
      simp only [place] at h
      split at h
      · cases h
      · cases h
        exact items_push n ⟨name, args, .block, n.ancestors⟩ offset
  | closing name =>
      obtain ⟨top, blocks⟩ := n
      cases blocks with
      | nil => cases h
      | cons b bs =>
          simp only [place] at h
          split at h
          · rename_i hname
            cases h
            rw [items_append]
            simp [items, openItems, OpenBlock.items, Token.items, hname]
          · cases h

/-- Placing a registered item keeps every token as its surroundings demand. -/
theorem Fit.place (hn : n.Fit registry maxDepth) (hitem : item.Registered registry)
    (h : n.place maxDepth offset item = .ok next) : next.Fit registry maxDepth := by
  cases item with
  | text s =>
      cases h
      exact hn.append trivial
  | var v =>
      cases h
      exact hn.append trivial
  | inline name args =>
      cases h
      have hkind : registry.get? name = some .inline := hitem fun _ => Item.noConfusion
      exact hn.append ⟨hkind, rfl, rfl⟩
  | opening name args =>
      simp only [Nesting.place] at h
      split at h
      · cases h
      · rename_i hdepth
        cases h
        have hkind : registry.get? name = some .block := hitem fun _ => Item.noConfusion
        exact ⟨hn.top, ⟨hkind, rfl, rfl⟩, Nat.lt_of_not_le hdepth, trivial, hn.blocks⟩
  | closing name =>
      obtain ⟨top, blocks⟩ := n
      cases blocks with
      | nil => cases h
      | cons b bs =>
          simp only [Nesting.place] at h
          split at h
          · cases h
            obtain ⟨hb, hlt, hbody, hbs⟩ := hn.blocks
            refine Fit.append (n := ⟨top, bs⟩) ⟨hn.top, hbs⟩ ⟨hb, ?_, ?_⟩
            · rw [length_ancestors]
              exact hlt
            · simpa [ancestors_eq_openNames] using hbody
          · cases h

/-- Place a row of items, each with its offset. -/
def placeAll (maxDepth : Nat) (n : Nesting) (row : List (Nat × Item)) :
    Except TemplateError Nesting :=
  row.foldlM (fun n entry => n.place maxDepth entry.1 entry.2) n

theorem placeAll_cons {entry : Nat × Item} {row : List (Nat × Item)}
    (h : n.place maxDepth entry.1 entry.2 = .ok next) :
    n.placeAll maxDepth (entry :: row) = next.placeAll maxDepth row := by
  rw [placeAll, List.foldlM_cons, h]
  rfl

theorem placeAll_cons_eq_ok_iff {entry : Nat × Item} {row : List (Nat × Item)}
    {last : Nesting} :
    n.placeAll maxDepth (entry :: row) = .ok last ↔
      ∃ next, n.place maxDepth entry.1 entry.2 = .ok next ∧
        next.placeAll maxDepth row = .ok last := by
  constructor
  · intro h
    cases hplace : n.place maxDepth entry.1 entry.2 with
    | error e =>
        rw [placeAll, List.foldlM_cons, hplace] at h
        cases h
    | ok next => exact ⟨next, rfl, by rwa [placeAll_cons hplace] at h⟩
  · rintro ⟨next, hplace, h⟩
    rwa [placeAll_cons hplace]

theorem placeAll_append {row rest : List (Nat × Item)}
    (h : n.placeAll maxDepth row = .ok next) :
    n.placeAll maxDepth (row ++ rest) = next.placeAll maxDepth rest := by
  rw [placeAll, List.foldlM_append]
  change (n.placeAll maxDepth row >>= fun m => m.placeAll maxDepth rest) = _
  rw [h]
  rfl

theorem items_of_placeAll {row : List (Nat × Item)} (h : n.placeAll maxDepth row = .ok next) :
    next.items = n.items ++ row.map Prod.snd := by
  induction row generalizing n with
  | nil =>
      cases h
      simp
  | cons entry row ih =>
      obtain ⟨mid, hplace, hrow⟩ := placeAll_cons_eq_ok_iff.mp h
      rw [ih hrow, items_of_place hplace]
      simp

theorem Fit.placeAll {row : List (Nat × Item)} (hn : n.Fit registry maxDepth)
    (hrow : ∀ entry ∈ row, entry.2.Registered registry)
    (h : n.placeAll maxDepth row = .ok next) : next.Fit registry maxDepth := by
  induction row generalizing n with
  | nil =>
      cases h
      exact hn
  | cons entry row ih =>
      obtain ⟨mid, hplace, hrest⟩ := placeAll_cons_eq_ok_iff.mp h
      exact ih (hn.place (hrow entry (List.mem_cons_self ..)) hplace)
        (fun e he => hrow e (List.mem_cons_of_mem _ he)) hrest

/-- Collect a row of tokens where the innermost open block, or the top level, stands. -/
def appendAll (n : Nesting) (ts : List Token) : Nesting :=
  ts.foldl append n

theorem appendAll_push (n : Nesting) (tag : Tag) (offset : Nat) (ts : List Token) :
    (n.push tag offset).appendAll ts = ⟨n.top, ⟨tag, ts, offset⟩ :: n.blocks⟩ := by
  suffices h : ∀ collected, (⟨n.top, ⟨tag, collected, offset⟩ :: n.blocks⟩ : Nesting).appendAll ts =
      ⟨n.top, ⟨tag, collected ++ ts, offset⟩ :: n.blocks⟩ from h []
  induction ts with
  | nil => simp [appendAll]
  | cons t ts ih =>
      intro collected
      have hts := ih (collected ++ [t])
      rw [List.append_assoc] at hts
      exact hts

theorem appendAll_empty (ts : List Token) : empty.appendAll ts = ⟨ts, []⟩ := by
  suffices h : ∀ top, (⟨top, []⟩ : Nesting).appendAll ts = ⟨top ++ ts, []⟩ from h []
  induction ts with
  | nil => simp [appendAll]
  | cons t ts ih =>
      intro top
      have hts := ih (top ++ [t])
      rw [List.append_assoc] at hts
      exact hts

mutual

/-- The items of a token that fits where a nesting stands rebuild the token there. -/
theorem placeAll_items (n : Nesting) : (t : Token) → t.Fits registry maxDepth n.ancestors →
    (row : List (Nat × Item)) → row.map Prod.snd = t.items →
      n.placeAll maxDepth row = .ok (n.append t)
  | .text s, _, row, hrow => by
      obtain ⟨entry, rfl, hentry⟩ := List.map_eq_singleton_iff.mp hrow
      exact placeAll_cons (by rw [hentry]; rfl)
  | .var v, _, row, hrow => by
      obtain ⟨entry, rfl, hentry⟩ := List.map_eq_singleton_iff.mp hrow
      exact placeAll_cons (by rw [hentry]; rfl)
  | .tag t, h, row, hrow => by
      obtain ⟨entry, rfl, hentry⟩ := List.map_eq_singleton_iff.mp hrow
      obtain ⟨_, hkind, haround⟩ := h
      apply placeAll_cons
      rw [hentry, place, ← haround, ← hkind]
  | .block t ts, h, row, hrow => by
      obtain ⟨⟨_, hkind, haround⟩, hdepth, hts⟩ := h
      obtain ⟨head, tail, rfl, hhead, htail⟩ := List.map_eq_cons_iff.mp hrow
      obtain ⟨body, close, rfl, hbody, hclose⟩ := List.map_eq_append_iff.mp htail
      obtain ⟨last, rfl, hlast⟩ := List.map_eq_singleton_iff.mp hclose
      have hopen : n.place maxDepth head.1 head.2 = .ok (n.push t head.1) := by
        rw [length_ancestors] at hdepth
        rw [hhead, place, if_neg (Nat.not_le_of_lt hdepth), ← hkind, ← haround]
      have hcollect := placeAll_itemsAll (n.push t head.1) ts (by simpa using hts) body hbody
      rw [placeAll_cons hopen, placeAll_append hcollect, appendAll_push]
      apply placeAll_cons
      rw [hlast]
      simp [place]

theorem placeAll_itemsAll (n : Nesting) : (ts : List Token) →
    FitsAll registry maxDepth n.ancestors ts → (row : List (Nat × Item)) →
      row.map Prod.snd = itemsAll ts → n.placeAll maxDepth row = .ok (n.appendAll ts)
  | [], _, row, hrow => by
      obtain rfl := List.map_eq_nil_iff.mp hrow
      rfl
  | t :: ts, h, row, hrow => by
      obtain ⟨first, rest, rfl, hfirst, hrest⟩ := List.map_eq_append_iff.mp hrow
      rw [placeAll_append (placeAll_items n t h.1 first hfirst)]
      exact placeAll_itemsAll (n.append t) ts (by simpa using h.2) rest hrest

end

/-- Two forests that fit and have the same items are the same forest. -/
theorem eq_of_itemsAll_eq {ts us : List Token} (hts : FitsAll registry maxDepth [] ts)
    (hus : FitsAll registry maxDepth [] us) (h : itemsAll ts = itemsAll us) : ts = us := by
  have hrow : ((itemsAll ts).map fun i => (0, i)).map Prod.snd = itemsAll ts := by
    simp [Function.comp_def]
  have hplace := placeAll_itemsAll empty ts hts _ hrow
  rw [placeAll_itemsAll empty us hus _ (hrow.trans h), appendAll_empty, appendAll_empty] at hplace
  cases hplace
  rfl

end Nesting

end TemplateMarkup
