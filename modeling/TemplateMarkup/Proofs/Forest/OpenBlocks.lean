import TemplateMarkup.Proofs.Forest.Linear

/-! # Open blocks

Which blocks a row of items leaves open is said of the row alone: a block is
closed by a closing of its name with whole tokens before it, and otherwise
stays open. The blocks that are open in a nesting are exactly those that the
items placed so far leave open.
-/

namespace TemplateMarkup

open Token

namespace Item

/-- How many more blocks a row of items opens than it closes. -/
def balance : List Item → Int
  | [] => 0
  | opening _ _ :: row => balance row + 1
  | closing _ :: row => balance row - 1
  | text _ :: row => balance row
  | var _ :: row => balance row
  | inline _ _ :: row => balance row

theorem balance_append (row rest : List Item) :
    balance (row ++ rest) = balance row + balance rest := by
  induction row with
  | nil => simp [balance]
  | cons i row ih => cases i <;> simp only [List.cons_append, balance, ih] <;> omega

@[simp] theorem balance_closing (name : List Char) : balance [closing name] = -1 := rfl

/-- Whether the block that is opened right before a row of items is closed in it: whole tokens
come first, and then a closing of its name. -/
def Closes (name : List Char) (row : List Item) : Prop :=
  ∃ ts rest, row = itemsAll ts ++ closing name :: rest

theorem Closes.append {name : List Char} {row : List Item} (h : Closes name row)
    (rest : List Item) : Closes name (row ++ rest) := by
  obtain ⟨ts, tail, rfl⟩ := h
  exact ⟨ts, tail ++ rest, by simp⟩

/-- Whether a row of items leaves a block open that it opens at an offset. -/
def LeavesOpen (row : List (Nat × Item)) (start : Nat) (name : List Char) : Prop :=
  ∃ before args after, row = before ++ (start, opening name args) :: after ∧
    ¬ Closes name (after.map Prod.snd)

end Item

open Item

namespace Token

mutual

theorem balance_items : (t : Token) → balance t.items = 0
  | text _ => rfl
  | var _ => rfl
  | tag _ => rfl
  | block t ts => by
      simp [items, balance, balance_append, balance_itemsAll ts]

/-- Whole tokens close every block they open. -/
theorem balance_itemsAll : (ts : List Token) → balance (itemsAll ts) = 0
  | [] => rfl
  | t :: ts => by rw [itemsAll, balance_append, balance_items t, balance_itemsAll ts]; rfl

end

mutual

theorem balance_nonneg_of_prefix_items {u : List Item} :
    (t : Token) → u <+: t.items → 0 ≤ balance u
  | text s, h => by
      rcases List.prefix_concat_iff.mp (show u <+: [] ++ [.text s] from h) with rfl | h
      · exact Int.le_refl 0
      · rw [List.prefix_nil.mp h]
        exact Int.le_refl 0
  | var v, h => by
      rcases List.prefix_concat_iff.mp (show u <+: [] ++ [.var v] from h) with rfl | h
      · exact Int.le_refl 0
      · rw [List.prefix_nil.mp h]
        exact Int.le_refl 0
  | tag t, h => by
      rcases List.prefix_concat_iff.mp (show u <+: [] ++ [.inline t.name t.args] from h) with
        rfl | h
      · exact Int.le_refl 0
      · rw [List.prefix_nil.mp h]
        exact Int.le_refl 0
  | block t ts, h => by
      rcases List.prefix_concat_iff.mp h with rfl | h
      · exact Int.le_of_eq (balance_items (.block t ts)).symm
      · cases u with
        | nil => exact Int.le_refl 0
        | cons i u =>
            obtain ⟨hopen, hbody⟩ := List.cons_prefix_cons.mp h
            have hnonneg := balance_nonneg_of_prefix_itemsAll ts hbody
            rw [hopen, balance]
            omega

/-- No part of a row of whole tokens from its start on closes more than it opens. -/
theorem balance_nonneg_of_prefix_itemsAll {u : List Item} :
    (ts : List Token) → u <+: itemsAll ts → 0 ≤ balance u
  | [], h => by
      rw [List.prefix_nil.mp h]
      exact Int.le_refl 0
  | t :: ts, h => by
      obtain ⟨v, hv⟩ := h
      rcases List.append_eq_append_iff.mp hv with ⟨w, hw, _⟩ | ⟨w, rfl, hw⟩
      · exact balance_nonneg_of_prefix_items t ⟨w, hw.symm⟩
      · have := balance_nonneg_of_prefix_itemsAll ts ⟨v, hw.symm⟩
        rw [balance_append, balance_items t]
        omega

end

mutual

theorem closes_of_items_eq {before after : List Item} {name : List Char}
    {args : List (List Char)} : (t : Token) → t.items = before ++ .opening name args :: after →
      Closes name after
  | text s, h => by cases before <;> simp [items] at h
  | var v, h => by cases before <;> simp [items] at h
  | tag t, h => by cases before <;> simp [items] at h
  | block t ts, h => by
      cases before with
      | nil =>
          obtain ⟨hopen, rfl⟩ := List.cons.inj h
          cases hopen
          exact ⟨ts, [], rfl⟩
      | cons i before =>
          have hrest := (List.cons.inj h).2
          rcases List.append_eq_append_iff.mp hrest with ⟨w, _, hw⟩ | ⟨w, hw, hclose⟩
          · cases w with
            | nil => cases hw
            | cons j w => simp at hw
          · cases w with
            | nil => cases hclose
            | cons j w =>
                obtain ⟨rfl, rfl⟩ := List.cons.inj hclose
                exact (closes_of_itemsAll_eq ts hw).append _

/-- Whole tokens close every block where they open it. -/
theorem closes_of_itemsAll_eq {before after : List Item} {name : List Char}
    {args : List (List Char)} : (ts : List Token) →
      itemsAll ts = before ++ .opening name args :: after → Closes name after
  | [], h => by cases before <;> cases h
  | t :: ts, h => by
      rcases List.append_eq_append_iff.mp (show t.items ++ itemsAll ts = _ from h) with
        ⟨w, rfl, hw⟩ | ⟨w, hw, hrest⟩
      · exact closes_of_itemsAll_eq ts hw
      · cases w with
        | nil => exact closes_of_itemsAll_eq ts (hrest.symm.trans (List.nil_append _).symm)
        | cons i w =>
            obtain ⟨rfl, rfl⟩ := List.cons.inj hrest
            exact (closes_of_items_eq t hw).append _

end

end Token

namespace Item

variable {row front after : List (Nat × Item)} {start offset : Nat} {name other : List Char}
  {args : List (List Char)} {ts : List Token}

/-- Whole tokens close no block that was opened before them. -/
theorem not_closes_itemsAll (name : List Char) (ts : List Token) :
    ¬ Closes name (itemsAll ts) := by
  rintro ⟨us, rest, h⟩
  have hnonneg := balance_nonneg_of_prefix_itemsAll (u := itemsAll us ++ [closing name]) ts
    ⟨rest, by simp [h]⟩
  rw [balance_append, balance_itemsAll, balance_closing] at hnonneg
  omega

/-- Nor does an opening with whole tokens behind it. -/
theorem not_closes_opening {items : List Item} (h : ¬ Closes name items) :
    ¬ Closes name (items ++ opening other args :: itemsAll ts) := by
  rintro ⟨us, rest, heq⟩
  rcases List.append_eq_append_iff.mp heq with ⟨w, hw, hrest⟩ | ⟨w, rfl, hrest⟩
  · cases w with
    | nil => cases hrest
    | cons i w =>
        -- the closing would be among the tokens behind the opening
        obtain ⟨rfl, hts⟩ := List.cons.inj hrest
        have hitems := balance_nonneg_of_prefix_itemsAll us ⟨_, hw.symm⟩
        have hinner := balance_nonneg_of_prefix_itemsAll (u := w ++ [closing name]) ts
          ⟨rest, by simp [hts]⟩
        have hus := balance_itemsAll us
        rw [hw, balance_append, balance] at hus
        rw [balance_append, balance_closing] at hinner
        omega
  · cases w with
    | nil => cases hrest
    | cons i w =>
        obtain ⟨rfl, _⟩ := List.cons.inj hrest
        exact h ⟨us, w, rfl⟩

theorem not_leavesOpen_of_itemsAll (h : row.map Prod.snd = itemsAll ts) :
    ¬ LeavesOpen row start name := by
  rintro ⟨before, args, after, rfl, hnot⟩
  rw [List.map_append, List.map_cons] at h
  exact hnot (closes_of_itemsAll_eq ts h.symm)

/-- Behind an opening and whole tokens, the block of the opening is open and those before it are
as they were. -/
theorem leavesOpen_append_opening_iff (hafter : after.map Prod.snd = itemsAll ts) :
    LeavesOpen (front ++ (offset, opening other args) :: after) start name ↔
      LeavesOpen front start name ∨ start = offset ∧ name = other := by
  constructor
  · rintro ⟨before, found, rest, hrow, hnot⟩
    rcases List.append_eq_append_iff.mp hrow with ⟨w, rfl, hw⟩ | ⟨w, rfl, hw⟩
    · cases w with
      | nil =>
          cases hw
          exact Or.inr ⟨rfl, rfl⟩
      | cons entry w =>
          obtain ⟨rfl, rfl⟩ : (offset, opening other args) = entry ∧
              after = w ++ (start, opening name found) :: rest := List.cons.inj hw
          rw [List.map_append, List.map_cons] at hafter
          exact absurd (closes_of_itemsAll_eq ts hafter.symm) hnot
    · cases w with
      | nil =>
          cases hw
          exact Or.inr ⟨rfl, rfl⟩
      | cons entry w =>
          obtain ⟨rfl, rfl⟩ : (start, opening name found) = entry ∧
              rest = w ++ (offset, opening other args) :: after := List.cons.inj hw
          refine Or.inl ⟨before, found, w, rfl, fun hcloses => hnot ?_⟩
          rw [List.map_append]
          exact hcloses.append _
  · rintro (⟨before, found, rest, rfl, hnot⟩ | ⟨rfl, rfl⟩)
    · refine ⟨before, found, rest ++ (offset, opening other args) :: after, by simp, ?_⟩
      rw [List.map_append, List.map_cons, hafter]
      exact not_closes_opening hnot
    · refine ⟨front, args, after, rfl, ?_⟩
      rw [hafter]
      exact not_closes_itemsAll name ts

end Item

namespace Nesting

/-- The open blocks with their offsets and names, outermost first. -/
def opened (n : Nesting) : List (Nat × List Char) :=
  (n.blocks.map fun b => (b.offset, b.tag.name)).reverse

theorem length_opened (n : Nesting) : n.opened.length = n.depth := by
  simp [opened, depth]

/-- Whether finished tokens and open blocks come from a row of items, where each open block has
its opening at its offset, and behind it the items of what it collected. -/
def Records (top : List Token) : List OpenBlock → List (Nat × Item) → Prop
  | [], row => row.map Prod.snd = itemsAll top
  | b :: bs, row => ∃ front after, row = front ++ (b.offset, .opening b.tag.name b.tag.args) :: after ∧
      after.map Prod.snd = itemsAll b.body ∧ Records top bs front

variable {n next : Nesting} {row entries : List (Nat × Item)} {t : Token} {maxDepth offset : Nat}
  {item : Item}

theorem records_append (h : Records n.top n.blocks row) (hentries : entries.map Prod.snd = t.items) :
    Records (n.append t).top (n.append t).blocks (row ++ entries) := by
  obtain ⟨top, blocks⟩ := n
  cases blocks with
  | nil =>
      have hrow : row.map Prod.snd = itemsAll top := h
      simp [append, Records, hrow, hentries, itemsAll]
  | cons b bs =>
      obtain ⟨front, after, rfl, hafter, hfront⟩ := h
      refine ⟨front, after ++ entries, by simp, ?_, hfront⟩
      simp [hafter, hentries, itemsAll]

/-- A placed item is recorded behind the items placed before. -/
theorem records_place (h : Records n.top n.blocks row)
    (hplace : n.place maxDepth offset item = .ok next) :
    Records next.top next.blocks (row ++ [(offset, item)]) := by
  cases item with
  | text s =>
      cases hplace
      exact records_append h rfl
  | var v =>
      cases hplace
      exact records_append h rfl
  | inline name args =>
      cases hplace
      exact records_append h rfl
  | opening name args =>
      simp only [place] at hplace
      split at hplace
      · cases hplace
      · cases hplace
        exact ⟨row, [], rfl, rfl, h⟩
  | closing name =>
      obtain ⟨top, blocks⟩ := n
      cases blocks with
      | nil => cases hplace
      | cons b bs =>
          simp only [place] at hplace
          split at hplace
          · rename_i hname
            cases hplace
            obtain ⟨front, after, rfl, hafter, hfront⟩ := h
            rw [List.append_assoc]
            refine records_append (n := ⟨top, bs⟩) hfront ?_
            simp [Token.items, hafter, hname]
          · cases hplace

theorem records_placeAll {rest : List (Nat × Item)} (h : Records n.top n.blocks row)
    (hplace : n.placeAll maxDepth rest = .ok next) :
    Records next.top next.blocks (row ++ rest) := by
  induction rest generalizing n row with
  | nil =>
      cases hplace
      rwa [List.append_nil]
  | cons entry rest ih =>
      obtain ⟨mid, hmid, hrest⟩ := placeAll_cons_eq_ok_iff.mp hplace
      have hnext := ih (records_place h hmid) hrest
      rwa [List.append_assoc] at hnext

theorem leavesOpen_iff_of_records {top : List Token} {bs : List OpenBlock} {start : Nat}
    {name : List Char} (h : Records top bs row) :
    LeavesOpen row start name ↔ (start, name) ∈ bs.map fun b => (b.offset, b.tag.name) := by
  induction bs generalizing row with
  | nil => simpa using not_leavesOpen_of_itemsAll h
  | cons b bs ih =>
      obtain ⟨front, after, rfl, hafter, hfront⟩ := h
      rw [leavesOpen_append_opening_iff hafter, ih hfront, List.map_cons, List.mem_cons,
        Prod.mk.injEq]
      exact or_comm

theorem sublist_of_records {top : List Token} {bs : List OpenBlock} (h : Records top bs row) :
    List.Sublist (bs.map OpenBlock.offset).reverse (row.map Prod.fst) := by
  induction bs generalizing row with
  | nil => exact List.nil_sublist _
  | cons b bs ih =>
      obtain ⟨front, after, rfl, _, hfront⟩ := h
      rw [List.map_cons, List.reverse_cons, List.map_append, List.map_cons]
      exact (ih hfront).append (List.singleton_sublist.mpr (List.mem_cons_self ..))

theorem records_of_placeAll (h : empty.placeAll maxDepth row = .ok n) :
    Records n.top n.blocks row := by
  have hnil : Records empty.top empty.blocks [] := rfl
  exact records_placeAll hnil h

/-- The open blocks of a nesting are those that the items placed in it leave open. -/
theorem mem_opened_iff (h : empty.placeAll maxDepth row = .ok n) {start : Nat}
    {name : List Char} : (start, name) ∈ n.opened ↔ LeavesOpen row start name := by
  rw [opened, List.mem_reverse]
  exact (leavesOpen_iff_of_records (records_of_placeAll h)).symm

/-- The open blocks stand in the order of their openings. -/
theorem sublist_opened (h : empty.placeAll maxDepth row = .ok n) :
    List.Sublist (n.opened.map Prod.fst) (row.map Prod.fst) := by
  have hsub := sublist_of_records (records_of_placeAll h)
  simpa [opened, Function.comp_def] using hsub

end Nesting

end TemplateMarkup
