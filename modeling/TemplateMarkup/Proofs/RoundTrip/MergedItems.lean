import TemplateMarkup.Proofs.RoundTrip.Merge
import TemplateMarkup.Proofs.RoundTrip.ReadItems

/-! # Merged items

Merging a forest is merging its items, as a block stands between its opening
and its closing. Where no text ends with a brace before something else, texts
that are joined hold no opener, and the merged items may meet.
-/

namespace TemplateMarkup

open Text

namespace Item

/-- Put an item before a row of items, joining it with the first of them if both are texts. -/
def joinText : Item → List Item → List Item
  | text s, text u :: items => text (s ++ u) :: items
  | i, items => i :: items

/-- Join the texts that follow one another in a row of items. -/
def mergeRow (items : List Item) : List Item :=
  items.foldr joinText []

@[simp] theorem mergeRow_cons (i : Item) (items : List Item) :
    mergeRow (i :: items) = joinText i (mergeRow items) := rfl

theorem joinText_of_isText {i : Item} (h : i.isText = false) (items : List Item) :
    joinText i items = i :: items := by
  cases i with
  | text s => cases h
  | var v => rfl
  | inline name args => rfl
  | opening name args => rfl
  | closing name => rfl

theorem exists_eq_text {i : Item} (h : i.isText = true) : ∃ s, i = text s := by
  cases i with
  | text s => exact ⟨s, rfl⟩
  | var v => cases h
  | inline name args => cases h
  | opening name args => cases h
  | closing name => cases h

theorem joinText_of_head {i : Item} {items : List Item}
    (h : ∀ j ∈ items.head?, j.isText = false) : joinText i items = i :: items := by
  cases i with
  | text s =>
      cases items with
      | nil => rfl
      | cons j items =>
          cases j with
          | text u => cases h _ rfl
          | var v => rfl
          | inline name args => rfl
          | opening name args => rfl
          | closing name => rfl
  | var v => rfl
  | inline name args => rfl
  | opening name args => rfl
  | closing name => rfl

theorem joinText_cases (i : Item) (items : List Item) :
    (∃ s u rest, i = text s ∧ items = text u :: rest ∧ joinText i items = text (s ++ u) :: rest) ∨
      ((i.isText = true → ∀ j ∈ items.head?, j.isText = false) ∧
        joinText i items = i :: items) := by
  cases hi : i.isText with
  | false => exact Or.inr ⟨fun h => (Bool.false_ne_true h).elim, joinText_of_isText hi items⟩
  | true =>
      cases items with
      | nil => exact Or.inr ⟨fun _ => by simp, joinText_of_head (by simp)⟩
      | cons j rest =>
          cases hj : j.isText with
          | false =>
              have hhead : ∀ k ∈ (j :: rest).head?, k.isText = false := by
                rintro k hk
                obtain rfl := Option.some.inj hk
                exact hj
              exact Or.inr ⟨fun _ => hhead, joinText_of_head hhead⟩
          | true =>
              obtain ⟨s, rfl⟩ := exists_eq_text hi
              obtain ⟨u, rfl⟩ := exists_eq_text hj
              exact Or.inl ⟨s, u, rest, rfl, rfl, rfl⟩

theorem joinText_append {i j : Item} {items rest : List Item} :
    joinText i (j :: items ++ rest) = joinText i (j :: items) ++ rest := by
  cases i <;> cases j <;> rfl

/-- No text is joined across an item that is none. -/
theorem mergeRow_append {i : Item} (h : i.isText = false) (items rest : List Item) :
    mergeRow (items ++ i :: rest) = mergeRow items ++ i :: mergeRow rest := by
  induction items with
  | nil => exact joinText_of_isText h _
  | cons j items ih =>
      rw [List.cons_append, mergeRow_cons, mergeRow_cons, ih]
      cases hrow : mergeRow items with
      | nil =>
          rw [List.nil_append, joinText_of_head fun k hk => ?_, joinText_of_head (by simp)]
          · rfl
          · obtain rfl := Option.some.inj hk
            exact h
      | cons k row => exact joinText_append

variable {registry : Registry}

/-- Two texts may be joined if the first does not end with a brace. -/
theorem clean_text_append {s t : List Char} (hs : (text s).Clean registry)
    (ht : (text t).Clean registry) (hlast : s.getLast? ≠ some '{') :
    (text (s ++ t)).Clean registry := by
  refine ⟨fun hnil => hs.1 (List.append_eq_nil_iff.mp hnil).1, fun d hin => ?_⟩
  obtain ⟨c, hc⟩ := d.exists_opener_eq
  have hnot := hs.2 d
  have hnot' := ht.2 d
  rw [hc] at hin hnot hnot'
  rcases infix_pair_append hin with h | h | ⟨h, _⟩
  · exact hnot h
  · exact hnot' h
  · exact hlast h

/-- An item is put before merged items so that they may still meet, unless it is a text that
ends with a brace. -/
theorem joinText_meets {i : Item} {row : List Item} (hi : i.Clean registry)
    (hrow : ∀ j ∈ row, j.Clean registry) (hmeets : row.IsChain Meets)
    (hlast : row ≠ [] → ∀ s, i = text s → s.getLast? ≠ some '{') :
    (∀ j ∈ joinText i row, j.Clean registry) ∧ (joinText i row).IsChain Meets := by
  rcases joinText_cases i row with ⟨s, u, rest, rfl, rfl, h⟩ | ⟨hnot, h⟩
  · obtain ⟨hu, hrest⟩ := List.forall_mem_cons.mp hrow
    obtain ⟨hfirst, htail⟩ := List.isChain_cons.mp hmeets
    have hjoined := clean_text_append hi hu (hlast (List.cons_ne_nil _ _) s rfl)
    rw [h]
    refine ⟨List.forall_mem_cons.mpr ⟨hjoined, hrest⟩, ?_⟩
    refine List.isChain_cons.mpr ⟨fun k hk w hw => ?_, htail⟩
    cases hw
    rw [List.getLast?_append_of_ne_nil s hu.1]
    exact hfirst k hk u rfl
  · rw [h]
    refine ⟨List.forall_mem_cons.mpr ⟨hi, hrow⟩, ?_⟩
    refine List.isChain_cons.mpr ⟨fun k hk s hs => ⟨?_, ?_⟩, hmeets⟩
    · exact hnot (by rw [hs]; rfl) k hk
    · refine hlast ?_ s hs
      rintro rfl
      cases hk

/-- Merging clean items, of which no text ends with a brace before something else, gives clean
items that may meet. -/
theorem mergeRow_meets {items : List Item} (h : ∀ i ∈ items, i.Clean registry)
    (hloose : items.IsChain Loose) :
    (∀ i ∈ mergeRow items, i.Clean registry) ∧ (mergeRow items).IsChain Meets := by
  induction items with
  | nil => exact ⟨h, .nil⟩
  | cons i items ih =>
      obtain ⟨hi, hitems⟩ := List.forall_mem_cons.mp h
      obtain ⟨hfirst, hrest⟩ := List.isChain_cons.mp hloose
      obtain ⟨hclean, hmeets⟩ := ih hitems hrest
      apply joinText_meets hi hclean hmeets
      intro hne s hs
      cases items with
      | nil => exact absurd rfl hne
      | cons k items => exact hfirst k rfl s hs

end Item

namespace Token

theorem itemsAll_joinText_text (s : List Char) (us : List Token) :
    itemsAll (joinText (text s) us) = Item.joinText (.text s) (itemsAll us) := by
  cases us with
  | nil => rfl
  | cons u us => cases u <;> rfl

mutual

theorem items_merge : (t : Token) → (merge t).items = Item.mergeRow t.items
  | text _ => rfl
  | tag _ => rfl
  | var _ => rfl
  | block t ts => by
      rw [merge, items, items, itemsAll_mergeAll ts, List.cons_append, List.cons_append,
        Item.mergeRow_cons, Item.mergeRow_append rfl]
      rfl

/-- Merging a forest is merging its items. -/
theorem itemsAll_mergeAll : (ts : List Token) →
    itemsAll (mergeAll ts) = Item.mergeRow (itemsAll ts)
  | [] => rfl
  | .text s :: ts => by
      change itemsAll (joinText (.text s) (mergeAll ts)) = _
      rw [itemsAll_joinText_text, itemsAll_mergeAll ts]
      rfl
  | .tag t :: ts => by
      change itemsAll (.tag t :: mergeAll ts) = _
      rw [itemsAll, itemsAll_mergeAll ts]
      rfl
  | .var v :: ts => by
      change itemsAll (.var v :: mergeAll ts) = _
      rw [itemsAll, itemsAll_mergeAll ts]
      rfl
  | .block t body :: ts => by
      let row := .opening t.name t.args :: itemsAll body
      let close : Item := .closing t.name
      calc itemsAll (mergeAll (.block t body :: ts))
          = items (merge (.block t body)) ++ itemsAll (mergeAll ts) := rfl
        _ = Item.mergeRow (row ++ [close]) ++ Item.mergeRow (itemsAll ts) := by
            rw [items_merge (.block t body), itemsAll_mergeAll ts]
            rfl
        _ = Item.mergeRow row ++ close :: Item.mergeRow (itemsAll ts) := by
            rw [Item.mergeRow_append rfl, List.append_assoc]
            rfl
        _ = Item.mergeRow (row ++ close :: itemsAll ts) := (Item.mergeRow_append rfl _ _).symm
        _ = Item.mergeRow (itemsAll (.block t body :: ts)) := by
            simp only [itemsAll, items, row, close, List.append_assoc, List.cons_append,
              List.nil_append]

end

/-- Forests that fit are the same up to merging if their items are. -/
theorem mergeAll_eq_of_mergeRow_eq {registry : Registry} {maxDepth : Nat}
    {ts us : List Token}
    (hts : FitsAll registry maxDepth [] ts) (hus : FitsAll registry maxDepth [] us)
    (h : Item.mergeRow (itemsAll ts) = Item.mergeRow (itemsAll us)) :
    mergeAll ts = mergeAll us := by
  apply Nesting.eq_of_itemsAll_eq (fitsAll_mergeAll ts hts) (fitsAll_mergeAll us hus)
  rw [itemsAll_mergeAll, itemsAll_mergeAll, h]

end Token

end TemplateMarkup
