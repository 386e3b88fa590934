import TemplateMarkup.Proofs.RoundTrip.ReadItems

/-! # Clean tokens

The lexemes of all tokens of a source are proper ones, in every body as at the
top level. Inside a block no text ends with a brace, as the tag that closes the
block stands behind it; at the top level only the last text may.
-/

namespace TemplateMarkup

open Text

namespace Token

variable {registry : Registry}

/-- Whether the lexemes of a token are proper ones: a text is not empty and holds no opener, a tag
has proper words, a variable proper names and arguments. The closing tag of a block is not
registered as a tag of its own. What stands in a block has to be looked at separately. -/
def Clean (registry : Registry) : Token → Prop
  | text s => s ≠ [] ∧ ∀ d : Delimiter, ¬ d.opener <:+: s
  | tag t => ∀ w ∈ t.name :: t.args, Item.CleanWord w
  | block t _ =>
      (∀ w ∈ t.name :: t.args, Item.CleanWord w) ∧ registry.get? (closerName t.name) = none
  | var v => v.Clean

/-- Whether all sequences of a forest are made of clean tokens and end as they may. -/
structure CleanForest (registry : Registry) (ts : List Token) : Prop where
  /-- The tokens of the forest and of every body in it are clean. -/
  tokens : ∀ row ∈ sequences ts, ∀ u ∈ row, u.Clean registry
  /-- Only the very last token may be a text that ends with a brace. -/
  braces : ∀ s, .text s ∈ ts.dropLast ++ (bodiesAll ts).flatten → s.getLast? ≠ some '{'
  /-- Not all of the forest is blank. -/
  seen : ts = [] ∨ ∃ u ∈ ts, u.isBlank = false

theorem clean_of_items {u : Token} (h : ∀ i ∈ u.items, i.Clean registry) : u.Clean registry := by
  cases u with
  | text s => exact h (.text s) (List.mem_singleton_self _)
  | tag t => exact h (.inline t.name t.args) (List.mem_singleton_self _)
  | var v => exact h (.var v) (List.mem_singleton_self _)
  | block t ts =>
      have hopening := h (.opening t.name t.args) (List.mem_cons_self ..)
      have hclosing := h (.closing t.name)
        (List.mem_cons_of_mem _ (List.mem_append_right _ (List.mem_singleton_self _)))
      exact ⟨hopening, hclosing.2⟩

theorem items_subset_itemsAll {u : Token} {ts : List Token} (h : u ∈ ts) :
    u.items ⊆ itemsAll ts := by
  obtain ⟨us, vs, rfl⟩ := List.append_of_mem h
  rw [itemsAll_append, itemsAll]
  exact List.subset_append_of_subset_right _ (List.subset_append_left ..)

mutual

/-- The items of a body stand before the closing tag of the token around it. -/
theorem itemsAll_subset_items : (t : Token) →
    ∀ row ∈ bodies t, itemsAll row ⊆ t.items.dropLast
  | text _, _, h => nomatch h
  | tag _, _, h => nomatch h
  | var _, _, h => nomatch h
  | block t ts, row, h => by
      have hitems : (block t ts).items.dropLast = .opening t.name t.args :: itemsAll ts := by
        rw [items, List.dropLast_concat]
      rw [hitems]
      refine List.Subset.trans ?_ (List.subset_cons_self ..)
      rcases List.mem_cons.mp h with rfl | h
      · exact List.Subset.refl _
      · exact itemsAll_subset_itemsAll ts row h

theorem itemsAll_subset_itemsAll : (ts : List Token) →
    ∀ row ∈ bodiesAll ts, itemsAll row ⊆ itemsAll ts
  | [], _, h => nomatch h
  | t :: ts, row, h => by
      rw [itemsAll]
      rcases List.mem_append.mp h with h | h
      · exact List.subset_append_of_subset_left _
          (List.Subset.trans (itemsAll_subset_items t row h) (List.dropLast_subset _))
      · exact List.subset_append_of_subset_right _ (itemsAll_subset_itemsAll ts row h)

end

/-- Where all items are clean, so are the tokens of every sequence. -/
theorem clean_of_itemsAll {ts : List Token} (h : ∀ i ∈ itemsAll ts, i.Clean registry) :
    ∀ row ∈ sequences ts, ∀ u ∈ row, u.Clean registry := by
  intro row hrow u hu
  have hsubset : itemsAll row ⊆ itemsAll ts := by
    rcases List.mem_cons.mp hrow with rfl | hrow
    · exact List.Subset.refl _
    · exact itemsAll_subset_itemsAll ts row hrow
  exact clean_of_items fun i hi => h i (hsubset (items_subset_itemsAll hu hi))

theorem bodiesAll_append (ts us : List Token) :
    bodiesAll (ts ++ us) = bodiesAll ts ++ bodiesAll us := by
  induction ts with
  | nil => rfl
  | cons t ts ih => simp [bodiesAll, ih]

/-- Behind every text but the last one of the top level an item follows. -/
theorem mem_dropLast_itemsAll {ts : List Token} {s : List Char}
    (h : .text s ∈ ts.dropLast ++ (bodiesAll ts).flatten) :
    .text s ∈ (itemsAll ts).dropLast := by
  have hself {row : List Token} (hs : .text s ∈ row) : Item.text s ∈ itemsAll row :=
    items_subset_itemsAll hs (List.mem_singleton_self _)
  rcases List.eq_nil_or_concat ts with rfl | ⟨us, u, rfl⟩
  · cases h
  · have hitems : (itemsAll (us ++ [u])).dropLast = itemsAll us ++ u.items.dropLast := by
      simp [itemsAll, List.dropLast_append_of_ne_nil (items_ne_nil u)]
    rw [List.concat_eq_append] at h ⊢
    rw [List.dropLast_concat, bodiesAll_append, List.flatten_append] at h
    rw [hitems]
    rcases List.mem_append.mp h with hs | h
    · exact List.mem_append_left _ (hself hs)
    · rcases List.mem_append.mp h with h | h
      · obtain ⟨row, hrow, hs⟩ := List.mem_flatten.mp h
        exact List.mem_append_left _ (itemsAll_subset_itemsAll us row hrow (hself hs))
      · obtain ⟨row, hrow, hs⟩ := List.mem_flatten.mp h
        rw [bodiesAll, bodiesAll, List.append_nil] at hrow
        exact List.mem_append_right _ (itemsAll_subset_items u row hrow (hself hs))

end Token

/-- In a row of items as they are read, a text before another item does not end with a brace. -/
theorem Item.getLast?_of_isChain_loose {items : List Item} (h : items.IsChain Loose)
    {s : List Char} (hs : .text s ∈ items.dropLast) : s.getLast? ≠ some '{' := by
  induction items with
  | nil => cases hs
  | cons i items ih =>
      cases items with
      | nil => cases hs
      | cons j items =>
          obtain ⟨hloose, hrest⟩ := List.isChain_cons_cons.mp h
          rw [List.dropLast_cons_cons] at hs
          rcases List.mem_cons.mp hs with hself | hs
          · exact hloose s hself.symm
          · exact ih hrest hs

namespace Tokenizer

open Token

variable {t : Tokenizer} {source : List Char} {ts : List Token}

theorem clearBlank_cases (ts : List Token) :
    clearBlank ts = [] ∨ clearBlank ts = ts ∧ ∃ u ∈ ts, u.isBlank = false := by
  unfold clearBlank
  split
  case isTrue => exact .inl rfl
  case isFalse hseen =>
    obtain ⟨u, hu, hblank⟩ := List.all_eq_false.mp (Bool.eq_false_iff.mpr hseen)
    exact .inr ⟨rfl, u, hu, Bool.eq_false_iff.mpr hblank⟩

/-- The tokens of a source form a clean forest: every lexeme at every depth is a proper one, no
text but the last one of the top level ends with a brace, and blank text alone is no forest. -/
theorem cleanForest_of_tokenize (h : t.tokenize source = .ok ts) :
    CleanForest t.registry ts := by
  obtain ⟨us, hforest, rfl⟩ := tokenize_eq_ok_iff.mp h
  rcases clearBlank_cases us with hnil | ⟨hself, hseen⟩
  · rw [hnil]
    refine ⟨?_, fun s hs => absurd hs List.not_mem_nil, .inl rfl⟩
    exact List.forall_mem_singleton.mpr (List.forall_mem_nil _)
  · rw [hself]
    obtain ⟨hclean, hloose⟩ := items_of_forest hforest
    refine ⟨clean_of_itemsAll hclean, fun s hs => ?_, .inr hseen⟩
    exact Item.getLast?_of_isChain_loose hloose (mem_dropLast_itemsAll hs)

/-- A quoted gap in a tag, a variable at the end of its body, and a brace at the very end. -/
theorem cleanForest_of_tokenize_block_text :
    CleanForest (.ofList [(['i', 'f'], .block)])
      [.text ['a'], .block ⟨['i', 'f'], [['"', ' ', '"']], .block, []⟩
        [.text ['b'], .var ⟨['x'], [⟨['f'], [['1']]⟩], true, none⟩], .text ['{']] := by
  have hread : (⟨.ofList [(['i', 'f'], .block)], 1⟩ : Tokenizer).tokenize
      (['a', '{', '%', 'i', 'f', ' ', '"', ' ', '"', '%', '}', 'b', '{', '{', '!', 'x', '|', 'f',
        '(', '1', ')', '}', '}', '{', '%', 'e', 'n', 'd', 'i', 'f', '%', '}', '{']) =
      .ok [.text ['a'], .block ⟨['i', 'f'], [['"', ' ', '"']], .block, []⟩
        [.text ['b'], .var ⟨['x'], [⟨['f'], [['1']]⟩], true, none⟩], .text ['{']] := by rfl
  exact cleanForest_of_tokenize hread

end Tokenizer

end TemplateMarkup
