import TemplateMarkup.Proofs.RoundTrip.Pieces

/-! # Well-formed forests

Tokenizing undoes writing on every forest whose lexemes are proper ones, whose
tags are as the registry, the surrounding blocks and the limit demand, and
whose texts neither meet another text nor end with a brace before something
else.
-/

namespace TemplateMarkup

open Text

namespace Token

mutual

theorem isChain_items : (t : Token) → (∀ row ∈ bodies t, Apart row) →
    (∀ row ∈ bodies t, ∀ s, .text s ∈ row → s.getLast? ≠ some '{') →
      t.items.IsChain Item.Meets
  | text _, _, _ => .singleton _
  | tag _, _, _ => .singleton _
  | var _, _, _ => .singleton _
  | block t ts, hapart, hbrace => by
      have hbody := List.mem_cons_self (a := ts) (l := bodiesAll ts)
      have hts := isChain_itemsAll ts hapart
        (fun s hs => hbrace ts hbody s (List.dropLast_subset ts hs))
        (fun row hrow => hbrace row (List.mem_cons_of_mem ts hrow))
      have hclose : (itemsAll ts ++ [Item.closing t.name]).IsChain Item.Meets := by
        refine List.isChain_append.mpr ⟨hts, .singleton _, ?_⟩
        intro i hi j hj s hs
        subst hs
        obtain rfl := List.mem_singleton.mp (List.mem_of_head? hj)
        have hlast := getLast?_of_getLast?_itemsAll hi
        exact ⟨rfl, hbrace ts hbody s (List.mem_of_getLast? hlast)⟩
      refine List.isChain_cons.mpr ⟨?_, hclose⟩
      intro j _ s hs
      cases hs

/-- Where texts are apart and end with a brace at the very end only, neighbouring items may
meet. -/
theorem isChain_itemsAll : (ts : List Token) → (∀ row ∈ sequences ts, Apart row) →
    (∀ s, .text s ∈ ts.dropLast → s.getLast? ≠ some '{') →
      (∀ row ∈ bodiesAll ts, ∀ s, .text s ∈ row → s.getLast? ≠ some '{') →
        (itemsAll ts).IsChain Item.Meets
  | [], _, _, _ => .nil
  | t :: ts, hapart, hlast, hbrace => by
      obtain ⟨hrow, hbodies⟩ := List.forall_mem_cons.mp hapart
      obtain ⟨htbodies, htsbodies⟩ := List.forall_mem_append.mp hbodies
      obtain ⟨htbrace, htsbrace⟩ := List.forall_mem_append.mp hbrace
      have ht := isChain_items t htbodies htbrace
      cases ts with
      | nil => simpa [itemsAll] using ht
      | cons u us =>
          obtain ⟨htu, hus⟩ := List.isChain_cons_cons.mp hrow
          have hus := isChain_itemsAll (u :: us) (List.forall_mem_cons.mpr ⟨hus, htsbodies⟩)
            (fun s hs => hlast s (List.mem_cons_of_mem t hs)) htsbrace
          refine List.isChain_append.mpr ⟨ht, hus, ?_⟩
          intro i hi j hj s hs
          subst hs
          obtain rfl := eq_text_of_getLast?_items hi
          have hj := isText_of_head?_itemsAll hj
          refine ⟨?_, hlast s (List.mem_cons_self ..)⟩
          rw [hj]
          exact Bool.eq_false_iff.mpr fun hu => htu ⟨rfl, hu⟩

end

/-- Whether a forest can be read back by a tokenizer from what it is written as. -/
structure WellFormed (t : Tokenizer) (ts : List Token) : Prop where
  /-- The lexemes of all tokens are proper ones, and no closing tag is registered. -/
  items : ∀ item ∈ itemsAll ts, item.Clean t.registry
  /-- No two texts follow one another in a sequence. -/
  apart : ∀ row ∈ sequences ts, Apart row
  /-- Only the very last token may be a text that ends with a brace. -/
  braces : ∀ s, .text s ∈ ts.dropLast ++ (bodiesAll ts).flatten → s.getLast? ≠ some '{'
  /-- Every tag is as the registry, the blocks around it and the limit demand. -/
  fits : FitsAll t.registry t.maxDepth [] ts
  /-- Not all of the forest is blank. -/
  seen : ts = [] ∨ ∃ u ∈ ts, u.isBlank = false

end Token

open Token

namespace Tokenizer

theorem clearBlank_of_seen {ts : List Token} (h : ts = [] ∨ ∃ u ∈ ts, u.isBlank = false) :
    clearBlank ts = ts := by
  rcases h with rfl | ⟨u, hu, hblank⟩
  · rfl
  · have hall : ts.all Token.isBlank = false := List.all_eq_false.mpr ⟨u, hu, by simp [hblank]⟩
    simp [clearBlank, hall]

/-- Tokenizing undoes writing on every well-formed forest. -/
theorem tokenize_displayAll_of_wellFormed {t : Tokenizer} {ts : List Token}
    (h : WellFormed t ts) : t.tokenize (displayAll ts) = .ok ts := by
  have hmeets : (itemsAll ts).IsChain Item.Meets := by
    refine isChain_itemsAll ts h.apart (fun s hs => h.braces s (List.mem_append_left _ hs)) ?_
    intro row hrow s hs
    exact h.braces s (List.mem_append_right _ (List.mem_flatten.mpr ⟨row, hrow, hs⟩))
  have hforest := forest_displayAll h.items hmeets h.fits
  exact tokenize_eq_ok_iff.mpr ⟨ts, hforest, clearBlank_of_seen h.seen⟩

/-- A block with a quoted gap among its words and a filtered variable in its body, before a text
that ends with a brace. -/
theorem tokenize_displayAll_block_text :
    (⟨.ofList [(['i', 'f'], .block)], 1⟩ : Tokenizer).tokenize
        (displayAll [.block ⟨['i', 'f'], [['"', ' ', '"']], .block, []⟩
          [.var ⟨['x'], [⟨['f'], [['1']]⟩], true, some []⟩], .text ['a', '{']]) =
      .ok [.block ⟨['i', 'f'], [['"', ' ', '"']], .block, []⟩
        [.var ⟨['x'], [⟨['f'], [['1']]⟩], true, some []⟩], .text ['a', '{']] := by
  refine tokenize_displayAll_of_wellFormed ⟨?_, ?_, ?_, ?_, Or.inr ⟨_, List.mem_cons_self .., rfl⟩⟩
  · have hname : Item.CleanWord ['i', 'f'] := by
      refine ⟨⟨by decide, by decide, ?_⟩, by decide⟩
      exact List.forall_mem_cons.mpr ⟨rfl, List.forall_mem_singleton.mpr rfl⟩
    have harg : Item.CleanWord ['"', ' ', '"'] :=
      ⟨⟨by decide, by decide, List.forall_mem_nil _⟩, by decide⟩
    have hvar : Variable.Clean ⟨['x'], [⟨['f'], [['1']]⟩], true, some []⟩ := by
      refine ⟨?_, ?_, by decide⟩
      · intro w hw
        have hcases : w = ['x'] ∨ w = ['f'] := by simpa [Variable.names] using hw
        rcases hcases with rfl | rfl <;> exact ⟨by decide, List.forall_mem_singleton.mpr rfl⟩
      · intro a ha
        obtain rfl : a = ['1'] := by simpa [Variable.arguments] using ha
        exact ⟨⟨by decide, rfl, rfl, by decide, ['1'], by decide, by decide⟩, by decide, by decide⟩
    have htext : Item.Clean (.ofList [(['i', 'f'], .block)]) (.text ['a', '{']) := by
      refine ⟨by decide, fun d => ?_⟩
      cases d <;> decide
    intro item hitem
    simp only [itemsAll, items, List.cons_append, List.nil_append, List.mem_cons,
      List.not_mem_nil, or_false] at hitem
    rcases hitem with rfl | rfl | rfl | rfl
    · exact List.forall_mem_cons.mpr ⟨hname, List.forall_mem_singleton.mpr harg⟩
    · exact hvar
    · exact ⟨hname, by decide⟩
    · exact htext
  · simp only [sequences, bodiesAll, bodies, List.append_nil, List.forall_mem_cons]
    exact ⟨.cons_cons (by decide) (.singleton _), .singleton _, List.forall_mem_nil _⟩
  · intro s hs
    simp [bodiesAll, bodies] at hs
  · exact ⟨⟨⟨by decide, rfl, rfl⟩, by decide, trivial, trivial⟩, trivial, trivial⟩

end Tokenizer

end TemplateMarkup
