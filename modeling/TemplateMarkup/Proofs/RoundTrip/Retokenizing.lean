import TemplateMarkup.Proofs.RoundTrip.MergedItems

/-! # Tokenizing again

The tokens of a source can be written and tokenized again. Nothing is lost on
the way, and nothing changes except that texts which followed one another are
one text afterwards.
-/

namespace TemplateMarkup.Tokenizer

open Token

variable {t : Tokenizer} {source : List Char} {ts : List Token}

/-- The tokens of a source, blank or not, are read back with their texts joined. -/
theorem forest_displayAll_of_forest (h : t.forest source = .ok ts) :
    t.forest (displayAll ts) = .ok (mergeAll ts) := by
  obtain ⟨_, _, hfits, _⟩ := forest_eq_ok_iff.mp h
  obtain ⟨hclean, hloose⟩ := items_of_forest h
  obtain ⟨hmerged, hmeets⟩ := Item.mergeRow_meets hclean hloose
  rw [← itemsAll_mergeAll] at hmerged hmeets
  rw [← displayAll_mergeAll ts]
  exact forest_displayAll hmerged hmeets (fitsAll_mergeAll ts hfits)

theorem forest_nil (t : Tokenizer) : t.forest [] = .ok [] := by
  have hforest : t.forest (displayAll []) = .ok [] :=
    forest_displayAll (List.forall_mem_nil _) .nil trivial
  exact hforest

theorem clearBlank_mergeAll (ts : List Token) :
    clearBlank (mergeAll ts) = mergeAll (clearBlank ts) := by
  unfold clearBlank
  rw [all_isBlank_mergeAll]
  split <;> rfl

theorem clearBlank_clearBlank (ts : List Token) : clearBlank (clearBlank ts) = clearBlank ts := by
  unfold clearBlank
  cases hblank : ts.all Token.isBlank <;> simp [hblank]

/-- Writing the tokens of a source and tokenizing them again gives the same tokens, where texts
that followed one another in a sequence are joined. The second tokens are the first exactly if
no two texts did so, and they are written alike. -/
theorem tokenize_displayAll (h : t.tokenize source = .ok ts) :
    t.tokenize (displayAll ts) = .ok (mergeAll ts) ∧
      (∀ row ∈ sequences (mergeAll ts), Apart row) ∧
        (mergeAll ts = ts ↔ ∀ row ∈ sequences ts, Apart row) ∧
          displayAll (mergeAll ts) = displayAll ts := by
  refine ⟨?_, apart_mergeAll ts, mergeAll_eq_self_iff ts, displayAll_mergeAll ts⟩
  obtain ⟨us, hforest, hclear⟩ := tokenize_eq_ok_iff.mp h
  have hagain : t.forest (displayAll ts) = .ok (mergeAll ts) := by
    subst hclear
    cases hblank : us.all Token.isBlank with
    | true =>
        have hnil : clearBlank us = [] := by simp [clearBlank, hblank]
        rw [hnil]
        exact forest_nil t
    | false =>
        have hself : clearBlank us = us := by simp [clearBlank, hblank]
        rw [hself]
        exact forest_displayAll_of_forest hforest
  refine tokenize_eq_ok_iff.mpr ⟨mergeAll ts, hagain, ?_⟩
  rw [clearBlank_mergeAll, ← hclear, clearBlank_clearBlank]

/-- A comment between two texts, and a block behind it. -/
theorem tokenize_displayAll_across_comment :
    (⟨.ofList [(['i', 'f'], .block)], 1⟩ : Tokenizer).tokenize
        (displayAll [.text ['a'], .text ['b'],
          .block ⟨['i', 'f'], [['x']], .block, []⟩
            [.var ⟨['p'], [⟨['f'], [['1']]⟩], true, none⟩]]) =
      .ok [.text ['a', 'b'],
        .block ⟨['i', 'f'], [['x']], .block, []⟩
          [.var ⟨['p'], [⟨['f'], [['1']]⟩], true, none⟩]] := by
  have hread : (⟨.ofList [(['i', 'f'], .block)], 1⟩ : Tokenizer).tokenize
      ['a', '{', '#', '#', '}', 'b', '{', '%', 'i', 'f', ' ', 'x', '%', '}', '{', '{', '!', 'p',
        '|', 'f', '(', '1', ')', '}', '}', '{', '%', 'e', 'n', 'd', 'i', 'f', '%', '}'] =
      .ok [.text ['a'], .text ['b'],
        .block ⟨['i', 'f'], [['x']], .block, []⟩
          [.var ⟨['p'], [⟨['f'], [['1']]⟩], true, none⟩]] := by rfl
  exact (tokenize_displayAll hread).1

end TemplateMarkup.Tokenizer
