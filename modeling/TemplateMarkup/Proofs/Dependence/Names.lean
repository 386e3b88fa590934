import Mathlib.Data.List.Induction
import TemplateMarkup.Proofs.Forest.Reading

/-! # Names that matter

A source asks its registry for few names: for the first words of its tags, and
for the blocks which those words would close. Registries that agree on these
names lead to the same outcome, whatever else they hold and however they were
put together.
-/

namespace TemplateMarkup

open Outcome

namespace Registry

/-- The last entry of a name in a row is the one that counts. -/
theorem get?_ofList (pairs : List (List Char × TagKind)) (name : List Char) :
    (ofList pairs).get? name = pairs.reverse.lookup name := by
  induction pairs using List.reverseRecOn with
  | nil => rfl
  | append_singleton pairs entry ih =>
      obtain ⟨key, kind⟩ := entry
      rw [get?_ofList_append, List.reverse_concat, List.lookup_cons, ih]
      by_cases hkey : name = key
      · simp [hkey]
      · simp [hkey, beq_false_of_ne hkey]

end Registry

/-- Whether a name is asked for when a tag with a given first word is read: the word itself, or
the block that it would close. -/
def AskedBy (word name : List Char) : Prop :=
  name = word ∨ word = closerName name ∧ name ≠ []

/-- Whether the tags of a source ask for a name. -/
def Asks (source name : List Char) : Prop :=
  ∃ segments interior offset word args, scan source = .ok segments ∧
    .tag interior offset ∈ segments ∧ tagWords interior offset = .ok (word :: args) ∧
      AskedBy word name

variable {r r' : Registry} {segments : List Segment}

namespace Item

theorem ofCloser_congr {target : List Char} (h : r.get? target = r'.get? target)
    (args : List (List Char)) (offset : Nat) :
    ofCloser r target args offset = ofCloser r' target args offset := by
  rw [ofCloser, ofCloser, h]

/-- Only the first of the words of a tag is looked up. -/
theorem ofWords_congr {word : List Char}
    (h : ∀ name, AskedBy word name → r.get? name = r'.get? name)
    (args : List (List Char)) (offset : Nat) :
    ofWords r offset (word :: args) = ofWords r' offset (word :: args) := by
  rw [ofWords, ofWords, h word (Or.inl rfl)]
  cases htarget : closerTarget? word with
  | none => rfl
  | some target =>
      have hasked : AskedBy word target := Or.inr (closerTarget?_eq_some_iff.mp htarget)
      simp only [ofCloser_congr (h target hasked) args offset]

theorem ofSegment_congr {s : Segment}
    (h : ∀ interior offset word args name, s = .tag interior offset →
      tagWords interior offset = .ok (word :: args) → AskedBy word name →
        r.get? name = r'.get? name) :
    ofSegment r s = ofSegment r' s := by
  cases s with
  | text text offset => rfl
  | var interior escape offset => rfl
  | tag interior offset =>
      rw [ofSegment, ofSegment]
      cases hwords : tagWords interior offset with
      | error e => rfl
      | ok words =>
          cases words with
          | nil => rfl
          | cons word args =>
              have hasked : ∀ name, AskedBy word name → r.get? name = r'.get? name :=
                fun name => h interior offset word args name rfl hwords
              exact ofWords_congr hasked args offset

end Item

namespace Tokenizer

variable {maxDepth : Nat}

/-- Registries from which every segment is read alike nest them alike. -/
theorem nest_congr (h : ∀ s ∈ segments, Item.ofSegment r s = Item.ofSegment r' s) (n : Nesting) :
    (⟨r, maxDepth⟩ : Tokenizer).nest n segments =
      (⟨r', maxDepth⟩ : Tokenizer).nest n segments := by
  induction segments generalizing n with
  | nil => rfl
  | cons s segments ih =>
      obtain ⟨hs, hsegments⟩ := List.forall_mem_cons.mp h
      rw [nest_cons, nest_cons, step, step, hs]
      exact congrArg _ (funext fun next => ih hsegments next)

theorem tokenize_congr {source : List Char}
    (h : ∀ name, Asks source name → r.get? name = r'.get? name) :
    (⟨r, maxDepth⟩ : Tokenizer).tokenize source = (⟨r', maxDepth⟩ : Tokenizer).tokenize source := by
  cases hscan : scan source with
  | error e =>
      rw [tokenize, tokenize, forest, forest, hscan]
      rfl
  | ok segments =>
      have hread : ∀ s ∈ segments, Item.ofSegment r s = Item.ofSegment r' s := by
        intro s hs
        refine Item.ofSegment_congr fun interior offset word args name htag hwords hname => ?_
        exact h name ⟨segments, interior, offset, word, args, hscan, htag ▸ hs, hwords, hname⟩
      rw [tokenize, tokenize, forest_of_scan hscan, forest_of_scan hscan, nest_congr hread]

/-- Registries that agree on the names a source asks for give it the same outcome. So do rows of
definitions in which the last entries of these names agree, whatever their order and their
repetitions, and a registry in which another name is defined or defined again. -/
theorem tokenize_eq_of_agree (maxDepth : Nat) (source : List Char) :
    (∀ r r' : Registry, (∀ name, Asks source name → r.get? name = r'.get? name) →
      (⟨r, maxDepth⟩ : Tokenizer).tokenize source =
        (⟨r', maxDepth⟩ : Tokenizer).tokenize source) ∧
    (∀ pairs others : List (List Char × TagKind),
      (∀ name, Asks source name → pairs.reverse.lookup name = others.reverse.lookup name) →
        (⟨.ofList pairs, maxDepth⟩ : Tokenizer).tokenize source =
          (⟨.ofList others, maxDepth⟩ : Tokenizer).tokenize source) ∧
    ∀ (r : Registry) (name : List Char) (kind : TagKind), ¬ Asks source name →
      (⟨r.define name kind, maxDepth⟩ : Tokenizer).tokenize source =
        (⟨r, maxDepth⟩ : Tokenizer).tokenize source := by
  refine ⟨fun r r' => tokenize_congr, fun pairs others h => tokenize_congr fun name hname => ?_,
    fun r name kind h => tokenize_congr fun other hother => ?_⟩
  · rw [Registry.get?_ofList, Registry.get?_ofList, h name hname]
  · rw [Registry.get?_define, if_neg]
    rintro rfl
    exact h hother

/-- A block that was inline before, and another name that no tag has. -/
theorem tokenize_eq_of_agree_redefined :
    (∀ name, Asks (displayWords [['a']] ++ displayWords [closerName ['a']]) name →
      [(['b'], TagKind.block), (['a'], .inline), (['a'], .block)].reverse.lookup name =
        [(['a'], TagKind.block)].reverse.lookup name) ∧
    (⟨.ofList [(['b'], .block), (['a'], .inline), (['a'], .block)], 1⟩ : Tokenizer).tokenize
        (displayWords [['a']] ++ displayWords [closerName ['a']]) =
      .ok [.block ⟨['a'], [], .block, []⟩ []] := by
  have hagree : ∀ name, Asks (displayWords [['a']] ++ displayWords [closerName ['a']]) name →
      [(['b'], TagKind.block), (['a'], .inline), (['a'], .block)].reverse.lookup name =
        [(['a'], TagKind.block)].reverse.lookup name := by
    rintro name ⟨segments, interior, offset, word, args, hscan, hmem, hwords, hname⟩
    have hfound : scan (displayWords [['a']] ++ displayWords [closerName ['a']]) =
        .ok [.tag [' ', 'a', ' '] 0, .tag [' ', 'e', 'n', 'd', 'a', ' '] 7] := by rfl
    cases hscan.symm.trans hfound
    have hopen : tagWords [' ', 'a', ' '] 0 = .ok [['a']] := by rfl
    have hclose : tagWords [' ', 'e', 'n', 'd', 'a', ' '] 7 = .ok [['e', 'n', 'd', 'a']] := by rfl
    rcases List.mem_cons.mp hmem with htag | htag
    · cases htag
      cases hwords.symm.trans hopen
      rcases hname with rfl | ⟨hcloser, _⟩
      · decide
      · cases hcloser
    · cases List.mem_singleton.mp htag
      cases hwords.symm.trans hclose
      rcases hname with rfl | ⟨hcloser, _⟩
      · decide
      · cases hcloser
        decide
  have hread : (⟨.ofList [(['a'], .block)], 1⟩ : Tokenizer).tokenize
      (displayWords [['a']] ++ displayWords [closerName ['a']]) =
      .ok [.block ⟨['a'], [], .block, []⟩ []] := by rfl
  exact ⟨hagree, ((tokenize_eq_of_agree 1 _).2.1 _ _ hagree).trans hread⟩

end Tokenizer

end TemplateMarkup
