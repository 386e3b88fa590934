import TemplateMarkup.Proofs.Forest.Linear

/-! # Enclosure

A forest may become the body of a block. Then every tag in it names the block
before all others around it, and nothing else changes. Every body arises in this
way from one forest, which fits under a limit that is lower by one.
-/

namespace TemplateMarkup

/-- A tag with one more block around all those it names. -/
def Tag.within (name : List Char) (t : Tag) : Tag :=
  { t with ancestors := name :: t.ancestors }

theorem Tag.exists_within {t : Tag} {name : List Char} {around : List (List Char)}
    (h : t.ancestors = name :: around) : ∃ u : Tag, u.within name = t :=
  ⟨{ t with ancestors := around }, by rw [Tag.within, ← h]⟩

namespace Token

mutual

/-- A token with one more block around it. -/
def within (name : List Char) : Token → Token
  | text s => text s
  | var v => var v
  | tag t => tag (t.within name)
  | block t ts => block (t.within name) (withinAll name ts)

/-- A row of tokens with one more block around it. -/
def withinAll (name : List Char) : List Token → List Token
  | [] => []
  | t :: ts => within name t :: withinAll name ts

end

variable {registry : Registry} {maxDepth : Nat} {name : List Char}

mutual

theorem items_within (name : List Char) : (t : Token) → (within name t).items = t.items
  | text _ => rfl
  | var _ => rfl
  | tag _ => rfl
  | block t ts => by
      rw [within, items, itemsAll_withinAll name ts]
      rfl

/-- The items of a forest say nothing about what is around it. -/
theorem itemsAll_withinAll (name : List Char) :
    (ts : List Token) → itemsAll (withinAll name ts) = itemsAll ts
  | [] => rfl
  | t :: ts => by rw [withinAll, itemsAll, items_within name t, itemsAll_withinAll name ts, itemsAll]

end

mutual

theorem fits_within_iff : {around : List (List Char)} → (t : Token) →
    (Fits registry (maxDepth + 1) (name :: around) (within name t) ↔
      Fits registry maxDepth around t)
  | _, text _ => Iff.rfl
  | _, var _ => Iff.rfl
  | _, tag t => by simp [within, Fits, Tag.within]
  | around, block t ts => by
      have hts : FitsAll registry (maxDepth + 1) (name :: (around ++ [t.name])) (withinAll name ts) ↔
          FitsAll registry maxDepth (around ++ [t.name]) ts := fitsAll_withinAll_iff ts
      simp only [within, Fits, Tag.within, List.cons_append, hts, List.cons.injEq, true_and,
        List.length_cons, Nat.add_lt_add_iff_right]

/-- With one more block around it a forest fits under a limit that is higher by one. -/
theorem fitsAll_withinAll_iff : {around : List (List Char)} → (ts : List Token) →
    (FitsAll registry (maxDepth + 1) (name :: around) (withinAll name ts) ↔
      FitsAll registry maxDepth around ts)
  | _, [] => Iff.rfl
  | _, t :: ts => and_congr (fits_within_iff t) (fitsAll_withinAll_iff ts)

end

mutual

theorem exists_within : {around : List (List Char)} → (t : Token) →
    Fits registry maxDepth (name :: around) t → ∃ u, within name u = t
  | _, text s, _ => ⟨text s, rfl⟩
  | _, var v, _ => ⟨var v, rfl⟩
  | _, tag t, h => by
      obtain ⟨u, rfl⟩ := Tag.exists_within h.2.2
      exact ⟨tag u, rfl⟩
  | _, block t ts, h => by
      obtain ⟨u, rfl⟩ := Tag.exists_within h.1.2.2
      obtain ⟨us, rfl⟩ := exists_withinAll ts h.2.2
      exact ⟨block u us, rfl⟩

/-- A forest that fits inside a block is another one with the block around it. -/
theorem exists_withinAll : {around : List (List Char)} → (ts : List Token) →
    FitsAll registry maxDepth (name :: around) ts → ∃ us, withinAll name us = ts
  | _, [], _ => ⟨[], rfl⟩
  | _, t :: ts, h => by
      obtain ⟨u, rfl⟩ := exists_within t h.1
      obtain ⟨us, rfl⟩ := exists_withinAll ts h.2
      exact ⟨u :: us, rfl⟩

end

end Token

end TemplateMarkup
