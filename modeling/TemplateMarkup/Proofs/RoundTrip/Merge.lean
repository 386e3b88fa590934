import TemplateMarkup.Proofs.RoundTrip.Pieces

/-! # Merged forests

A comment between two texts leaves no token, so that the texts follow one
another in a sequence. Writing the forest and tokenizing it again joins them,
and changes nothing else.
-/

namespace TemplateMarkup

open Text Outcome

namespace Token

/-- Put a token before a row of tokens, joining it with the first of them if both are texts. -/
def joinText : Token → List Token → List Token
  | text s, text u :: us => text (s ++ u) :: us
  | t, us => t :: us

mutual

/-- Join the texts that follow one another in the bodies of a token. -/
def merge : Token → Token
  | block t ts => block t (mergeAll ts)
  | t => t

/-- Join the texts that follow one another in a row of tokens and in the bodies inside it. -/
def mergeAll : List Token → List Token
  | [] => []
  | t :: ts => joinText (merge t) (mergeAll ts)

end

/-- Unless both are texts, a token is put before a row as it is. -/
theorem joinText_of_not_texts {t : Token} {us : List Token}
    (h : ∀ u ∈ us.head?, ¬ (t.isText = true ∧ u.isText = true)) : joinText t us = t :: us := by
  cases t with
  | tag t => rfl
  | block t ts => rfl
  | var v => rfl
  | text s =>
      cases us with
      | nil => rfl
      | cons u us =>
          cases u with
          | text w => exact absurd ⟨rfl, rfl⟩ (h (text w) rfl)
          | tag t => rfl
          | block t ts => rfl
          | var v => rfl

theorem joinText_cases (t : Token) (us : List Token) :
    (∃ s w vs, t = text s ∧ us = text w :: vs ∧ joinText t us = text (s ++ w) :: vs) ∨
      ((∀ u ∈ us.head?, ¬ (t.isText = true ∧ u.isText = true)) ∧ joinText t us = t :: us) := by
  by_cases h : ∀ u ∈ us.head?, ¬ (t.isText = true ∧ u.isText = true)
  · exact Or.inr ⟨h, joinText_of_not_texts h⟩
  · left
    cases us with
    | nil => simp at h
    | cons u us =>
        cases t <;> cases u <;> simp [isText] at h
        exact ⟨_, _, _, rfl, rfl, rfl⟩

@[simp] theorem displayAll_joinText (t : Token) (us : List Token) :
    displayAll (joinText t us) = t.display ++ displayAll us := by
  rcases joinText_cases t us with ⟨s, w, vs, rfl, rfl, h⟩ | ⟨_, h⟩
  · rw [h]
    simp [displayAll, display]
  · rw [h]
    rfl

mutual

theorem display_merge : (t : Token) → (merge t).display = t.display
  | text _ => rfl
  | tag _ => rfl
  | var _ => rfl
  | block t ts => by rw [merge, display, display, displayAll_mergeAll ts]

/-- Merging changes nothing about what a forest is written as. -/
theorem displayAll_mergeAll : (ts : List Token) → displayAll (mergeAll ts) = displayAll ts
  | [] => rfl
  | t :: ts => by
      rw [mergeAll, displayAll_joinText, display_merge t, displayAll_mergeAll ts, displayAll]

end

variable {registry : Registry} {maxDepth : Nat}

theorem fitsAll_joinText {around : List (List Char)} {t : Token} {us : List Token}
    (ht : Fits registry maxDepth around t) (hus : FitsAll registry maxDepth around us) :
    FitsAll registry maxDepth around (joinText t us) := by
  rcases joinText_cases t us with ⟨s, w, vs, rfl, rfl, h⟩ | ⟨_, h⟩
  · rw [h]
    exact ⟨trivial, hus.2⟩
  · rw [h]
    exact ⟨ht, hus⟩

mutual

theorem fits_merge : {around : List (List Char)} → (t : Token) →
    Fits registry maxDepth around t → Fits registry maxDepth around (merge t)
  | _, text _, h => h
  | _, tag _, h => h
  | _, var _, h => h
  | _, block _ ts, h => ⟨h.1, h.2.1, fitsAll_mergeAll ts h.2.2⟩

theorem fitsAll_mergeAll : {around : List (List Char)} → (ts : List Token) →
    FitsAll registry maxDepth around ts → FitsAll registry maxDepth around (mergeAll ts)
  | _, [], _ => trivial
  | _, t :: ts, h => fitsAll_joinText (fits_merge t h.1) (fitsAll_mergeAll ts h.2)

end

theorem all_isBlank_mergeAll (ts : List Token) :
    (mergeAll ts).all isBlank = ts.all isBlank := by
  induction ts with
  | nil => rfl
  | cons t ts ih =>
      have hmerge : (merge t).isBlank = t.isBlank := by cases t <;> rfl
      rw [mergeAll, List.all_cons, ← ih, ← hmerge]
      rcases joinText_cases (merge t) (mergeAll ts) with ⟨s, w, vs, ht, hts, h⟩ | ⟨_, h⟩
      · rw [h, ht, hts]
        simp [isBlank, Bool.and_assoc]
      · rw [h, List.all_cons]

theorem length_joinText_le (t : Token) (us : List Token) :
    (joinText t us).length ≤ us.length + 1 := by
  rcases joinText_cases t us with ⟨s, w, vs, rfl, rfl, h⟩ | ⟨_, h⟩
  · rw [h]
    simp
  · rw [h, List.length_cons]

theorem length_mergeAll_le (ts : List Token) : (mergeAll ts).length ≤ ts.length := by
  induction ts with
  | nil => exact Nat.le_refl _
  | cons t ts ih =>
      have := length_joinText_le (merge t) (mergeAll ts)
      rw [mergeAll, List.length_cons]
      omega

theorem forall_mem_sequences_cons {t : Token} {ts : List Token} :
    (∀ row ∈ sequences (t :: ts), Apart row) ↔
      (∀ u ∈ ts.head?, ¬ (t.isText = true ∧ u.isText = true)) ∧
        (∀ row ∈ bodies t, Apart row) ∧ ∀ row ∈ sequences ts, Apart row := by
  simp only [sequences, bodiesAll, List.forall_mem_cons, List.forall_mem_append]
  rw [Apart, List.isChain_cons]
  constructor
  · rintro ⟨⟨hhead, hts⟩, ht, hbodies⟩
    exact ⟨hhead, ht, hts, hbodies⟩
  · rintro ⟨hhead, ht, hts, hbodies⟩
    exact ⟨⟨hhead, hts⟩, ht, hbodies⟩

mutual

theorem merge_eq_self_iff : (t : Token) → (merge t = t ↔ ∀ row ∈ bodies t, Apart row)
  | text _ => by simp [merge, bodies]
  | tag _ => by simp [merge, bodies]
  | var _ => by simp [merge, bodies]
  | block t ts => by
      rw [merge, Token.block.injEq, mergeAll_eq_self_iff ts]
      simp [bodies, sequences]

/-- Merging leaves a forest alone exactly if no two texts follow one another in any sequence. -/
theorem mergeAll_eq_self_iff : (ts : List Token) →
    (mergeAll ts = ts ↔ ∀ row ∈ sequences ts, Apart row)
  | [] => by simp [mergeAll, sequences, bodiesAll, Apart]
  | t :: ts => by
      rw [forall_mem_sequences_cons, ← merge_eq_self_iff t, ← mergeAll_eq_self_iff ts, mergeAll]
      constructor
      · intro h
        rcases joinText_cases (merge t) (mergeAll ts) with ⟨s, w, vs, _, hvs, hjoin⟩ | ⟨happ, hjoin⟩
        · exfalso
          have hlength := length_mergeAll_le ts
          have hcons := congrArg List.length (hjoin.symm.trans h)
          rw [hvs] at hlength
          simp only [List.length_cons] at hlength hcons
          omega
        · obtain ⟨ht, hts⟩ := List.cons.inj (hjoin.symm.trans h)
          rw [ht, hts] at happ
          exact ⟨happ, ht, hts⟩
      · rintro ⟨happ, ht, hts⟩
        rw [ht, hts]
        exact joinText_of_not_texts happ

end

theorem apart_joinText {t : Token} {us : List Token} (ht : ∀ row ∈ bodies t, Apart row)
    (hus : ∀ row ∈ sequences us, Apart row) : ∀ row ∈ sequences (joinText t us), Apart row := by
  rcases joinText_cases t us with ⟨s, w, vs, rfl, rfl, hjoin⟩ | ⟨happ, hjoin⟩
  · rw [hjoin]
    obtain ⟨hhead, _, hvs⟩ := forall_mem_sequences_cons.mp hus
    refine forall_mem_sequences_cons.mpr ⟨?_, List.forall_mem_nil _, hvs⟩
    exact fun u hu htexts => hhead u hu ⟨rfl, htexts.2⟩
  · rw [hjoin]
    exact forall_mem_sequences_cons.mpr ⟨happ, ht, hus⟩

mutual

theorem apart_merge : (t : Token) → ∀ row ∈ bodies (merge t), Apart row
  | text _ => List.forall_mem_nil _
  | tag _ => List.forall_mem_nil _
  | var _ => List.forall_mem_nil _
  | block _ ts => apart_mergeAll ts

/-- Merging leaves no two texts one after the other. -/
theorem apart_mergeAll : (ts : List Token) → ∀ row ∈ sequences (mergeAll ts), Apart row
  | [] => List.forall_mem_singleton.mpr .nil
  | t :: ts => apart_joinText (apart_merge t) (apart_mergeAll ts)

end

end Token

end TemplateMarkup
