import TemplateMarkup.Grammar.Lossless

/-! # Repetition

Where every round reads something, the bound on the number of rounds is never
felt: a repetition is one round and then the repetition of the rest, or it
stops where the next round is refused.
-/

namespace TemplateMarkup.Grammar.Recogniser

variable {ρ : Type} {p q : Recogniser ρ}

/-- A recogniser is progressive when every match reads at least one character. -/
def Progressive (p : Recogniser ρ) : Prop :=
  ∀ s ts rest, p s = some (ts, rest) → rest.length < s.length

theorem Lossless.length_le (hp : Lossless p) {s ts rest} (h : p s = some (ts, rest)) :
    rest.length ≤ s.length := by
  rw [← hp s ts rest h]
  simp

theorem progressive_charIn (allowed : Char → Bool) : Progressive (charIn (ρ := ρ) allowed) := by
  intro s ts rest h
  cases s with
  | nil => simp [charIn] at h
  | cons c s =>
      obtain ⟨_, _, rfl⟩ : allowed c = true ∧ [ParseTree.char c] = ts ∧ s = rest := by
        simpa [charIn] using h
      simp

theorem progressive_literal {w : List Char} (hw : w ≠ []) : Progressive (literal (ρ := ρ) w) := by
  intro s ts rest h
  cases w with
  | nil => exact absurd rfl hw
  | cons c w =>
      cases s with
      | nil => simp [literal] at h
      | cons d s =>
          simp only [literal, Option.ite_none_right_eq_some, Option.map_eq_some_iff,
            Prod.exists, Prod.mk.injEq] at h
          obtain ⟨_, us, r, h, _, rfl⟩ := h
          have := (lossless_literal w).length_le h
          simp only [List.length_cons]
          omega

theorem Progressive.followedBy (hp : Progressive p) (hq : Lossless q) :
    Progressive (p.followedBy q) := by
  intro s ts rest h
  unfold Recogniser.followedBy at h
  split at h
  · simp at h
  · rename_i us mid hmid
    simp only [Option.map_eq_some_iff, Prod.exists, Prod.mk.injEq] at h
    obtain ⟨vs, r, h, _, rfl⟩ := h
    exact Nat.lt_of_le_of_lt (hq.length_le h) (hp _ _ _ hmid)

theorem Progressive.inOrder {ps : List (Recogniser ρ)} (hp : Progressive p)
    (hps : ∀ q ∈ ps, Lossless q) : Progressive (inOrder (p :: ps)) :=
  hp.followedBy (lossless_inOrder hps)

theorem Progressive.orElse (hp : Progressive p) (hq : Progressive q) :
    Progressive (p.orElse q) := by
  intro s ts rest h
  unfold Recogniser.orElse at h
  split at h
  · exact hq _ _ _ h
  · rename_i found hfound
    obtain rfl : found = (ts, rest) := by simpa using h
    exact hp _ _ _ hfound

theorem progressive_never : Progressive (never (ρ := ρ)) := by
  intro s ts rest h
  simp [never] at h

theorem progressive_firstOf {ps : List (Recogniser ρ)} (h : ∀ p ∈ ps, Progressive p) :
    Progressive (firstOf ps) := by
  induction ps with
  | nil => exact progressive_never
  | cons p ps ih =>
      exact (h p (by simp)).orElse (ih fun q hq => h q (by simp [hq]))

theorem Progressive.many1 (hp : Progressive p) (hl : Lossless p) : Progressive p.many1 :=
  hp.followedBy hl.many

theorem progressive_charBut (p : Recogniser ρ) : Progressive (charBut p) := by
  intro s ts rest h
  unfold charBut Recogniser.followedBy at h
  split at h
  · simp at h
  · rename_i us mid hmid
    simp only [Option.map_eq_some_iff, Prod.exists, Prod.mk.injEq] at h
    obtain ⟨vs, r, h, _, rfl⟩ := h
    exact Nat.lt_of_lt_of_le (progressive_charIn _ _ _ _ h) ((lossless_notAhead p).length_le hmid)

theorem Progressive.node (rule : ρ) (hp : Progressive p) : Progressive (p.node rule) := by
  intro s ts rest h
  simp only [Recogniser.node, Option.map_eq_some_iff, Prod.exists, Prod.mk.injEq] at h
  obtain ⟨us, r, h, _, rfl⟩ := h
  exact hp _ _ _ h

/-- Rounds beyond the length of the text change nothing. -/
theorem upTo_eq_many (hp : Progressive p) {n : Nat} {s : List Char} (hn : s.length ≤ n) :
    upTo p n s = many p s := by
  suffices h : ∀ n m s, s.length ≤ n → s.length ≤ m → upTo p n s = upTo p m s from
    h n s.length s hn (Nat.le_refl _)
  have stuck : ∀ m, upTo p m [] = some ([], []) := by
    intro m
    cases m with
    | zero => rfl
    | succ m =>
        cases h : p [] with
        | none => simp [upTo, h]
        | some found => exact absurd (hp _ _ _ h) (by simp)
  intro n
  induction n with
  | zero =>
      intro m s hs _
      obtain rfl : s = [] := by simpa using hs
      exact (stuck m).symm
  | succ n ih =>
      intro m s hs hm
      cases m with
      | zero =>
          obtain rfl : s = [] := by simpa using hm
          exact stuck _
      | succ m =>
          unfold upTo
          cases h : p s with
          | none => rfl
          | some found =>
              have := hp _ _ _ h
              simp only [ih m found.2 (by omega) (by omega)]

theorem many_of_none {s : List Char} (h : p s = none) : many p s = some ([], s) := by
  unfold many
  cases s with
  | nil => rfl
  | cons c s => simp [upTo, h]

theorem many_of_some (hp : Progressive p) {s ts rest} (h : p s = some (ts, rest)) :
    many p s = (many p rest).map fun found => (ts ++ found.1, found.2) := by
  have hlt := hp _ _ _ h
  unfold many
  cases s with
  | nil => simp at hlt
  | cons c s =>
      rw [List.length_cons, upTo, h]
      simp only [upTo_eq_many hp (Nat.le_of_lt_succ hlt), many]

/-- Two recognisers that agree on all texts up to a length repeat alike on them. -/
theorem many_congr (hp : Lossless p) {k : Nat} (h : ∀ s, s.length ≤ k → p s = q s)
    {s : List Char} (hs : s.length ≤ k) : many p s = many q s := by
  suffices hn : ∀ n s, s.length ≤ k → upTo p n s = upTo q n s from hn s.length s hs
  intro n
  induction n with
  | zero => intro s _; rfl
  | succ n ih =>
      intro s hs
      unfold upTo
      rw [← h s hs]
      cases hps : p s with
      | none => rfl
      | some found =>
          have := hp.length_le hps
          simp only [ih found.2 (by omega)]

end TemplateMarkup.Grammar.Recogniser
