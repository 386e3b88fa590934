import TemplateMarkup.Proofs.Grammar.Reading

/-! # What every match has in common

A recogniser yields rows of trees with a property, if every match finds such a
row. Each way of combining recognisers hands this on, and so it does for a
property of the text that is read. A recogniser that looks at one character
only is a test of that character, and reading characters while a test succeeds
takes the longest such part of the text.
-/

namespace TemplateMarkup.Grammar.Recogniser

variable {ρ : Type} {p q : Recogniser ρ} {P Q R : List (ParseTree ρ) → Prop}

/-- Every row of trees that a recogniser finds has a property. -/
def Yields (p : Recogniser ρ) (P : List (ParseTree ρ) → Prop) : Prop :=
  ∀ s ts rest, p s = some (ts, rest) → P ts

/-- Every text that a recogniser reads has a property. -/
def Spells (p : Recogniser ρ) (P : List Char → Prop) : Prop :=
  Yields p fun ts => P (ParseTree.textAll ts)

theorem Yields.mono (hp : Yields p P) (h : ∀ ts, P ts → Q ts) : Yields p Q :=
  fun s ts rest hread => h ts (hp s ts rest hread)

theorem yields_nothing (nil : P []) : Yields (nothing (ρ := ρ)) P := by
  intro s ts rest h
  cases h
  exact nil

theorem yields_charIn {allowed : Char → Bool} (h : ∀ c, allowed c = true → P [.char c]) :
    Yields (charIn allowed) P := by
  intro s ts rest hread
  cases s with
  | nil => cases hread
  | cons c s =>
      obtain ⟨hc, rfl, rfl⟩ : allowed c = true ∧ [ParseTree.char c] = ts ∧ s = rest := by
        simpa [charIn] using hread
      exact h c hc

theorem Yields.followedBy (hp : Yields p P) (hq : Yields q Q)
    (append : ∀ us vs, P us → Q vs → R (us ++ vs)) : Yields (p.followedBy q) R := by
  intro s ts rest h
  obtain ⟨us, mid, vs, hus, hvs, rfl⟩ := followedBy_eq_some_iff.mp h
  exact append us vs (hp s us mid hus) (hq mid vs rest hvs)

theorem Yields.orElse (hp : Yields p P) (hq : Yields q P) : Yields (p.orElse q) P := by
  intro s ts rest h
  cases hread : p s with
  | none =>
      rw [orElse_of_none hread] at h
      exact hq s ts rest h
  | some found =>
      rw [orElse_of_some hread] at h
      cases h
      exact hp s ts rest hread

theorem yields_firstOf {ps : List (Recogniser ρ)} (h : ∀ p ∈ ps, Yields p P) :
    Yields (firstOf ps) P := by
  induction ps with
  | nil =>
      intro s ts rest hread
      cases hread
  | cons p ps ih =>
      exact (h p (List.mem_cons_self ..)).orElse (ih fun q hq => h q (List.mem_cons_of_mem p hq))

/-- What a repetition yields is put together from what its rounds yield. -/
theorem Yields.many (hp : Yields p Q) (nil : P [])
    (append : ∀ us vs, Q us → P vs → P (us ++ vs)) : Yields p.many P := by
  suffices h : ∀ n, Yields (p.upTo n) P from fun s => h s.length s
  intro n
  induction n with
  | zero => exact yields_nothing nil
  | succ n ih =>
      intro s ts rest h
      unfold upTo at h
      cases hread : p s with
      | none =>
          rw [hread] at h
          cases h
          exact nil
      | some found =>
          rw [hread] at h
          obtain ⟨tail, htail, hts⟩ := Option.map_eq_some_iff.mp h
          obtain ⟨rfl, rfl⟩ := Prod.mk.inj hts
          exact append _ _ (hp s _ _ hread) (ih _ _ _ htail)

theorem yields_endNode {rule : ρ} (h : P [.node rule []]) : Yields (endNode rule) P := by
  intro s ts rest hread
  cases s with
  | nil =>
      cases hread
      exact h
  | cons c s => cases hread

theorem yields_inOrder_singleton (hp : Yields p P) : Yields (inOrder [p]) P := by
  intro s ts rest h
  rw [inOrder_singleton] at h
  exact hp s ts rest h

theorem Spells.followedBy {P Q R : List Char → Prop} (hp : Spells p P) (hq : Spells q Q)
    (append : ∀ u v, P u → Q v → R (u ++ v)) : Spells (p.followedBy q) R := by
  refine Yields.followedBy hp hq fun us vs hus hvs => ?_
  rw [ParseTree.textAll_append]
  exact append _ _ hus hvs

theorem Spells.many {P Q : List Char → Prop} (hp : Spells p Q) (nil : P [])
    (append : ∀ u v, Q u → P v → P (u ++ v)) : Spells p.many P := by
  refine Yields.many hp nil fun us vs hus hvs => ?_
  rw [ParseTree.textAll_append]
  exact append _ _ hus hvs

/-- Whether a recogniser matches depends on the next character alone. -/
def Tests (p : Recogniser ρ) (f : Char → Bool) : Prop :=
  ∀ s, (p s).isSome = s.head?.any f

variable {f g : Char → Bool}

theorem tests_charIn (f : Char → Bool) : Tests (charIn (ρ := ρ) f) f := by
  intro s
  cases s with
  | nil => rfl
  | cons c s => cases hc : f c <;> simp [charIn, hc]

theorem tests_never : Tests (never (ρ := ρ)) fun _ => false := by
  intro s
  cases s <;> rfl

theorem literal_singleton (d : Char) : literal (ρ := ρ) [d] = charIn fun c => c = d := by
  funext s
  cases s with
  | nil => rfl
  | cons c s => by_cases hc : d = c <;> simp [literal, charIn, hc, eq_comm]

theorem tests_literal (d : Char) : Tests (literal (ρ := ρ) [d]) fun c => c = d := by
  rw [literal_singleton]
  exact tests_charIn _

theorem Tests.orElse (hp : Tests p f) (hq : Tests q g) :
    Tests (p.orElse q) fun c => f c || g c := by
  intro s
  have hf := hp s
  cases hread : p s with
  | none =>
      rw [orElse_of_none hread, hq s]
      rw [hread] at hf
      cases s with
      | nil => rfl
      | cons c s =>
          have hc : f c = false := hf.symm
          simp [hc]
  | some found =>
      rw [orElse_of_some hread]
      rw [hread] at hf
      cases s with
      | nil => cases hf
      | cons c s =>
          have hc : f c = true := hf.symm
          simp [hc]

/-- A character where a test fails. -/
theorem Tests.charBut_eq (hp : Tests p f) : charBut p = charIn fun c => !f c := by
  funext s
  cases s with
  | nil => simp [charIn]
  | cons c s =>
      have hc := hp (c :: s)
      cases hread : p (c :: s) with
      | none =>
          rw [hread] at hc
          have hf : f c = false := hc.symm
          simp [charBut_cons_of_none hread, charIn, hf]
      | some found =>
          rw [hread] at hc
          have hf : f c = true := hc.symm
          simp [charBut_of_some hread, charIn, hf]

theorem charIn_of_head {s : List Char} (h : s.head?.any f = false) :
    charIn (ρ := ρ) f s = none := by
  cases s with
  | nil => rfl
  | cons c s =>
      have hc : f c = false := h
      simp [charIn, hc]

/-- A repeated test reads up to the first character that fails it. -/
theorem many_charIn {w rest : List Char} (inside : ∀ c ∈ w, f c = true)
    (boundary : rest.head?.any f = false) :
    many (charIn (ρ := ρ) f) (w ++ rest) = some (w.map .char, rest) := by
  induction w with
  | nil => exact many_of_none (charIn_of_head boundary)
  | cons c w ih =>
      obtain ⟨hc, hw⟩ := List.forall_mem_cons.mp inside
      have hread : charIn (ρ := ρ) f (c :: (w ++ rest)) = some ([.char c], w ++ rest) := by
        simp [charIn, hc]
      rw [List.cons_append, many_of_some (progressive_charIn f) hread, ih hw]
      rfl

/-- A repeated test finds characters on which it succeeds. -/
theorem yields_many_charIn (f : Char → Bool) :
    Yields (many (charIn (ρ := ρ) f)) fun ts =>
      ∃ w : List Char, ts = w.map .char ∧ ∀ c ∈ w, f c = true := by
  have hone : Yields (charIn (ρ := ρ) f) fun ts => ∃ c, ts = [.char c] ∧ f c = true :=
    yields_charIn fun c hc => ⟨c, rfl, hc⟩
  refine hone.many ⟨[], rfl, List.forall_mem_nil _⟩ fun us vs hus hvs => ?_
  obtain ⟨c, rfl, hc⟩ := hus
  obtain ⟨w, rfl, hw⟩ := hvs
  exact ⟨c :: w, rfl, List.forall_mem_cons.mpr ⟨hc, hw⟩⟩

/-- At least one of them, if the test has to succeed once. -/
theorem yields_many1_charIn (f : Char → Bool) :
    Yields (many1 (charIn (ρ := ρ) f)) fun ts =>
      ∃ w : List Char, ts = w.map .char ∧ w ≠ [] ∧ ∀ c ∈ w, f c = true := by
  have hone : Yields (charIn (ρ := ρ) f) fun ts => ∃ c, ts = [.char c] ∧ f c = true :=
    yields_charIn fun c hc => ⟨c, rfl, hc⟩
  refine hone.followedBy (yields_many_charIn f) fun us vs hus hvs => ?_
  obtain ⟨c, rfl, hc⟩ := hus
  obtain ⟨w, rfl, hw⟩ := hvs
  exact ⟨c :: w, rfl, List.cons_ne_nil c w, List.forall_mem_cons.mpr ⟨hc, hw⟩⟩

/-- A repetition that finds something has had a round. -/
theorem many1_of_many (hp : Progressive p) {s rest : List Char} {ts : List (ParseTree ρ)}
    (h : many p s = some (ts, rest)) (hne : ts ≠ []) : many1 p s = some (ts, rest) := by
  cases hread : p s with
  | none =>
      rw [many_of_none hread] at h
      cases h
      exact absurd rfl hne
  | some found => rw [many1, followedBy_of_some hread, ← h, many_of_some hp hread]

end TemplateMarkup.Grammar.Recogniser
