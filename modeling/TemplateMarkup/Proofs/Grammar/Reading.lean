import TemplateMarkup.Grammar.Repetition
import TemplateMarkup.Proofs.Text.Cut

/-! # What the combinators read

Each way of combining recognisers is described by what it reads from a text:
the characters it finds, as trees, and the rest. Reading characters until
something else would match is cutting the text before that place.
-/

namespace TemplateMarkup.Grammar.Recogniser

variable {ρ : Type} {p q : Recogniser ρ} {s rest : List Char} {ts us : List (ParseTree ρ)}

theorem followedBy_of_none (h : p s = none) : p.followedBy q s = none := by
  simp [followedBy, h]

theorem followedBy_of_some (h : p s = some (ts, rest)) :
    p.followedBy q s = (q rest).map fun found => (ts ++ found.1, found.2) := by
  simp [followedBy, h]

theorem followedBy_eq_some_iff {end' : List Char} :
    p.followedBy q s = some (us, end') ↔
      ∃ ts mid vs, p s = some (ts, mid) ∧ q mid = some (vs, end') ∧ us = ts ++ vs := by
  unfold followedBy
  cases hp : p s with
  | none => simp
  | some found =>
      obtain ⟨ts, mid⟩ := found
      simp only [Option.map_eq_some_iff, Prod.exists, Prod.mk.injEq, Option.some.injEq]
      constructor
      · rintro ⟨vs, r, h, rfl, rfl⟩
        exact ⟨ts, mid, vs, ⟨rfl, rfl⟩, h, rfl⟩
      · rintro ⟨_, _, vs, ⟨rfl, rfl⟩, h, rfl⟩
        exact ⟨vs, end', h, rfl, rfl⟩

theorem orElse_of_none (h : p s = none) : p.orElse q s = q s := by
  simp [orElse, h]

theorem orElse_of_some {found : List (ParseTree ρ) × List Char} (h : p s = some found) :
    p.orElse q s = some found := by
  simp [orElse, h]

theorem maybe_of_none (h : p s = none) : maybe p s = some ([], s) :=
  orElse_of_none h

theorem maybe_of_some {found : List (ParseTree ρ) × List Char} (h : p s = some found) :
    maybe p s = some found :=
  orElse_of_some h

theorem nil_or_of_maybe (h : maybe p s = some (ts, rest)) : ts = [] ∨ p s = some (ts, rest) := by
  cases hread : p s with
  | none =>
      rw [maybe_of_none hread] at h
      cases h
      exact Or.inl rfl
  | some found =>
      rw [maybe_of_some hread] at h
      exact Or.inr h

@[simp] theorem inOrder_nil : inOrder [] s = some (([] : List (ParseTree ρ)), s) := rfl

theorem inOrder_of_none {ps : List (Recogniser ρ)} (h : p s = none) :
    inOrder (p :: ps) s = none :=
  followedBy_of_none h

theorem inOrder_of_some {ps : List (Recogniser ρ)} (h : p s = some (ts, rest)) :
    inOrder (p :: ps) s = (inOrder ps rest).map fun found => (ts ++ found.1, found.2) :=
  followedBy_of_some h

theorem inOrder_singleton (p : Recogniser ρ) : inOrder [p] s = p s := by
  cases h : p s with
  | none => exact inOrder_of_none h
  | some found => simp [inOrder_of_some h]

@[simp] theorem firstOf_nil : firstOf ([] : List (Recogniser ρ)) s = none := rfl

theorem firstOf_of_none {ps : List (Recogniser ρ)} (h : p s = none) :
    firstOf (p :: ps) s = firstOf ps s :=
  orElse_of_none h

theorem firstOf_of_some {ps : List (Recogniser ρ)} {found : List (ParseTree ρ) × List Char}
    (h : p s = some found) : firstOf (p :: ps) s = some found :=
  orElse_of_some h

theorem firstOf_eq_none_iff {ps : List (Recogniser ρ)} :
    firstOf ps s = none ↔ ∀ p ∈ ps, p s = none := by
  induction ps with
  | nil => simp
  | cons p ps ih =>
      cases h : p s with
      | none => simp [firstOf_of_none h, h, ih]
      | some found => simp [firstOf_of_some h, h]

theorem firstOf_append (ps qs : List (Recogniser ρ)) :
    firstOf (ps ++ qs) s = (firstOf ps).orElse (firstOf qs) s := by
  induction ps with
  | nil => exact (orElse_of_none firstOf_nil).symm
  | cons p ps ih =>
      rw [List.cons_append]
      cases h : p s with
      | none =>
          rw [firstOf_of_none h, ih]
          simp only [orElse, firstOf_of_none h]
      | some found => rw [firstOf_of_some h, orElse_of_some (firstOf_of_some h)]

/-- Where one alternative only can match, its place in the order does not matter. -/
theorem firstOf_map_of_only {α : Type} {f : α → Recogniser ρ} {as : List α} {a : α}
    {found : List (ParseTree ρ) × List Char} (ha : a ∈ as) (h : f a s = some found)
    (hother : ∀ b, b ≠ a → f b s = none) : firstOf (as.map f) s = some found := by
  induction as with
  | nil => cases ha
  | cons b as ih =>
      rw [List.map_cons]
      by_cases hb : b = a
      · rw [hb]
        exact firstOf_of_some h
      · rw [firstOf_of_none (hother b hb)]
        exact ih (List.mem_of_ne_of_mem (Ne.symm hb) ha)

theorem node_of_none {rule : ρ} (h : p s = none) : node rule p s = none := by
  simp [node, h]

theorem node_of_some {rule : ρ} (h : p s = some (ts, rest)) :
    node rule p s = some ([.node rule ts], rest) := by
  simp [node, h]

theorem node_eq_some_iff {rule : ρ} : node rule p s = some (us, rest) ↔
    ∃ ts, p s = some (ts, rest) ∧ us = [.node rule ts] := by
  cases hread : p s with
  | none => simp [node_of_none hread]
  | some found =>
      obtain ⟨ts, mid⟩ := found
      rw [node_of_some hread]
      constructor
      · rintro h
        cases h
        exact ⟨ts, rfl, rfl⟩
      · rintro ⟨_, h, rfl⟩
        cases h
        rfl

/-- A given word is read exactly from the texts that begin with it. -/
theorem literal_append (w s : List Char) :
    literal (ρ := ρ) w (w ++ s) = some (w.map .char, s) := by
  induction w with
  | nil => rfl
  | cons c w ih => simp [literal, ih]

theorem literal_cons (c : Char) (s : List Char) :
    literal (ρ := ρ) [c] (c :: s) = some ([.char c], s) :=
  literal_append [c] s

theorem isSome_literal (w s : List Char) :
    (literal (ρ := ρ) w s).isSome = w.isPrefixOf s := by
  induction w generalizing s with
  | nil => rfl
  | cons c w ih =>
      cases s with
      | nil => rfl
      | cons d s =>
          by_cases h : c = d
          · simp [literal, h, List.isPrefixOf, ih]
          · simp [literal, h, List.isPrefixOf]

theorem literal_eq_none_iff {w s : List Char} :
    literal (ρ := ρ) w s = none ↔ ¬ w <+: s := by
  rw [← List.isPrefixOf_iff_prefix, ← isSome_literal (ρ := ρ)]
  simp

theorem charBut_of_some {found : List (ParseTree ρ) × List Char} (h : p s = some found) :
    charBut p s = none := by
  simp [charBut, followedBy, notAhead, h]

theorem charBut_cons_of_none {c : Char} (h : p (c :: s) = none) :
    charBut p (c :: s) = some ([.char c], s) := by
  simp [charBut, followedBy, notAhead, h, anyChar, charIn]

@[simp] theorem charBut_nil : charBut p [] = none := by
  cases h : p [] <;> simp [charBut, followedBy, notAhead, h, anyChar, charIn]

/-- Reading characters as long as something else does not match. -/
theorem many_charBut (p : Recogniser ρ) (s : List Char) :
    many (charBut p) s =
      some ((Text.cutBefore (fun s => (p s).isSome) s).1.map .char,
        (Text.cutBefore (fun s => (p s).isSome) s).2) := by
  induction s with
  | nil => exact many_of_none charBut_nil
  | cons c s ih =>
      unfold Text.cutBefore
      cases h : p (c :: s) with
      | none => simp [many_of_some (progressive_charBut p) (charBut_cons_of_none h), ih]
      | some found => simp [many_of_none (charBut_of_some h)]

/-- Reading any characters reads the whole text. -/
theorem many_anyChar (s : List Char) : many (ρ := ρ) anyChar s = some (s.map .char, []) := by
  induction s with
  | nil => rfl
  | cons c s ih =>
      have h : anyChar (ρ := ρ) (c :: s) = some ([.char c], s) := rfl
      rw [many_of_some (p := anyChar) (progressive_charIn _) h, ih]
      rfl

/-- Whether nothing is left unread where a recogniser matches. -/
def Exhausts (p : Recogniser ρ) : Prop :=
  ∀ s ts rest, p s = some (ts, rest) → rest = []

theorem Exhausts.followedBy (hq : Exhausts q) : Exhausts (p.followedBy q) := by
  intro s ts rest h
  obtain ⟨_, mid, us, _, hmid, _⟩ := followedBy_eq_some_iff.mp h
  exact hq mid us rest hmid

theorem Exhausts.node (hp : Exhausts p) (rule : ρ) : Exhausts (p.node rule) := by
  intro s ts rest h
  obtain ⟨found, hread, heq⟩ := Option.map_eq_some_iff.mp h
  cases heq
  exact hp s found.1 found.2 hread

theorem exhausts_endNode (rule : ρ) : Exhausts (inOrder [endNode rule]) := by
  intro s ts rest h
  rw [inOrder_singleton] at h
  cases s with
  | nil =>
      cases h
      rfl
  | cons c s => cases h

end TemplateMarkup.Grammar.Recogniser
