import TemplateMarkup.Grammar.Recogniser

/-! # Nothing is lost

Every way of combining recognisers keeps the trees and the rest together equal
to the text. A matched text can therefore be read off its trees, and the places
of the nodes are places in the text.
-/

namespace TemplateMarkup.Grammar.Recogniser

variable {ρ : Type} {p q : Recogniser ρ}

theorem lossless_nothing : Lossless (nothing (ρ := ρ)) := by
  intro s ts rest h
  obtain ⟨rfl, rfl⟩ : [] = ts ∧ s = rest := by simpa [nothing] using h
  rfl

theorem lossless_never : Lossless (never (ρ := ρ)) := by
  intro s ts rest h
  simp [never] at h

theorem lossless_charIn (allowed : Char → Bool) : Lossless (charIn (ρ := ρ) allowed) := by
  intro s ts rest h
  cases s with
  | nil => simp [charIn] at h
  | cons c s =>
      obtain ⟨_, rfl, rfl⟩ : allowed c = true ∧ [ParseTree.char c] = ts ∧ s = rest := by
        simpa [charIn] using h
      rfl

theorem lossless_literal (w : List Char) : Lossless (literal (ρ := ρ) w) := by
  induction w with
  | nil => exact lossless_nothing
  | cons c w ih =>
      intro s ts rest h
      cases s with
      | nil => simp [literal] at h
      | cons d s =>
          simp only [literal, Option.ite_none_right_eq_some, Option.map_eq_some_iff,
            Prod.exists, Prod.mk.injEq] at h
          obtain ⟨rfl, us, r, h, rfl, rfl⟩ := h
          simpa [ParseTree.textAll, ParseTree.text] using ih _ _ _ h

theorem Lossless.followedBy (hp : Lossless p) (hq : Lossless q) : Lossless (p.followedBy q) := by
  intro s ts rest h
  unfold Recogniser.followedBy at h
  split at h
  · simp at h
  · rename_i us mid hmid
    simp only [Option.map_eq_some_iff, Prod.exists, Prod.mk.injEq] at h
    obtain ⟨vs, r, h, rfl, rfl⟩ := h
    rw [ParseTree.textAll_append, List.append_assoc, hq _ _ _ h, hp _ _ _ hmid]

theorem Lossless.orElse (hp : Lossless p) (hq : Lossless q) : Lossless (p.orElse q) := by
  intro s ts rest h
  unfold Recogniser.orElse at h
  split at h
  · exact hq _ _ _ h
  · rename_i found hfound
    obtain rfl : found = (ts, rest) := by simpa using h
    exact hp _ _ _ hfound

theorem lossless_inOrder {ps : List (Recogniser ρ)} (h : ∀ p ∈ ps, Lossless p) :
    Lossless (inOrder ps) := by
  induction ps with
  | nil => exact lossless_nothing
  | cons p ps ih =>
      exact (h p (by simp)).followedBy (ih fun q hq => h q (by simp [hq]))

theorem lossless_firstOf {ps : List (Recogniser ρ)} (h : ∀ p ∈ ps, Lossless p) :
    Lossless (firstOf ps) := by
  induction ps with
  | nil => exact lossless_never
  | cons p ps ih =>
      exact (h p (by simp)).orElse (ih fun q hq => h q (by simp [hq]))

theorem Lossless.upTo (hp : Lossless p) (n : Nat) : Lossless (p.upTo n) := by
  induction n with
  | zero => exact lossless_nothing
  | succ n ih =>
      intro s ts rest h
      unfold Recogniser.upTo at h
      split at h
      · exact lossless_nothing _ _ _ h
      · rename_i us mid hmid
        simp only [Option.map_eq_some_iff, Prod.exists, Prod.mk.injEq] at h
        obtain ⟨vs, r, h, rfl, rfl⟩ := h
        rw [ParseTree.textAll_append, List.append_assoc, ih _ _ _ h, hp _ _ _ hmid]

theorem Lossless.many (hp : Lossless p) : Lossless p.many :=
  fun s => hp.upTo s.length s

theorem Lossless.many1 (hp : Lossless p) : Lossless p.many1 := hp.followedBy hp.many

theorem Lossless.maybe (hp : Lossless p) : Lossless p.maybe := hp.orElse lossless_nothing

theorem lossless_notAhead (p : Recogniser ρ) : Lossless (notAhead p) := by
  intro s ts rest h
  unfold notAhead at h
  split at h
  · exact lossless_nothing _ _ _ h
  · simp at h

theorem lossless_charBut (p : Recogniser ρ) : Lossless (charBut p) :=
  (lossless_notAhead p).followedBy (lossless_charIn _)

theorem Lossless.node (rule : ρ) (hp : Lossless p) : Lossless (p.node rule) := by
  intro s ts rest h
  simp only [Recogniser.node, Option.map_eq_some_iff, Prod.exists, Prod.mk.injEq] at h
  obtain ⟨us, r, h, rfl, rfl⟩ := h
  simpa [ParseTree.textAll, ParseTree.text] using hp _ _ _ h

theorem lossless_endNode (rule : ρ) : Lossless (endNode rule) := by
  intro s ts rest h
  cases s with
  | nil =>
      obtain ⟨rfl, rfl⟩ : [ParseTree.node rule []] = ts ∧ [] = rest := by simpa [endNode] using h
      rfl
  | cons c s => simp [endNode] at h

end TemplateMarkup.Grammar.Recogniser
