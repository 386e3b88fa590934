import Mathlib.Data.List.Induction
import TemplateMarkup.Error

/-! # Lines and columns counted

The position of an offset is a count over the text before it: its line feeds
give the line, and the characters behind the last of them give the column. A
carriage return before a line feed makes no difference, since the line feed
starts the column anew. Every character moves a position forward, so that
positions are ordered as their offsets are.
-/

namespace TemplateMarkup

open Text

namespace Text

variable {s : List Char} {offset : Nat}

/-- Whether an offset is inside none of the characters of a text. -/
def OnBoundary (s : List Char) (offset : Nat) : Prop :=
  ∀ front c back, s = front ++ c :: back →
    offset ≤ byteSize front ∨ byteSize front + c.utf8Size ≤ offset

theorem onBoundary_append (before after : List Char) :
    OnBoundary (before ++ after) (byteSize before) := by
  intro front c back h
  rcases List.append_eq_append_iff.mp h with ⟨between, rfl, _⟩ | ⟨between, rfl, hbetween⟩
  · left
    rw [byteSize_append]
    exact Nat.le_add_right _ _
  · cases between with
    | nil => exact Or.inl (by simp)
    | cons d between =>
        obtain ⟨rfl, _⟩ := List.cons.inj hbetween
        right
        rw [byteSize_append, byteSize_cons]
        omega

theorem OnBoundary.tail {c : Char} (h : OnBoundary (c :: s) (c.utf8Size + offset)) :
    OnBoundary s offset := by
  intro front d back hsplit
  have hcases := h (c :: front) d back (by rw [hsplit, List.cons_append])
  rw [byteSize_cons] at hcases
  omega

/-- A text can be cut at an offset exactly if the offset is neither past its end nor inside a
character. -/
theorem isSome_splitAtByte?_iff :
    (splitAtByte? s offset).isSome = true ↔ offset ≤ byteSize s ∧ OnBoundary s offset := by
  constructor
  · intro h
    obtain ⟨⟨before, after⟩, hcut⟩ := Option.isSome_iff_exists.mp h
    obtain ⟨rfl, rfl⟩ := splitAtByte?_eq_some_iff.mp hcut
    refine ⟨?_, onBoundary_append before after⟩
    rw [byteSize_append]
    exact Nat.le_add_right _ _
  · rintro ⟨hle, hboundary⟩
    induction s generalizing offset with
    | nil =>
        obtain rfl : offset = 0 := by simpa using hle
        rfl
    | cons c s ih =>
        by_cases hzero : offset = 0
        · rw [hzero]
          cases s <;> rfl
        · rcases hboundary [] c s rfl with hfront | hback
          · rw [byteSize_nil] at hfront
            omega
          · rw [byteSize_nil, Nat.zero_add] at hback
            obtain ⟨rest, rfl⟩ := Nat.exists_eq_add_of_le hback
            rw [byteSize_cons] at hle
            have hrest := ih (by omega) hboundary.tail
            obtain ⟨⟨before, after⟩, hcut⟩ := Option.isSome_iff_exists.mp hrest
            obtain ⟨rfl, rfl⟩ := splitAtByte?_eq_some_iff.mp hcut
            have hwhole : splitAtByte? (c :: (before ++ after)) (c.utf8Size + byteSize before) =
                some (c :: before, after) := splitAtByte?_eq_some_iff.mpr ⟨rfl, rfl⟩
            rw [hwhole]
            rfl

/-- The characters behind the last line feed of a text. -/
def lastLine (s : List Char) : List Char :=
  (s.reverse.takeWhile (· ≠ '\n')).reverse

theorem lastLine_concat (s : List Char) (c : Char) :
    lastLine (s ++ [c]) = if c = '\n' then [] else lastLine s ++ [c] := by
  by_cases hc : c = '\n' <;> simp [lastLine, hc]

end Text

namespace Position

/-- Move a position over one character, where a carriage return is one like any other. -/
def next (p : Position) (c : Char) : Position :=
  if c = '\n' then p.nextLine else p.nextColumn

theorem next_of_ne {c : Char} (hc : c ≠ '\n') (p : Position) : p.next c = p.nextColumn :=
  if_neg hc

/-- The column of a carriage return is lost to the line feed behind it. -/
theorem next_return_feed (p : Position) : (p.next '\r').next '\n' = p.nextLine := rfl

theorem advance_eq_foldl (p : Position) (s : List Char) : p.advance s = s.foldl next p := by
  fun_induction advance p s with
  | case1 p => rfl
  | case2 p s ih => rw [ih, List.foldl_cons, List.foldl_cons, next_return_feed]
  | case3 p s ih => exact ih
  | case4 p c s _ hfeed ih => rw [ih, List.foldl_cons, next_of_ne hfeed]

theorem after_concat (s : List Char) (c : Char) : after (s ++ [c]) = (after s).next c := by
  rw [after, after, advance_eq_foldl, advance_eq_foldl, List.foldl_append]
  rfl

/-- A position counts the line feeds before it, and the characters behind the last of them. -/
theorem after_eq (s : List Char) : after s = ⟨1 + s.count '\n', 1 + (lastLine s).length⟩ := by
  induction s using List.reverseRecOn with
  | nil => rfl
  | append_singleton s c ih =>
      rw [after_concat, ih, lastLine_concat]
      by_cases hc : c = '\n'
      · simp [next, nextLine, hc, Nat.add_assoc]
      · simp [next, nextColumn, hc, Nat.add_assoc]

/-- Whether a position is on an earlier line than another one, or further left on the same. -/
def Precedes (p q : Position) : Prop :=
  p.line < q.line ∨ p.line = q.line ∧ p.column < q.column

variable {p q r : Position}

theorem Precedes.trans (hpq : p.Precedes q) (hqr : q.Precedes r) : p.Precedes r := by
  unfold Precedes at *
  omega

theorem not_precedes_self (p : Position) : ¬ p.Precedes p := by
  unfold Precedes
  omega

theorem precedes_next (p : Position) (c : Char) : p.Precedes (p.next c) := by
  unfold next
  split
  · exact Or.inl (Nat.lt_succ_self p.line)
  · exact Or.inr ⟨rfl, Nat.lt_succ_self p.column⟩

/-- More text before a position moves it forward. -/
theorem precedes_after_append (s : List Char) {t : List Char} (ht : t ≠ []) :
    (after s).Precedes (after (s ++ t)) := by
  induction t using List.reverseRecOn with
  | nil => exact absurd rfl ht
  | append_singleton t c ih =>
      rw [← List.append_assoc, after_concat]
      by_cases hnil : t = []
      · rw [hnil, List.append_nil]
        exact precedes_next (after s) c
      · exact (ih hnil).trans (precedes_next (after (s ++ t)) c)

/-- Positions in one source are ordered as their offsets. -/
theorem precedes_of_lt {source : List Char} {o₁ o₂ : Nat} (hlt : o₁ < o₂)
    (hp : ofOffset? source o₁ = some p) (hq : ofOffset? source o₂ = some q) : p.Precedes q := by
  obtain ⟨s, rest, rfl, rfl, rfl⟩ := ofOffset?_eq_some_iff.mp hp
  obtain ⟨t, others, hsplit, rfl, rfl⟩ := ofOffset?_eq_some_iff.mp hq
  rcases List.append_eq_append_iff.mp hsplit with ⟨between, rfl, _⟩ | ⟨between, rfl, _⟩
  · rw [byteSize_append] at hlt
    omega
  · apply precedes_after_append
    rintro rfl
    rw [List.append_nil] at hlt
    exact Nat.lt_irrefl _ hlt

/-- An offset has a position exactly if it is neither past the end of the source nor inside a
character. The position counts the line feeds before the offset and the characters behind the last
of them, as it does when carriage returns are not looked at. Positions are ordered as their
offsets, so that errors with different offsets never have the same one. -/
theorem ofOffset?_counts_lines (source : List Char) :
    (∀ offset, (ofOffset? source offset).isSome = true ↔
      offset ≤ byteSize source ∧ OnBoundary source offset) ∧
    (∀ offset p, ofOffset? source offset = some p ↔
      ∃ before rest, source = before ++ rest ∧ byteSize before = offset ∧
        p = ⟨1 + before.count '\n', 1 + (lastLine before).length⟩) ∧
    (∀ before, after before = before.foldl next start) ∧
    (∀ o₁ o₂ p₁ p₂, o₁ < o₂ → ofOffset? source o₁ = some p₁ → ofOffset? source o₂ = some p₂ →
      p₁.Precedes p₂) ∧
    ∀ (e₁ e₂ : TemplateError) (p : Position), e₁.position? source = some p →
      e₂.position? source = some p → e₁.offset = e₂.offset := by
  refine ⟨fun offset => ?_, fun offset p => ?_, advance_eq_foldl start,
    fun o₁ o₂ p₁ p₂ hlt => precedes_of_lt hlt, fun e₁ e₂ p h₁ h₂ => ?_⟩
  · rw [ofOffset?, Option.isSome_map]
    exact isSome_splitAtByte?_iff
  · simp only [ofOffset?_eq_some_iff, after_eq, eq_comm (a := source)]
  · rcases Nat.lt_trichotomy e₁.offset e₂.offset with hlt | heq | hlt
    · exact absurd (precedes_of_lt hlt h₁ h₂) (not_precedes_self p)
    · exact heq
    · exact absurd (precedes_of_lt hlt h₂ h₁) (not_precedes_self p)

/-- Between a carriage return and its line feed an offset has a position too. -/
example : ofOffset? ['é', '\r', '\n', 'a'] 3 = some ⟨1, 3⟩ := by decide

end Position

end TemplateMarkup
