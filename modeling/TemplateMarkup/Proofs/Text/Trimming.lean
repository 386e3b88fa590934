import TemplateMarkup.Text.Blank

/-! # Trimmed texts

A text without the characters of a class at its ends is the part that neither
begins nor ends with one of them, with nothing but such characters in front of
it and behind it. There is one such part of every text, and it is what is left
when these characters are dropped from the front and then from the back. The
class that counts in a message is the white space of Unicode, listed here code
point by code point.
-/

namespace TemplateMarkup.Text

/-- The code points with the Unicode property `White_Space`. -/
def whiteSpace : List Nat :=
  [0x0009, 0x000A, 0x000B, 0x000C, 0x000D, 0x0020, 0x0085, 0x00A0, 0x1680,
    0x2000, 0x2001, 0x2002, 0x2003, 0x2004, 0x2005, 0x2006, 0x2007, 0x2008, 0x2009, 0x200A,
    0x2028, 0x2029, 0x202F, 0x205F, 0x3000]

/-- Whether a text is what is left of another one without the characters of a class at its ends. -/
def Trimmed (p : Char → Bool) (s w : List Char) : Prop :=
  ∃ front back, s = front ++ (w ++ back) ∧
    (∀ c ∈ front, p c = true) ∧ (∀ c ∈ back, p c = true) ∧
      w.head?.any p = false ∧ w.getLast?.any p = false

variable {p : Char → Bool} {s w front t : List Char}

/-- A text begins with a row of characters of a class, empty or not, behind which none stands. -/
theorem exists_front (p : Char → Bool) (s : List Char) :
    ∃ front t, s = front ++ t ∧ (∀ c ∈ front, p c = true) ∧ t.head?.any p = false := by
  induction s with
  | nil => exact ⟨[], [], rfl, List.forall_mem_nil _, rfl⟩
  | cons c s ih =>
      cases hc : p c with
      | false => exact ⟨[], c :: s, rfl, List.forall_mem_nil _, hc⟩
      | true =>
          obtain ⟨front, t, rfl, hfront, ht⟩ := ih
          exact ⟨c :: front, t, rfl, List.forall_mem_cons.mpr ⟨hc, hfront⟩, ht⟩

theorem dropWhile_front (hfront : ∀ c ∈ front, p c = true) (ht : t.head?.any p = false) :
    (front ++ t).dropWhile p = t := by
  rw [List.dropWhile_append_of_pos hfront]
  cases t with
  | nil => rfl
  | cons c t => exact List.dropWhile_cons_of_neg (by simpa using ht)

/-- What is left of a text is found by dropping from the front and then from the back. -/
theorem trimmed_iff : Trimmed p s w ↔ ((s.dropWhile p).reverse.dropWhile p).reverse = w := by
  constructor
  · rintro ⟨front, back, rfl, hfront, hback, hhead, hlast⟩
    have hend : (back.reverse ++ w.reverse).dropWhile p = w.reverse := by
      apply dropWhile_front
      · exact fun c hc => hback c (List.mem_reverse.mp hc)
      · rwa [List.head?_reverse]
    cases w with
    | nil =>
        have hnone : (front ++ back ++ []).dropWhile p = [] :=
          dropWhile_front (List.forall_mem_append.mpr ⟨hfront, hback⟩) rfl
        rw [List.append_nil] at hnone
        rw [List.nil_append, hnone]
        rfl
    | cons c w =>
        have hfirst : (front ++ (c :: w ++ back)).dropWhile p = c :: w ++ back :=
          dropWhile_front hfront hhead
        calc (((front ++ (c :: w ++ back)).dropWhile p).reverse.dropWhile p).reverse
          _ = ((c :: w ++ back).reverse.dropWhile p).reverse := by rw [hfirst]
          _ = ((back.reverse ++ (c :: w).reverse).dropWhile p).reverse := by
              rw [List.reverse_append]
          _ = (c :: w).reverse.reverse := by rw [hend]
          _ = c :: w := List.reverse_reverse _
  · rintro rfl
    obtain ⟨front, t, rfl, hfront, ht⟩ := exists_front p s
    obtain ⟨back, u, hrev, hback, hu⟩ := exists_front p t.reverse
    have hsplit : t = u.reverse ++ back.reverse := by
      rw [← List.reverse_append, ← hrev, List.reverse_reverse]
    rw [dropWhile_front hfront ht, hrev, dropWhile_front hback hu]
    refine ⟨front, back.reverse, congrArg (front ++ ·) hsplit, hfront,
      fun c hc => hback c (List.mem_reverse.mp hc), ?_, by rwa [List.getLast?_reverse]⟩
    -- What the second pass leaves begins as the text did that it was given, if it leaves anything.
    cases hleft : u.reverse with
    | nil => rfl
    | cons c v =>
        rw [hsplit, hleft] at ht
        exact ht

theorem isBlank_eq_mem (c : Char) : isBlank c = decide (c.toNat ∈ whiteSpace) := by
  rw [Bool.eq_iff_iff, decide_eq_true_eq]
  simp only [isBlank, whiteSpace, Bool.or_eq_true, Bool.and_eq_true, decide_eq_true_eq,
    List.mem_cons, List.not_mem_nil, or_false]
  omega

/-- The blanks that are cut off a text are the white space at its ends, all of it. -/
theorem trim_eq_iff : trim s = w ↔ Trimmed (fun c => c.toNat ∈ whiteSpace) s w := by
  rw [← funext isBlank_eq_mem, trimmed_iff, trim]

end TemplateMarkup.Text
