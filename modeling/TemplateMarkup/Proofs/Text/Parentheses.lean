import TemplateMarkup.Proofs.Text.Quotation

/-! # Parentheses

Parentheses count outside quotes only. A counter of the open ones decides
whether each of them has its partner, and which characters stand outside all
of them. The same is said by dividing a text into quotes, pairs of parentheses
and plain characters.
-/

namespace TemplateMarkup.Text

def isParenthesis (c : Char) : Bool :=
  c = '(' || c = ')'

/-- The characters outside all parentheses, where a number of them is open already. There is no
answer unless every parenthesis has its partner. -/
def outermost? : Nat → List Char → Option (List Char)
  | depth, [] => if depth = 0 then some [] else none
  | depth, c :: s =>
      if c = '(' then outermost? (depth + 1) s
      else if c = ')' then if depth = 0 then none else outermost? (depth - 1) s
      else if depth = 0 then (outermost? 0 s).map (c :: ·)
      else outermost? depth s

@[simp] theorem outermost?_opening (depth : Nat) (s : List Char) :
    outermost? depth ('(' :: s) = outermost? (depth + 1) s := by
  simp [outermost?]

@[simp] theorem outermost?_closing (depth : Nat) (s : List Char) :
    outermost? (depth + 1) (')' :: s) = outermost? depth s := by
  simp [outermost?]

@[simp] theorem outermost?_zero_closing (s : List Char) : outermost? 0 (')' :: s) = none := by
  simp [outermost?]

theorem outermost?_zero_char {c : Char} (hc : isParenthesis c = false) (s : List Char) :
    outermost? 0 (c :: s) = (outermost? 0 s).map (c :: ·) := by
  simp only [isParenthesis, Bool.or_eq_false_iff, decide_eq_false_iff_not] at hc
  simp [outermost?, hc.1, hc.2]

theorem outermost?_succ_char {c : Char} (hc : isParenthesis c = false) (depth : Nat)
    (s : List Char) : outermost? (depth + 1) (c :: s) = outermost? (depth + 1) s := by
  simp only [isParenthesis, Bool.or_eq_false_iff, decide_eq_false_iff_not] at hc
  simp [outermost?, hc.1, hc.2]

/-- A row of complete quotes, pairs of parentheses and plain characters of a class. Any character
counts as plain between parentheses. -/
inductive Balanced : (Char → Bool) → List Char → Prop
  | nil {plain : Char → Bool} : Balanced plain []
  | quoted {plain : Char → Bool} {u s : List Char} (quote : Quoted u)
      (rest : Balanced plain s) : Balanced plain (u ++ s)
  | char {plain : Char → Bool} {c : Char} {s : List Char} (not_mark : isMark c = false)
      (not_parenthesis : isParenthesis c = false) (is_plain : plain c = true)
      (rest : Balanced plain s) : Balanced plain (c :: s)
  | pair {plain : Char → Bool} {inner s : List Char} (inside : Balanced (fun _ => true) inner)
      (rest : Balanced plain s) : Balanced plain ('(' :: (inner ++ ')' :: s))

variable {plain : Char → Bool} {s t : List Char} {depth : Nat}

theorem Balanced.closed (h : Balanced plain s) : Closed s := by
  induction h with
  | nil => rfl
  | quoted hquoted _ ih => exact hquoted.closed.append ih
  | char hmark _ _ _ ih => exact (closed_cons_iff hmark).mpr ih
  | pair _ _ ihinside ihrest =>
      rw [closed_cons_iff (by decide), ihinside.append_iff, closed_cons_iff (by decide)]
      exact ihrest

theorem bare_pair {inner : List Char} (hinner : Closed inner) (s : List Char) :
    bare ('(' :: (inner ++ ')' :: s)) = '(' :: (bare inner ++ ')' :: bare s) := by
  rw [bare_cons (by decide), hinner.bare_append, bare_cons (by decide)]

/-- Between parentheses a balanced text leaves the count unchanged. -/
theorem Balanced.outermost?_succ (h : Balanced plain s) (depth : Nat) (t : List Char) :
    outermost? (depth + 1) (bare s ++ t) = outermost? (depth + 1) t := by
  induction h generalizing depth t with
  | nil => rfl
  | quoted hquoted _ ih =>
      rw [hquoted.closed.bare_append, hquoted.bare_eq]
      exact ih depth t
  | char hmark hparenthesis _ _ ih =>
      rw [bare_cons hmark, List.cons_append, outermost?_succ_char hparenthesis]
      exact ih depth t
  | pair hinside _ ihinside ihrest =>
      rw [bare_pair hinside.closed, List.cons_append, List.append_assoc, outermost?_opening,
        ihinside, List.cons_append, outermost?_closing]
      exact ihrest depth t

/-- Outside parentheses a balanced text adds plain characters only. -/
theorem Balanced.outermost?_zero (h : Balanced plain s) :
    ∃ u, outermost? 0 (bare s) = some u ∧ ∀ c ∈ u, plain c = true := by
  induction h with
  | nil => exact ⟨[], rfl, fun c hc => nomatch hc⟩
  | quoted hquoted _ ih =>
      rw [hquoted.closed.bare_append, hquoted.bare_eq]
      exact ih
  | @char plain c s hmark hparenthesis hplain _ ih =>
      obtain ⟨u, hu, hall⟩ := ih
      rw [bare_cons hmark, outermost?_zero_char hparenthesis, hu]
      exact ⟨c :: u, rfl, List.forall_mem_cons.mpr ⟨hplain, hall⟩⟩
  | pair hinside _ _ ihrest =>
      rw [bare_pair hinside.closed, outermost?_opening, hinside.outermost?_succ,
        outermost?_closing]
      exact ihrest

/-- Where a parenthesis is open and all find their partner, its partner is found behind a
balanced text. -/
theorem exists_partner {u : List Char} (hclosed : Closed s)
    (h : outermost? (depth + 1) (bare s) = some u) :
    ∃ inner rest, Balanced (fun _ => true) inner ∧ Closed rest ∧
      outermost? depth (bare rest) = some u ∧ s = inner ++ ')' :: rest := by
  -- Behind an inner pair the search goes on, so the remaining texts are not just tails.
  induction hn : s.length using Nat.strongRecOn generalizing s depth with
  | ind n ih =>
      cases hclosed.fluent with
      | nil => simp [outermost?] at h
      | @quoted q rest hquoted hrest =>
          rw [hquoted.closed.bare_append, hquoted.bare_eq, List.nil_append] at h
          have hpos := List.length_pos_iff.mpr hquoted.ne_nil
          rw [List.length_append] at hn
          obtain ⟨inner, after, hinner, hafter, hu, rfl⟩ :=
            ih rest.length (by omega) hrest.closed h rfl
          exact ⟨q ++ inner, after, .quoted hquoted hinner, hafter, hu, by simp⟩
      | @char c s hmark _ hs =>
          rw [bare_cons hmark] at h
          rw [List.length_cons] at hn
          by_cases hopening : c = '('
          · subst hopening
            rw [outermost?_opening] at h
            obtain ⟨inner, rest, hinner, hrest, hopen, rfl⟩ :=
              ih s.length (by omega) hs.closed h rfl
            rw [List.length_append, List.length_cons] at hn
            obtain ⟨outer, after, houter, hafter, hu, rfl⟩ :=
              ih rest.length (by omega) hrest hopen rfl
            exact ⟨'(' :: (inner ++ ')' :: outer), after, .pair hinner houter, hafter, hu,
              by simp⟩
          · by_cases hclosing : c = ')'
            · subst hclosing
              rw [outermost?_closing] at h
              exact ⟨[], s, .nil, hs.closed, h, rfl⟩
            · have hparenthesis : isParenthesis c = false := by
                simp [isParenthesis, hopening, hclosing]
              rw [outermost?_succ_char hparenthesis] at h
              obtain ⟨inner, rest, hinner, hrest, hu, rfl⟩ :=
                ih s.length (by omega) hs.closed h rfl
              exact ⟨c :: inner, rest, .char hmark hparenthesis rfl hinner, hrest, hu, rfl⟩

theorem balanced_of_outermost? {u : List Char} (hclosed : Closed s)
    (hu : outermost? 0 (bare s) = some u) (hplain : ∀ c ∈ u, plain c = true) :
    Balanced plain s := by
  induction hn : s.length using Nat.strongRecOn generalizing s u with
  | ind n ih =>
      cases hclosed.fluent with
      | nil => exact .nil
      | @quoted q rest hquoted hrest =>
          rw [hquoted.closed.bare_append, hquoted.bare_eq, List.nil_append] at hu
          have hpos := List.length_pos_iff.mpr hquoted.ne_nil
          rw [List.length_append] at hn
          exact .quoted hquoted (ih rest.length (by omega) hrest.closed hu hplain rfl)
      | @char c s hmark _ hs =>
          rw [bare_cons hmark] at hu
          rw [List.length_cons] at hn
          by_cases hopening : c = '('
          · subst hopening
            rw [outermost?_opening] at hu
            obtain ⟨inner, rest, hinner, hrest, hafter, rfl⟩ := exists_partner hs.closed hu
            rw [List.length_append, List.length_cons] at hn
            exact .pair hinner (ih rest.length (by omega) hrest hafter hplain rfl)
          · by_cases hclosing : c = ')'
            · subst hclosing
              rw [outermost?_zero_closing] at hu
              cases hu
            · have hparenthesis : isParenthesis c = false := by
                simp [isParenthesis, hopening, hclosing]
              rw [outermost?_zero_char hparenthesis] at hu
              obtain ⟨v, hv, rfl⟩ := Option.map_eq_some_iff.mp hu
              obtain ⟨hc, hrest⟩ := List.forall_mem_cons.mp hplain
              exact .char hmark hparenthesis hc (ih s.length (by omega) hs.closed hv hrest rfl)

/-- The counter and the division into quotes, pairs and plain characters agree. -/
theorem balanced_iff : Balanced plain s ↔
    Closed s ∧ ∃ u, outermost? 0 (bare s) = some u ∧ ∀ c ∈ u, plain c = true := by
  constructor
  · exact fun h => ⟨h.closed, h.outermost?_zero⟩
  · rintro ⟨hclosed, u, hu, hplain⟩
    exact balanced_of_outermost? hclosed hu hplain

theorem Balanced.append (hs : Balanced plain s) (ht : Balanced plain t) :
    Balanced plain (s ++ t) := by
  induction hs with
  | nil => exact ht
  | quoted hquoted _ ih =>
      rw [List.append_assoc]
      exact .quoted hquoted (ih ht)
  | char hmark hparenthesis hplain _ ih => exact .char hmark hparenthesis hplain (ih ht)
  | pair hinside _ _ ih =>
      rw [List.cons_append, List.append_assoc, List.cons_append]
      exact .pair hinside (ih ht)

theorem Balanced.mono {other : Char → Bool} (h : Balanced plain s)
    (hall : ∀ c, plain c = true → other c = true) : Balanced other s := by
  induction h with
  | nil => exact .nil
  | quoted hquoted _ ih => exact .quoted hquoted (ih hall)
  | char hmark hparenthesis hplain _ ih =>
      exact .char hmark hparenthesis (hall _ hplain) (ih hall)
  | pair hinside _ _ ih => exact .pair hinside (ih hall)

/-- A plain character at the front does not matter. -/
theorem balanced_cons_iff {c : Char} (hmark : isMark c = false)
    (hparenthesis : isParenthesis c = false) (hplain : plain c = true) :
    Balanced plain (c :: s) ↔ Balanced plain s := by
  refine ⟨fun h => ?_, .char hmark hparenthesis hplain⟩
  obtain ⟨hclosed, u, hu, hall⟩ := balanced_iff.mp h
  rw [bare_cons hmark, outermost?_zero_char hparenthesis] at hu
  obtain ⟨v, hv, rfl⟩ := Option.map_eq_some_iff.mp hu
  exact balanced_iff.mpr ⟨(closed_cons_iff hmark).mp hclosed, v, hv,
    (List.forall_mem_cons.mp hall).2⟩

theorem balanced_append_iff_of_plain {w : List Char}
    (h : ∀ c ∈ w, isMark c = false ∧ isParenthesis c = false ∧ plain c = true) :
    Balanced plain (w ++ s) ↔ Balanced plain s := by
  induction w with
  | nil => rfl
  | cons c w ih =>
      obtain ⟨⟨hmark, hparenthesis, hplain⟩, hw⟩ := List.forall_mem_cons.mp h
      rw [List.cons_append, balanced_cons_iff hmark hparenthesis hplain, ih hw]

end TemplateMarkup.Text
