import TemplateMarkup.Text.Blank

/-! # Quotation

A text is read from left to right by an automaton: a quotation mark opens a
quote, inside a quote a backslash protects the next character, and the same
mark closes the quote. A text whose quotes all close is equally a row of plain
characters and complete quotes.
-/

namespace TemplateMarkup.Text

/-- The two quotation marks. -/
def isMark (c : Char) : Bool :=
  c = '"' || c = '\''

theorem not_gap_of_isMark {c : Char} (h : isMark c = true) : isGap c = false := by
  simp only [isMark, Bool.or_eq_true, decide_eq_true_eq] at h
  rcases h with rfl | rfl <;> rfl

/-- Where the reading of a text stands. -/
inductive QuoteState where
  | outside
  | inside (mark : Char)
  | escaped (mark : Char)
  deriving DecidableEq

namespace QuoteState

def next : QuoteState → Char → QuoteState
  | outside, c => if isMark c then inside c else outside
  | inside mark, c =>
      if c = '\\' then escaped mark else if c = mark then outside else inside mark
  | escaped mark, _ => inside mark

/-- Where the reading stands after a text. -/
def after (q : QuoteState) (s : List Char) : QuoteState :=
  s.foldl next q

/-- The characters of a text that stand outside quotes, without the marks. -/
def exposed : QuoteState → List Char → List Char
  | _, [] => []
  | outside, c :: s => if isMark c then exposed (inside c) s else c :: exposed outside s
  | q, c :: s => exposed (q.next c) s

@[simp] theorem after_nil (q : QuoteState) : q.after [] = q := rfl

@[simp] theorem after_cons (q : QuoteState) (c : Char) (s : List Char) :
    q.after (c :: s) = (q.next c).after s := rfl

theorem after_append (q : QuoteState) (s t : List Char) :
    q.after (s ++ t) = (q.after s).after t :=
  List.foldl_append

@[simp] theorem exposed_nil (q : QuoteState) : q.exposed [] = [] := by
  cases q <;> rfl

theorem exposed_append (q : QuoteState) (s t : List Char) :
    q.exposed (s ++ t) = q.exposed s ++ (q.after s).exposed t := by
  induction s generalizing q with
  | nil => simp
  | cons c s ih =>
      cases q with
      | outside => by_cases hc : isMark c = true <;> simp [exposed, next, hc, ih]
      | inside mark => simp [exposed, ih]
      | escaped mark => simp [exposed, ih]

theorem isMark_of_mem_exposed {q : QuoteState} {s : List Char} {c : Char}
    (h : c ∈ q.exposed s) : isMark c = false := by
  induction s generalizing q with
  | nil => simp at h
  | cons d s ih =>
      cases q with
      | outside =>
          by_cases hd : isMark d = true
          · rw [exposed, if_pos hd] at h
            exact ih h
          · rw [exposed, if_neg hd] at h
            rcases List.mem_cons.mp h with rfl | h
            · simpa using hd
            · exact ih h
      | inside mark => exact ih h
      | escaped mark => exact ih h

end QuoteState

open QuoteState

/-- Whether all quotes of a text close. -/
def Closed (s : List Char) : Prop :=
  outside.after s = outside

instance (s : List Char) : Decidable (Closed s) :=
  inferInstanceAs (Decidable (_ = _))

/-- The characters outside quotes. -/
def bare (s : List Char) : List Char :=
  outside.exposed s

@[simp] theorem closed_nil : Closed [] := rfl

@[simp] theorem bare_nil : bare [] = [] := rfl

theorem isMark_of_mem_bare {s : List Char} {c : Char} (h : c ∈ bare s) : isMark c = false :=
  isMark_of_mem_exposed h

theorem Closed.append_iff {s t : List Char} (hs : Closed s) : Closed (s ++ t) ↔ Closed t := by
  unfold Closed at hs ⊢
  rw [after_append, hs]

theorem Closed.append {s t : List Char} (hs : Closed s) (ht : Closed t) : Closed (s ++ t) :=
  hs.append_iff.mpr ht

theorem Closed.bare_append {s : List Char} (hs : Closed s) (t : List Char) :
    bare (s ++ t) = bare s ++ bare t := by
  unfold Closed at hs
  rw [bare, exposed_append, hs]
  rfl

theorem closed_cons_iff {c : Char} (hc : isMark c = false) {s : List Char} :
    Closed (c :: s) ↔ Closed s := by
  simp [Closed, next, hc]

theorem bare_cons {c : Char} (hc : isMark c = false) (s : List Char) :
    bare (c :: s) = c :: bare s := by
  simp [bare, exposed, hc]

theorem closed_of_forall {s : List Char} (h : ∀ c ∈ s, isMark c = false) : Closed s := by
  induction s with
  | nil => rfl
  | cons c s ih =>
      rw [closed_cons_iff (h c (List.mem_cons_self ..))]
      exact ih fun d hd => h d (List.mem_cons_of_mem c hd)

theorem bare_of_forall {s : List Char} (h : ∀ c ∈ s, isMark c = false) : bare s = s := by
  induction s with
  | nil => rfl
  | cons c s ih =>
      rw [bare_cons (h c (List.mem_cons_self ..)), ih fun d hd => h d (List.mem_cons_of_mem c hd)]

/-- What may stand inside a quote with a given mark: protected characters, and all others except
the mark and the backslash. -/
inductive QuoteBody (mark : Char) : List Char → Prop
  | nil : QuoteBody mark []
  | escape {c : Char} {s : List Char} (body : QuoteBody mark s) : QuoteBody mark ('\\' :: c :: s)
  | char {c : Char} {s : List Char} (not_escape : c ≠ '\\') (not_mark : c ≠ mark)
      (body : QuoteBody mark s) : QuoteBody mark (c :: s)

/-- What may follow a mark that never closes. -/
def Unclosed (mark : Char) (s : List Char) : Prop :=
  ∃ w, QuoteBody mark w ∧ (s = w ∨ s = w ++ ['\\'])

/-- A complete quote with its marks. -/
def Quoted (s : List Char) : Prop :=
  ∃ mark w, isMark mark = true ∧ QuoteBody mark w ∧ s = mark :: (w ++ [mark])

theorem QuoteBody.after_eq {mark : Char} {w : List Char} (h : QuoteBody mark w) :
    (inside mark).after w = inside mark := by
  induction h with
  | nil => rfl
  | escape _ ih => simpa [next] using ih
  | char hescape hmark _ ih => simpa [next, hescape, hmark] using ih

theorem QuoteBody.exposed_eq {mark : Char} {w : List Char} (h : QuoteBody mark w) :
    (inside mark).exposed w = [] := by
  induction h with
  | nil => rfl
  | escape _ ih => simpa [exposed, next] using ih
  | char hescape hmark _ ih => simpa [exposed, next, hescape, hmark] using ih

theorem ne_escape_of_isMark {mark : Char} (h : isMark mark = true) : mark ≠ '\\' := by
  rintro rfl
  revert h
  decide

theorem Quoted.ne_nil {u : List Char} (h : Quoted u) : u ≠ [] := by
  obtain ⟨mark, w, _, _, rfl⟩ := h
  exact List.cons_ne_nil _ _

/-- A quote ends with its mark. -/
theorem Quoted.last_not_gap {u : List Char} (h : Quoted u) : u.getLast?.any isGap = false := by
  obtain ⟨mark, w, hmark, _, rfl⟩ := h
  rw [← List.cons_append, List.getLast?_concat]
  exact not_gap_of_isMark hmark

theorem Quoted.closed {u : List Char} (h : Quoted u) : Closed u := by
  obtain ⟨mark, w, hmark, hbody, rfl⟩ := h
  simp [Closed, next, hmark, after_append, hbody.after_eq, ne_escape_of_isMark hmark]

theorem Quoted.bare_eq {u : List Char} (h : Quoted u) : bare u = [] := by
  obtain ⟨mark, w, hmark, hbody, rfl⟩ := h
  simp [bare, exposed, hmark, exposed_append, hbody.after_eq, hbody.exposed_eq]

/-- Behind a mark either the quote closes, or the text ends inside it. -/
theorem quote_closes_or_not (mark : Char) : (s : List Char) →
    (∃ w rest, QuoteBody mark w ∧ s = w ++ mark :: rest) ∨ Unclosed mark s
  | [] => Or.inr ⟨[], .nil, Or.inl rfl⟩
  | [c] => by
      by_cases hmark : c = mark
      · exact Or.inl ⟨[], [], .nil, by rw [hmark]; rfl⟩
      · by_cases hescape : c = '\\'
        · exact Or.inr ⟨[], .nil, Or.inr (by rw [hescape]; rfl)⟩
        · exact Or.inr ⟨[c], .char hescape hmark .nil, Or.inl rfl⟩
  | c :: d :: s => by
      by_cases hmark : c = mark
      · exact Or.inl ⟨[], d :: s, .nil, by rw [hmark]; rfl⟩
      · by_cases hescape : c = '\\'
        · subst hescape
          rcases quote_closes_or_not mark s with ⟨w, rest, hw, rfl⟩ | ⟨w, hw, hs⟩
          · exact Or.inl ⟨'\\' :: d :: w, rest, .escape hw, rfl⟩
          · exact Or.inr ⟨'\\' :: d :: w, .escape hw, by simpa using hs⟩
        · rcases quote_closes_or_not mark (d :: s) with ⟨w, rest, hw, hs⟩ | ⟨w, hw, hs⟩
          · exact Or.inl ⟨c :: w, rest, .char hescape hmark hw, by rw [hs]; rfl⟩
          · exact Or.inr ⟨c :: w, .char hescape hmark hw, by simpa using hs⟩

theorem Unclosed.after_ne {mark : Char} {s : List Char} (h : Unclosed mark s) :
    (inside mark).after s ≠ outside := by
  obtain ⟨w, hw, rfl | rfl⟩ := h
  · rw [hw.after_eq]
    exact QuoteState.noConfusion
  · rw [after_append, hw.after_eq]
    exact QuoteState.noConfusion

/-- A text whose quotes close is a complete quote and such a text, if it begins with a mark. -/
theorem exists_quoted_of_closed {mark : Char} {s : List Char} (hmark : isMark mark = true)
    (h : Closed (mark :: s)) : ∃ u rest, Quoted u ∧ Closed rest ∧ mark :: s = u ++ rest := by
  have hafter : (inside mark).after s = outside := by
    simpa [Closed, next, hmark] using h
  rcases quote_closes_or_not mark s with ⟨w, rest, hw, rfl⟩ | hunclosed
  · have hquoted : Quoted (mark :: (w ++ [mark])) := ⟨mark, w, hmark, hw, rfl⟩
    have hsplit : mark :: (w ++ mark :: rest) = mark :: (w ++ [mark]) ++ rest := by simp
    refine ⟨_, rest, hquoted, ?_, hsplit⟩
    rwa [hsplit, hquoted.closed.append_iff] at h
  · exact absurd hafter hunclosed.after_ne

/-- A row of complete quotes and plain characters of a class. -/
inductive Fluent (plain : Char → Bool) : List Char → Prop
  | nil : Fluent plain []
  | quoted {u s : List Char} (quote : Quoted u) (rest : Fluent plain s) : Fluent plain (u ++ s)
  | char {c : Char} {s : List Char} (not_mark : isMark c = false) (is_plain : plain c = true)
      (rest : Fluent plain s) : Fluent plain (c :: s)

theorem Fluent.closed {plain : Char → Bool} {s : List Char} (h : Fluent plain s) : Closed s := by
  induction h with
  | nil => rfl
  | quoted hquoted _ ih => exact hquoted.closed.append ih
  | char hmark _ _ ih => exact (closed_cons_iff hmark).mpr ih

theorem Fluent.plain_of_mem_bare {plain : Char → Bool} {s : List Char} (h : Fluent plain s) :
    ∀ c ∈ bare s, plain c = true := by
  induction h with
  | nil =>
      intro c hc
      cases hc
  | quoted hquoted _ ih => simpa [hquoted.closed.bare_append, hquoted.bare_eq] using ih
  | char hmark hplain _ ih => simpa [bare_cons hmark, hplain] using ih

/-- The automaton and the division into quotes and plain characters agree. -/
theorem fluent_iff {plain : Char → Bool} {s : List Char} :
    Fluent plain s ↔ Closed s ∧ ∀ c ∈ bare s, plain c = true := by
  constructor
  · exact fun h => ⟨h.closed, h.plain_of_mem_bare⟩
  · rintro ⟨hclosed, hplain⟩
    induction hn : s.length using Nat.strongRecOn generalizing s with
    | ind n ih =>
        cases s with
        | nil => exact .nil
        | cons c s =>
            by_cases hmark : isMark c = true
            · obtain ⟨u, rest, hquoted, hrest, hsplit⟩ := exists_quoted_of_closed hmark hclosed
              rw [hsplit] at hn hplain ⊢
              have hlength := List.length_pos_iff.mpr hquoted.ne_nil
              rw [hquoted.closed.bare_append, hquoted.bare_eq] at hplain
              rw [List.length_append] at hn
              exact .quoted hquoted (ih rest.length (by omega) hrest hplain rfl)
            · rw [Bool.not_eq_true] at hmark
              rw [bare_cons hmark] at hplain
              rw [List.length_cons] at hn
              refine .char hmark (hplain c (List.mem_cons_self ..)) ?_
              exact ih s.length (by omega) ((closed_cons_iff hmark).mp hclosed)
                (fun d hd => hplain d (List.mem_cons_of_mem c hd)) rfl

theorem Closed.fluent {s : List Char} (h : Closed s) : Fluent (fun _ => true) s :=
  fluent_iff.mpr ⟨h, fun _ _ => rfl⟩

end TemplateMarkup.Text
