import TemplateMarkup.Proofs.Text.OpenQuote
import TemplateMarkup.Proofs.Text.Parentheses

/-! # Cutting a text

A text is cut at separators, which are left out. Whether a character separates
depends on the state of an automaton that is run over the text: a pipe
separates outside quotes, and a comma outside quotes and parentheses. What the
automaton runs over without a cut belongs to one piece.
-/

namespace TemplateMarkup.Text

open QuoteState

variable {σ : Type} {next : σ → Char → σ} {cuts : σ → Char → Bool} {q r : σ}
  {e : QuoteState → σ} {plain : Char → Bool} {s t : List Char} {c : Char}

/-- The pieces of a text between its separators. -/
def cutWhere (next : σ → Char → σ) (cuts : σ → Char → Bool) : σ → List Char → List (List Char)
  | _, [] => [[]]
  | q, c :: s =>
      if cuts q c then [] :: cutWhere next cuts (next q c) s
      else (cutWhere next cuts (next q c) s).modifyHead (c :: ·)

/-- Whether the automaton gets over a text from one state to another without a cut. -/
def Passes (next : σ → Char → σ) (cuts : σ → Char → Bool) (q : σ) (s : List Char) (r : σ) : Prop :=
  ∀ t, cutWhere next cuts q (s ++ t) = (cutWhere next cuts r t).modifyHead (s ++ ·)

theorem passes_nil : Passes next cuts q [] q := by
  intro t
  rw [List.nil_append]
  cases cutWhere next cuts q t <;> rfl

theorem passes_cons (hc : cuts q c = false) (h : Passes next cuts (next q c) s r) :
    Passes next cuts q (c :: s) r := by
  intro t
  rw [List.cons_append, cutWhere, if_neg (by simp [hc]), h t, List.modifyHead_modifyHead]
  rfl

theorem Passes.append {p : σ} (hs : Passes next cuts q s r) (ht : Passes next cuts r t p) :
    Passes next cuts q (s ++ t) p := by
  intro u
  rw [List.append_assoc, hs, ht, List.modifyHead_modifyHead]
  congr 1
  funext v
  exact (List.append_assoc s t v).symm

/-- What is passed to the end of a text is its last piece. -/
theorem Passes.cutWhere_eq (h : Passes next cuts q s r) : cutWhere next cuts q s = [s] := by
  calc cutWhere next cuts q s
      = cutWhere next cuts q (s ++ []) := by rw [List.append_nil]
    _ = [s ++ []] := h []
    _ = [s] := by rw [List.append_nil]

/-- What is passed up to a separator is a piece. -/
theorem Passes.cutWhere_cons (h : Passes next cuts q s r) (hc : cuts r c = true) (t : List Char) :
    cutWhere next cuts q (s ++ c :: t) = s :: cutWhere next cuts (next r c) t := by
  rw [h, cutWhere, if_pos hc, List.modifyHead_cons, List.append_nil]

/-- Whether an automaton keeps track of quotes, in states `e q`, and does not cut inside them nor
at their marks. -/
structure FollowsQuotes (next : σ → Char → σ) (cuts : σ → Char → Bool) (e : QuoteState → σ) :
    Prop where
  next_eq : ∀ q c, (q = outside → isMark c = true) → next (e q) c = e (q.next c)
  uncut : ∀ q c, (q = outside → isMark c = true) → cuts (e q) c = false

theorem exposed_cons_eq_nil_iff {q : QuoteState} : q.exposed (c :: s) = [] ↔
    (q = outside → isMark c = true) ∧ (q.next c).exposed s = [] := by
  cases q with
  | outside => by_cases hc : isMark c = true <;> simp [exposed, QuoteState.next, hc]
  | inside mark => simp [exposed]
  | escaped mark => simp [exposed]

/-- Quotes are passed, closed or not. -/
theorem FollowsQuotes.passes_of_exposed (h : FollowsQuotes next cuts e) {q : QuoteState}
    (hs : q.exposed s = []) : Passes next cuts (e q) s (e (q.after s)) := by
  induction s generalizing q with
  | nil => exact passes_nil
  | cons c s ih =>
      obtain ⟨hmark, hrest⟩ := exposed_cons_eq_nil_iff.mp hs
      apply passes_cons (h.uncut q c hmark)
      rw [h.next_eq q c hmark]
      exact ih hrest

theorem FollowsQuotes.passes_quoted (h : FollowsQuotes next cuts e) (hs : Quoted s) :
    Passes next cuts (e outside) s (e outside) := by
  have hclosed : outside.after s = outside := hs.closed
  have hpasses := h.passes_of_exposed hs.bare_eq
  rwa [hclosed] at hpasses

theorem OpenQuote.bare_eq (h : OpenQuote s) : bare s = [] := by
  obtain ⟨mark, rest, rfl, hmark, w, hw, rfl | rfl⟩ := h
  · simp [bare, exposed, hmark, hw.exposed_eq]
  · simp [bare, exposed, hmark, exposed_append, hw.exposed_eq, hw.after_eq]

/-- Complete quotes and plain characters are passed if the plain characters are. -/
theorem FollowsQuotes.passes_fluent (h : FollowsQuotes next cuts e)
    (hplain : ∀ c, isMark c = false → plain c = true →
      next (e outside) c = e outside ∧ cuts (e outside) c = false)
    (hs : Fluent plain s) : Passes next cuts (e outside) s (e outside) := by
  induction hs with
  | nil => exact passes_nil
  | quoted hquoted _ ih => exact (h.passes_quoted hquoted).append ih
  | char hmark hc _ ih =>
      obtain ⟨hnext, huncut⟩ := hplain _ hmark hc
      apply passes_cons huncut
      rwa [hnext]

/-! ### Stages -/

/-- Whether a text is cut at a pipe. -/
def cutsPipe (q : QuoteState) (c : Char) : Bool :=
  decide (q = outside) && decide (c = '|')

/-- The stages of a text, cut at the pipes outside quotes. -/
def stages (s : List Char) : List (List Char) :=
  cutWhere QuoteState.next cutsPipe outside s

theorem followsQuotes_stages : FollowsQuotes QuoteState.next cutsPipe id := by
  refine ⟨fun _ _ _ => rfl, fun q c hmark => ?_⟩
  by_cases hq : q = outside
  · have hc : c ≠ '|' := by
      rintro rfl
      exact absurd (hmark hq) (by decide)
    simp [cutsPipe, hc]
  · simp [cutsPipe, hq]

theorem Fluent.passes (h : Fluent plain s) (hplain : ∀ c, plain c = true → c ≠ '|') :
    Passes QuoteState.next cutsPipe outside s outside :=
  followsQuotes_stages.passes_fluent
    (fun c hmark hc => ⟨if_neg (by simp [hmark]), by simp [cutsPipe, hplain c hc]⟩) h

theorem stages_of_fluent (h : Fluent plain s) (hplain : ∀ c, plain c = true → c ≠ '|') :
    stages s = [s] :=
  (h.passes hplain).cutWhere_eq

theorem stages_append_openQuote (h : Fluent plain s) (hplain : ∀ c, plain c = true → c ≠ '|')
    (ht : OpenQuote t) : stages (s ++ t) = [s ++ t] :=
  ((h.passes hplain).append (followsQuotes_stages.passes_of_exposed ht.bare_eq)).cutWhere_eq

theorem stages_append_pipe (h : Fluent plain s) (hplain : ∀ c, plain c = true → c ≠ '|')
    (t : List Char) : stages (s ++ '|' :: t) = s :: stages t :=
  (h.passes hplain).cutWhere_cons rfl t

/-- A pipe inside a quote belongs to its stage. -/
example : stages ['a', '|', '"', '|', '"', 'b'] = [['a'], ['"', '|', '"', 'b']] := by decide

/-! ### Pieces of a list of arguments -/

/-- The state of the quotes and the number of open parentheses, which do not count in quotes. -/
def nextPair : QuoteState × Nat → Char → QuoteState × Nat
  | (outside, depth), c =>
      (outside.next c, if c = '(' then depth + 1 else if c = ')' then depth - 1 else depth)
  | (q, depth), c => (q.next c, depth)

/-- Outside quotes only marks and parentheses make a difference. -/
theorem nextPair_of_plain (hmark : isMark c = false) (hparenthesis : isParenthesis c = false)
    (depth : Nat) : nextPair (outside, depth) c = (outside, depth) := by
  simp only [isParenthesis, Bool.or_eq_false_iff, decide_eq_false_iff_not] at hparenthesis
  simp [nextPair, QuoteState.next, hmark, hparenthesis.1, hparenthesis.2]

/-- Whether a text is cut at a comma. -/
def cutsComma (q : QuoteState × Nat) (c : Char) : Bool :=
  decide (q = (outside, 0)) && decide (c = ',')

/-- The pieces of a text, cut at the commas outside quotes and parentheses. -/
def listPieces (s : List Char) : List (List Char) :=
  cutWhere nextPair cutsComma (outside, 0) s

theorem followsQuotes_listPieces (depth : Nat) :
    FollowsQuotes nextPair cutsComma fun q => (q, depth) := by
  refine ⟨fun q c hmark => ?_, fun q c hmark => ?_⟩
  · cases q with
    | outside =>
        have hopen : c ≠ '(' := by
          rintro rfl
          exact absurd (hmark rfl) (by decide)
        have hclose : c ≠ ')' := by
          rintro rfl
          exact absurd (hmark rfl) (by decide)
        simp [nextPair, hopen, hclose]
    | inside mark => rfl
    | escaped mark => rfl
  · by_cases hq : q = outside
    · have hc : c ≠ ',' := by
        rintro rfl
        exact absurd (hmark hq) (by decide)
      simp [cutsComma, hc]
    · simp [cutsComma, hq]

/-- A balanced text is passed inside parentheses, and outside if it holds no comma there. -/
theorem Balanced.passes (h : Balanced plain s) {depth : Nat}
    (hplain : depth = 0 → ∀ c, plain c = true → c ≠ ',') :
    Passes nextPair cutsComma (outside, depth) s (outside, depth) := by
  induction h generalizing depth with
  | nil => exact passes_nil
  | quoted hquoted _ ih =>
      exact ((followsQuotes_listPieces depth).passes_quoted hquoted).append (ih hplain)
  | @char plain c s hmark hparenthesis hc _ ih =>
      have huncut : cutsComma (outside, depth) c = false := by
        by_cases hdepth : depth = 0
        · simp [cutsComma, hplain hdepth c hc]
        · simp [cutsComma, hdepth]
      apply passes_cons huncut
      rw [nextPair_of_plain hmark hparenthesis]
      exact ih hplain
  | pair _ _ ihinside ihrest =>
      have hopen : cutsComma (outside, depth) '(' = false := by simp [cutsComma]
      have hclose : cutsComma (outside, depth + 1) ')' = false := by simp [cutsComma]
      apply passes_cons hopen
      apply (ihinside fun hdepth => absurd hdepth (Nat.succ_ne_zero depth)).append
      exact passes_cons hclose (ihrest hplain)

theorem listPieces_of_balanced (h : Balanced plain s) (hplain : ∀ c, plain c = true → c ≠ ',') :
    listPieces s = [s] :=
  (h.passes fun _ => hplain).cutWhere_eq

theorem listPieces_append_comma (h : Balanced plain s) (hplain : ∀ c, plain c = true → c ≠ ',')
    (t : List Char) : listPieces (s ++ ',' :: t) = s :: listPieces t :=
  (h.passes fun _ => hplain).cutWhere_cons rfl t

/-- A comma inside parentheses belongs to its piece. -/
example : listPieces ['f', '(', 'a', ',', 'b', ')', ',', ' ', 'c'] =
    [['f', '(', 'a', ',', 'b', ')'], [' ', 'c']] := by decide

end TemplateMarkup.Text
