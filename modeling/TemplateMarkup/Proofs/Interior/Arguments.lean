import TemplateMarkup.Proofs.Grammar.Quoted
import TemplateMarkup.Proofs.Interior.Gaps
import TemplateMarkup.Proofs.Text.Parentheses

/-! # Arguments of a call

An argument is a balanced text without commas outside quotes and parentheses,
neither empty nor with a gap at either end. The grammar reads it in pieces
with gaps between them, and what it reads as an argument is one.
-/

namespace TemplateMarkup

open Grammar Recogniser Text

/-- Whether a text can stand as an argument: it is not empty, no gap stands at its ends, all its
quotes close, its parentheses outside quotes find their partners, and no comma stands outside
both. -/
structure Text.Argument (w : List Char) : Prop where
  ne_nil : w ≠ []
  head_not_gap : w.head?.any isGap = false
  last_not_gap : w.getLast?.any isGap = false
  closed : Closed w
  outer : ∃ u, outermost? 0 (bare w) = some u ∧ ',' ∉ u

theorem Text.Argument.head_append {w : List Char} (h : Argument w) (rest : List Char) :
    (w ++ rest).head?.any isGap = false :=
  head_not_gap_append h.ne_nil h.head_not_gap

namespace Grammar

/-- The characters that end a piece of an argument. -/
def isReserved (c : Char) : Bool :=
  isGap c || (isMark c || (decide (c = '(') || (decide (c = ')') || decide (c = ','))))

def isPieceChar (c : Char) : Bool :=
  !isReserved c

def isArgumentChar (c : Char) : Bool :=
  !decide (c = ',')

theorem argument_iff {w : List Char} : Argument w ↔ w ≠ [] ∧ w.head?.any isGap = false ∧
    w.getLast?.any isGap = false ∧ Balanced isArgumentChar w := by
  have hcomma : ∀ u : List Char, (∀ c ∈ u, isArgumentChar c = true) ↔ ',' ∉ u := by
    intro u
    constructor
    · intro h hmem
      exact absurd (h ',' hmem) (by decide)
    · intro h c hc
      have hne : c ≠ ',' := fun heq => h (heq ▸ hc)
      simpa [isArgumentChar] using hne
  simp only [balanced_iff, hcomma]
  exact ⟨fun h => ⟨h.1, h.2, h.3, h.4, h.5⟩, fun h => ⟨h.1, h.2.1, h.2.2.1, h.2.2.2.1, h.2.2.2.2⟩⟩

/-- What a piece may hold outside quotes and parentheses, an argument may hold there too. -/
theorem isPieceChar_iff {c : Char} : isPieceChar c = true ↔
    isGap c = false ∧ isMark c = false ∧ isParenthesis c = false ∧ isArgumentChar c = true := by
  simp [isPieceChar, isReserved, isParenthesis, isArgumentChar, and_assoc]

def isNestedChar (c : Char) : Bool :=
  !(isMark c || isParenthesis c)

theorem tests_reserved : Tests (firstOf reserved) isReserved := by
  have hclass : isReserved = fun c => isGap c || (isMark c || (decide (c = '(') ||
      (decide (c = ')') || (decide (c = ',') || false)))) := by
    funext c
    rw [isReserved, Bool.or_false]
  rw [hclass]
  exact tests_gap.orElse (tests_quote.orElse ((tests_literal '(').orElse
    ((tests_literal ')').orElse ((tests_literal ',').orElse tests_never))))

/-- One step of a piece of an argument. -/
def pieceUnit : Recogniser Rule :=
  firstOf [quoted, nested, charIn isPieceChar]

theorem argPiece_eq : argPiece = many1 pieceUnit := by
  simp only [argPiece, tests_reserved.charBut_eq]
  rfl

theorem nestedPiece_eq (inner : Recogniser Rule) :
    nestedPiece inner = firstOf [quoted, inner, charIn isNestedChar] := by
  have h : Tests (firstOf [quote, literal ['('], literal [')']]) fun c =>
      isMark c || (decide (c = '(') || (decide (c = ')') || false)) :=
    tests_quote.orElse ((tests_literal '(').orElse ((tests_literal ')').orElse tests_never))
  simp only [nestedPiece, h.charBut_eq, Bool.or_false]
  rfl

theorem progressive_nested : Progressive nested := by
  rw [nested_eq]
  apply (progressive_literal (List.cons_ne_nil _ _)).inOrder
  simp only [List.forall_mem_cons]
  exact ⟨(lossless_nestedPiece lossless_nested).many, lossless_literal _, List.forall_mem_nil _⟩

theorem progressive_nestedPiece : Progressive (nestedPiece nested) := by
  rw [nestedPiece_eq]
  apply progressive_firstOf
  simp only [List.forall_mem_cons]
  exact ⟨progressive_quoted, progressive_nested, progressive_charIn _, List.forall_mem_nil _⟩

theorem progressive_pieceUnit : Progressive pieceUnit := by
  apply progressive_firstOf
  simp only [List.forall_mem_cons]
  exact ⟨progressive_quoted, progressive_nested, progressive_charIn _, List.forall_mem_nil _⟩

theorem lossless_pieceUnit : Lossless pieceUnit := by
  apply lossless_firstOf
  simp only [List.forall_mem_cons]
  exact ⟨lossless_quoted, lossless_nested, lossless_charIn _, List.forall_mem_nil _⟩

theorem nested_of_head {s : List Char} (h : s.head? ≠ some '(') : nested s = none := by
  rw [nested_eq]
  refine inOrder_of_none (literal_eq_none_iff.mpr ?_)
  rintro ⟨t, rfl⟩
  exact h rfl

/-- Without a mark or a parenthesis ahead, only the third of three alternatives can match. -/
theorem firstOf_quoted_nested {p : Recogniser Rule} {c : Char} (hmark : isMark c = false)
    (hopening : c ≠ '(') (s : List Char) :
    firstOf [quoted, nested, p] (c :: s) = p (c :: s) := by
  rw [firstOf_of_none (quoted_of_head (by simpa using hmark)),
    firstOf_of_none (nested_of_head (by simpa using hopening))]
  cases hread : p (c :: s) with
  | none => exact firstOf_of_none hread
  | some found => exact firstOf_of_some hread

theorem ne_opening_of_isParenthesis {c : Char} (h : isParenthesis c = false) : c ≠ '(' := by
  rintro rfl
  cases h

theorem firstOf_nested {p : Recogniser Rule} {s rest : List Char} {ts : List (ParseTree Rule)}
    (h : nested ('(' :: s) = some (ts, rest)) :
    firstOf [quoted, nested, p] ('(' :: s) = some (ts, rest) := by
  rw [firstOf_of_none (quoted_of_head (by rfl))]
  exact firstOf_of_some h

theorem nested_of_many {inner rest : List Char}
    (h : many (nestedPiece nested) (inner ++ ')' :: rest) =
      some (inner.map .char, ')' :: rest)) :
    nested ('(' :: (inner ++ ')' :: rest)) = some (('(' :: (inner ++ [')'])).map .char, rest) := by
  rw [nested_eq, parenthesised, inOrder_of_some (literal_cons '(' _), inOrder_of_some h,
    inOrder_singleton, literal_cons]
  simp

/-- Between parentheses a balanced text is read up to the closing one. -/
theorem many_nestedPiece {plain : Char → Bool} {inner : List Char} (h : Balanced plain inner)
    (rest : List Char) :
    many (nestedPiece nested) (inner ++ ')' :: rest) = some (inner.map .char, ')' :: rest) := by
  induction h generalizing rest with
  | nil =>
      apply many_of_none
      rw [nestedPiece_eq, List.nil_append, firstOf_quoted_nested (by decide) (by decide)]
      rfl
  | @quoted plain u s hquoted _ ih =>
      have hread : nestedPiece nested (u ++ (s ++ ')' :: rest)) =
          some (u.map .char, s ++ ')' :: rest) := firstOf_of_some (quoted_append hquoted _)
      rw [List.append_assoc, many_of_some progressive_nestedPiece hread, ih]
      simp
  | @char plain c s hmark hparenthesis _ _ ih =>
      have hread : nestedPiece nested (c :: (s ++ ')' :: rest)) =
          some ([.char c], s ++ ')' :: rest) := by
        rw [nestedPiece_eq, firstOf_quoted_nested hmark (ne_opening_of_isParenthesis hparenthesis)]
        simp [charIn, isNestedChar, hmark, hparenthesis]
      rw [List.cons_append, many_of_some progressive_nestedPiece hread, ih]
      rfl
  | @pair plain inner s _ _ ihinside ihrest =>
      have hread : nestedPiece nested ('(' :: (inner ++ ')' :: (s ++ ')' :: rest))) =
          some (('(' :: (inner ++ [')'])).map .char, s ++ ')' :: rest) :=
        firstOf_nested (nested_of_many (ihinside _))
      rw [List.cons_append, List.append_assoc, List.cons_append,
        many_of_some progressive_nestedPiece hread, ihrest]
      simp

theorem nested_append {plain : Char → Bool} {inner : List Char} (h : Balanced plain inner)
    (rest : List Char) :
    nested ('(' :: (inner ++ ')' :: rest)) = some (('(' :: (inner ++ [')'])).map .char, rest) :=
  nested_of_many (many_nestedPiece h rest)

/-- A balanced text without gaps and commas is one piece. -/
theorem many_pieceUnit {w rest : List Char} (h : Balanced isPieceChar w)
    (hrest : pieceUnit rest = none) :
    many pieceUnit (w ++ rest) = some (w.map .char, rest) := by
  generalize hplain : isPieceChar = plain at h
  induction h with
  | nil => exact many_of_none hrest
  | @quoted plain u s hquoted _ ih =>
      have hread : pieceUnit (u ++ (s ++ rest)) = some (u.map .char, s ++ rest) :=
        firstOf_of_some (quoted_append hquoted _)
      rw [List.append_assoc, many_of_some progressive_pieceUnit hread, ih hplain]
      simp
  | @char plain c s hmark hparenthesis hc _ ih =>
      have hread : pieceUnit (c :: (s ++ rest)) = some ([.char c], s ++ rest) := by
        rw [pieceUnit, firstOf_quoted_nested hmark (ne_opening_of_isParenthesis hparenthesis)]
        simp [charIn, hplain, hc]
      rw [List.cons_append, many_of_some progressive_pieceUnit hread, ih hplain]
      rfl
  | @pair plain inner s hinside _ _ ihrest =>
      have hread : pieceUnit ('(' :: (inner ++ ')' :: (s ++ rest))) =
          some (('(' :: (inner ++ [')'])).map .char, s ++ rest) :=
        firstOf_nested (nested_append hinside _)
      rw [List.cons_append, List.append_assoc, List.cons_append,
        many_of_some progressive_pieceUnit hread, ihrest hplain]
      simp

/-- A gap and a piece of an argument. -/
def nextPiece : Recogniser Rule := inOrder [many1 gap, argPiece]

theorem callArg_eq : callArg = node .callArg (inOrder [argPiece, many nextPiece]) := rfl

theorem lossless_argPiece : Lossless argPiece := by
  rw [argPiece_eq]
  exact lossless_pieceUnit.many1

theorem lossless_nextPiece : Lossless nextPiece := by
  apply lossless_inOrder
  simp only [List.forall_mem_cons]
  exact ⟨lossless_gap.many1, lossless_argPiece, List.forall_mem_nil _⟩

theorem progressive_nextPiece : Progressive nextPiece := by
  apply (progressive_gap.many1 lossless_gap).inOrder
  simp only [List.forall_mem_cons]
  exact ⟨lossless_argPiece, List.forall_mem_nil _⟩

theorem lossless_callArg : Lossless callArg := by
  refine (lossless_inOrder ?_).node _
  simp only [List.forall_mem_cons]
  exact ⟨lossless_argPiece, lossless_nextPiece.many, List.forall_mem_nil _⟩

/-- The characters that come right behind an argument or one of its pieces. -/
def isStop (c : Char) : Bool :=
  isGap c || (decide (c = ')') || decide (c = ','))

theorem pieceUnit_of_head {s : List Char} (h : ∀ c ∈ s.head?, isStop c = true) :
    pieceUnit s = none := by
  cases s with
  | nil => rfl
  | cons c s =>
      have hc : isStop c = true := h c rfl
      have hreserved : isReserved c = true := by
        simp only [isStop, Bool.or_eq_true] at hc
        rcases hc with hc | hc | hc <;> simp [isReserved, hc]
      have hmark : isMark c = false := by
        apply Bool.eq_false_iff.mpr
        intro hmark
        have hcases : c = '"' ∨ c = '\'' := by simpa [isMark] using hmark
        rcases hcases with rfl | rfl <;> exact absurd hc (by decide)
      have hopening : c ≠ '(' := by
        rintro rfl
        revert hc
        decide
      rw [pieceUnit, firstOf_quoted_nested hmark hopening]
      simp [charIn, isPieceChar, hreserved]

/-- A piece also ends where the rest of its argument begins with a gap. -/
theorem pieceUnit_append {q rest : List Char} (hq : ∀ c ∈ q.head?, isGap c = true)
    (hrest : ∀ c ∈ rest.head?, isStop c = true) : pieceUnit (q ++ rest) = none := by
  apply pieceUnit_of_head
  intro c hc
  cases q with
  | nil => exact hrest c hc
  | cons d q =>
      obtain rfl : d = c := Option.some.inj hc
      simp [isStop, hq d rfl]

/-- A balanced text begins with a piece that runs up to its end or to a gap. -/
theorem exists_piece {w : List Char} (h : Balanced isArgumentChar w) :
    ∃ p q, w = p ++ q ∧ Balanced isPieceChar p ∧ Balanced isArgumentChar q ∧
      ∀ c ∈ q.head?, isGap c = true := by
  generalize hplain : isArgumentChar = plain at h
  induction h with
  | nil => exact ⟨[], [], rfl, .nil, .nil, by simp⟩
  | @quoted plain u s hquoted _ ih =>
      obtain ⟨p, q, rfl, hp, hq, hhead⟩ := ih hplain
      exact ⟨u ++ p, q, by simp, .quoted hquoted hp, hq, hhead⟩
  | @char plain c s hmark hparenthesis hc hs ih =>
      cases hgap : isGap c with
      | true =>
          exact ⟨[], c :: s, rfl, .nil, .char hmark hparenthesis hc hs, by simpa using hgap⟩
      | false =>
          obtain ⟨p, q, rfl, hp, hq, hhead⟩ := ih hplain
          have hpiece : isPieceChar c = true :=
            isPieceChar_iff.mpr ⟨hgap, hmark, hparenthesis, hplain ▸ hc⟩
          exact ⟨c :: p, q, rfl, .char hmark hparenthesis hpiece hp, hq, hhead⟩
  | @pair plain inner s hinside _ _ ihrest =>
      obtain ⟨p, q, rfl, hp, hq, hhead⟩ := ihrest hplain
      exact ⟨'(' :: (inner ++ ')' :: p), q, by simp, .pair hinside hp, hq, hhead⟩

/-- The piece is not empty when no gap comes first. -/
theorem exists_first_piece {w : List Char} (h : Balanced isArgumentChar w) (hne : w ≠ [])
    (hhead : w.head?.any isGap = false) :
    ∃ p q, w = p ++ q ∧ Balanced isPieceChar p ∧ p ≠ [] ∧ Balanced isArgumentChar q ∧
      ∀ c ∈ q.head?, isGap c = true := by
  obtain ⟨p, q, rfl, hp, hq, hqhead⟩ := exists_piece h
  refine ⟨p, q, rfl, hp, ?_, hq, hqhead⟩
  rintro rfl
  cases q with
  | nil => exact hne rfl
  | cons c q => simp [hqhead c rfl] at hhead

theorem argPiece_append {w rest : List Char} (h : Balanced isPieceChar w) (hne : w ≠ [])
    (hrest : pieceUnit rest = none) : argPiece (w ++ rest) = some (w.map .char, rest) := by
  rw [argPiece_eq]
  exact many1_of_many progressive_pieceUnit (many_pieceUnit h hrest) (by simpa using hne)

theorem plain_of_isGap {c : Char} (h : isGap c = true) :
    isMark c = false ∧ isParenthesis c = false ∧ isArgumentChar c = true := by
  simp only [isGap, Bool.or_eq_true, decide_eq_true_eq] at h
  rcases h with ((rfl | rfl) | rfl) | rfl <;> decide

theorem head_not_gap_of_balanced {w : List Char} (h : Balanced isPieceChar w) :
    w.head?.any isGap = false := by
  cases h with
  | nil => rfl
  | @quoted _ u s hquoted _ =>
      obtain ⟨mark, v, hmark, _, rfl⟩ := hquoted
      exact not_gap_of_isMark hmark
  | char _ _ hc _ => exact (isPieceChar_iff.mp hc).1
  | pair _ _ => rfl

theorem nextPiece_append {g w rest : List Char} (hg : ∀ c ∈ g, isGap c = true) (hgne : g ≠ [])
    (hw : Balanced isPieceChar w) (hwne : w ≠ []) (hrest : pieceUnit rest = none) :
    nextPiece (g ++ (w ++ rest)) = some ((g ++ w).map .char, rest) := by
  have hfront : (w ++ rest).head?.any isGap = false :=
    head_not_gap_append hwne (head_not_gap_of_balanced hw)
  rw [nextPiece, inOrder_of_some (many1_gap_append hg hgne hfront), inOrder_singleton,
    argPiece_append hw hwne hrest]
  simp

/-- Gaps behind the last piece of an argument belong to the argument no more. -/
theorem nextPiece_gaps {g rest : List Char} (hg : ∀ c ∈ g, isGap c = true)
    (hrest : ∀ c ∈ rest.head?, isGap c = false ∧ isStop c = true) : nextPiece (g ++ rest) = none := by
  have hhead : rest.head?.any isGap = false :=
    (Option.any_eq_false _ _).mpr fun c hc => (hrest c hc).1
  by_cases hne : g = []
  · subst hne
    exact inOrder_of_none (followedBy_of_none (charIn_of_head hhead))
  · have hpiece : argPiece rest = none := by
      rw [argPiece_eq]
      exact followedBy_of_none (pieceUnit_of_head fun c hc => (hrest c hc).2)
    rw [nextPiece, inOrder_of_some (many1_gap_append hg hne hhead), inOrder_singleton, hpiece]
    rfl

/-- What remains of an argument behind a piece is read in pieces with gaps before them. -/
theorem many_nextPiece {q rest : List Char} (hq : Balanced isArgumentChar q)
    (hhead : ∀ c ∈ q.head?, isGap c = true) (hlast : q.getLast?.any isGap = false)
    (hrest : ∀ c ∈ rest.head?, isStop c = true) (hnone : nextPiece rest = none) :
    many nextPiece (q ++ rest) = some (q.map .char, rest) := by
  induction hn : q.length using Nat.strongRecOn generalizing q with
  | ind n ih =>
      by_cases hne : q = []
      · subst hne
        exact many_of_none hnone
      · obtain ⟨g, t, rfl, hgne, htne, hg, ht⟩ := exists_gaps_append hne hhead hlast
        have hbalanced : Balanced isArgumentChar t :=
          (balanced_append_iff_of_plain fun c hc => plain_of_isGap (hg c hc)).mp hq
        obtain ⟨p, r, rfl, hp, hpne, hr, hrhead⟩ := exists_first_piece hbalanced htne ht
        have hread : nextPiece (g ++ (p ++ (r ++ rest))) =
            some ((g ++ p).map .char, r ++ rest) :=
          nextPiece_append hg hgne hp hpne (pieceUnit_append hrhead hrest)
        have hlength : r.length < n := by
          have hpos := List.length_pos_iff.mpr hgne
          simp only [List.length_append] at hn
          omega
        have htail := ih r.length hlength hr hrhead
          (getLast?_append_any (getLast?_append_any hlast)) rfl
        rw [List.append_assoc, List.append_assoc, many_of_some progressive_nextPiece hread, htail]
        simp

/-- The tree of an argument. -/
def argTree (w : List Char) : ParseTree Rule :=
  .node .callArg (w.map .char)

/-- An argument is read up to its end, with gaps behind it or not. -/
theorem callArg_append {w g rest : List Char} (h : Argument w)
    (hg : ∀ c ∈ g, isGap c = true)
    (hrest : ∀ c ∈ rest.head?, isGap c = false ∧ isStop c = true) :
    callArg (w ++ (g ++ rest)) = some ([argTree w], g ++ rest) := by
  obtain ⟨hne, hhead, hlast, hbalanced⟩ := argument_iff.mp h
  obtain ⟨p, q, rfl, hp, hpne, hq, hqhead⟩ := exists_first_piece hbalanced hne hhead
  have hstop : ∀ c ∈ (g ++ rest).head?, isStop c = true := by
    intro c hc
    cases g with
    | nil => exact (hrest c hc).2
    | cons d g =>
        obtain rfl : d = c := Option.some.inj hc
        simp [isStop, hg d (List.mem_cons_self ..)]
  rw [callArg_eq, List.append_assoc]
  apply node_of_some
  rw [inOrder_of_some (argPiece_append hp hpne (pieceUnit_append hqhead hstop)), inOrder_singleton,
    many_nextPiece hq hqhead (getLast?_append_any hlast) hstop (nextPiece_gaps hg hrest)]
  simp

theorem spells_literal (c : Char) : Spells (literal (ρ := Rule) [c]) fun w => w = [c] := by
  rw [literal_singleton]
  exact yields_charIn fun d hd => by simpa [ParseTree.textAll, ParseTree.text] using hd

theorem spells_quoted (plain : Char → Bool) : Spells quoted (Balanced plain) := by
  apply yields_quoted
  intro u hu
  rw [ParseTree.textAll_map_char, ← List.append_nil u]
  exact .quoted hu .nil

theorem spells_many_nestedPiece {inner : Recogniser Rule}
    (h : Spells inner (Balanced fun _ => true)) :
    Spells (many (nestedPiece inner)) (Balanced fun _ => true) := by
  have hchar : Spells (charIn (ρ := Rule) isNestedChar) (Balanced fun _ => true) := by
    apply yields_charIn
    intro c hc
    simp only [isNestedChar, Bool.not_eq_true', Bool.or_eq_false_iff] at hc
    exact .char hc.1 hc.2 rfl .nil
  have hround : Spells (nestedPiece inner) (Balanced fun _ => true) := by
    rw [nestedPiece_eq]
    apply yields_firstOf
    simp only [List.forall_mem_cons]
    exact ⟨spells_quoted _, h, hchar, List.forall_mem_nil _⟩
  exact hround.many .nil fun u v hu hv => hu.append hv

/-- What stands in a pair of parentheses is balanced if what counts as a pair inside is. -/
theorem spells_parenthesised {inner : Recogniser Rule}
    (h : Spells inner (Balanced fun _ => true)) :
    Spells (parenthesised inner) fun w =>
      ∃ v, Balanced (fun _ => true) v ∧ w = '(' :: (v ++ [')']) := by
  have hlast : Spells (inOrder [literal (ρ := Rule) [')']]) fun w => w = [')'] :=
    yields_inOrder_singleton (spells_literal ')')
  have hclose : Spells (inOrder [many (nestedPiece inner), literal [')']]) fun w =>
      ∃ v, Balanced (fun _ => true) v ∧ w = v ++ [')'] :=
    (spells_many_nestedPiece h).followedBy hlast fun u v hu hv => ⟨u, hu, by rw [hv]⟩
  apply (spells_literal '(').followedBy hclose
  intro u w hu hw
  obtain ⟨v, hv, rfl⟩ := hw
  subst hu
  exact ⟨v, hv, rfl⟩

/-- Whatever the grammar takes for a pair of parentheses is one with a balanced text in it. -/
theorem spells_nested : Spells nested fun w =>
    ∃ v, Balanced (fun _ => true) v ∧ w = '(' :: (v ++ [')']) := by
  have hlevels : ∀ levels, Spells (nestedWithin levels) (Balanced fun _ => true) := by
    intro levels
    induction levels with
    | zero =>
        intro s ts rest hread
        cases hread
    | succ levels ih =>
        refine (spells_parenthesised ih).mono fun ts hts => ?_
        obtain ⟨v, hv, htext⟩ := hts
        rw [htext]
        exact .pair hv .nil
  rw [nested_eq]
  exact spells_parenthesised fun s => hlevels s.length s

theorem spells_pieceUnit : Spells pieceUnit fun w => Balanced isPieceChar w ∧ w ≠ [] := by
  have hquoted : Spells quoted fun w => Balanced isPieceChar w ∧ w ≠ [] := by
    apply yields_quoted
    intro u hu
    rw [ParseTree.textAll_map_char]
    exact ⟨by simpa using Balanced.quoted hu .nil, hu.ne_nil⟩
  have hchar : Spells (charIn (ρ := Rule) isPieceChar) fun w =>
      Balanced isPieceChar w ∧ w ≠ [] := by
    refine yields_charIn fun c hc => ⟨?_, List.cons_ne_nil _ _⟩
    obtain ⟨_, hmark, hparenthesis, _⟩ := isPieceChar_iff.mp hc
    exact .char hmark hparenthesis hc .nil
  have hnested : Spells nested fun w => Balanced isPieceChar w ∧ w ≠ [] := by
    refine spells_nested.mono fun ts hts => ?_
    obtain ⟨v, hv, htext⟩ := hts
    rw [htext]
    exact ⟨.pair hv .nil, List.cons_ne_nil _ _⟩
  apply yields_firstOf
  simp only [List.forall_mem_cons]
  exact ⟨hquoted, hnested, hchar, List.forall_mem_nil _⟩

theorem spells_argPiece : Spells argPiece fun w => Balanced isPieceChar w ∧ w ≠ [] := by
  rw [argPiece_eq]
  have hmany : Spells (many pieceUnit) (Balanced isPieceChar) :=
    spells_pieceUnit.many .nil fun u v hu hv => hu.1.append hv
  exact spells_pieceUnit.followedBy hmany fun u v hu hv =>
    ⟨hu.1.append hv, fun hnil => hu.2 (List.append_eq_nil_iff.mp hnil).1⟩

theorem last_not_gap_pair {inner s : List Char} (h : s.getLast?.any isGap = false) :
    ('(' :: (inner ++ ')' :: s)).getLast?.any isGap = false := by
  have hsplit : '(' :: (inner ++ ')' :: s) = ('(' :: inner ++ [')']) ++ s := by simp
  rw [hsplit]
  refine getLast?_append_any_of ?_ h
  rw [List.getLast?_concat]
  rfl

theorem last_not_gap_of_balanced {w : List Char} (h : Balanced isPieceChar w) :
    w.getLast?.any isGap = false := by
  generalize hplain : isPieceChar = plain at h
  induction h with
  | nil => rfl
  | @quoted _ u s hquoted _ ih => exact getLast?_append_any_of hquoted.last_not_gap (ih hplain)
  | @char _ c s _ _ hc _ ih =>
      rw [← hplain] at hc
      exact getLast?_append_any_of (s := [c]) (isPieceChar_iff.mp hc).1 (ih hplain)
  | pair _ _ _ ihrest => exact last_not_gap_pair (ihrest hplain)

theorem spells_gaps : Spells (many1 gap) fun w => ∀ c ∈ w, isGap c = true := by
  refine Yields.mono (yields_many1_charIn isGap) fun ts hts => ?_
  obtain ⟨w, rfl, _, hw⟩ := hts
  rwa [ParseTree.textAll_map_char]

theorem balanced_of_piece {w : List Char} (h : Balanced isPieceChar w) :
    Balanced isArgumentChar w :=
  h.mono fun _ hc => (isPieceChar_iff.mp hc).2.2.2

theorem spells_nextPiece : Spells nextPiece fun w =>
    Balanced isArgumentChar w ∧ w ≠ [] ∧ w.getLast?.any isGap = false := by
  have hpiece : Spells (inOrder [argPiece]) fun w => Balanced isPieceChar w ∧ w ≠ [] :=
    yields_inOrder_singleton spells_argPiece
  refine spells_gaps.followedBy hpiece fun g w hg hw => ⟨?_, ?_, ?_⟩
  · exact (balanced_append_iff_of_plain fun c hc => plain_of_isGap (hg c hc)).mpr
      (balanced_of_piece hw.1)
  · exact fun hnil => hw.2 (List.append_eq_nil_iff.mp hnil).2
  · have hlast := last_not_gap_of_balanced hw.1
    obtain ⟨c, hc⟩ := Option.isSome_iff_exists.mp (List.getLast?_isSome.mpr hw.2)
    rw [hc] at hlast
    rw [List.getLast?_append, hc]
    exact hlast

/-- Whatever the grammar takes for an argument is one. -/
theorem exists_of_callArg {s rest : List Char} {ts : List (ParseTree Rule)}
    (hread : callArg s = some (ts, rest)) :
    ∃ below, ts = [.node .callArg below] ∧ Argument (ParseTree.textAll below) := by
  have hmany : Spells (many nextPiece) fun w =>
      Balanced isArgumentChar w ∧ w.getLast?.any isGap = false :=
    spells_nextPiece.many ⟨.nil, rfl⟩ fun u v hu hv =>
      ⟨hu.1.append hv.1, getLast?_append_any_of hu.2.2 hv.2⟩
  have htail : Spells (inOrder [many nextPiece]) fun w =>
      Balanced isArgumentChar w ∧ w.getLast?.any isGap = false :=
    yields_inOrder_singleton hmany
  have hwhole : Spells (inOrder [argPiece, many nextPiece]) Argument := by
    refine spells_argPiece.followedBy htail fun u v hu hv => argument_iff.mpr ⟨?_, ?_, ?_, ?_⟩
    · exact fun hnil => hu.2 (List.append_eq_nil_iff.mp hnil).1
    · exact head_not_gap_append hu.2 (head_not_gap_of_balanced hu.1)
    · exact getLast?_append_any_of (last_not_gap_of_balanced hu.1) hv.2
    · exact (balanced_of_piece hu.1).append hv.1
  rw [callArg_eq] at hread
  obtain ⟨below, hbelow, rfl⟩ := node_eq_some_iff.mp hread
  exact ⟨below, rfl, hwhole s below rest hbelow⟩

end Grammar

end TemplateMarkup
