import TemplateMarkup.Grammar.Nested
import TemplateMarkup.Proofs.Grammar.Spelling
import TemplateMarkup.Proofs.Text.OpenQuote

/-! # Quotes in an interior

The grammar reads a complete quote where one begins, and takes all the rest as
an open quote where a quote begins that never closes. A lexer of quotes and
plain characters therefore reads a row of complete quotes and plain characters
up to the first other character, and an open quote behind such a row up to the
end of the text.
-/

namespace TemplateMarkup.Grammar

open Recogniser Text

theorem tests_quote : Tests quote isMark := by
  have hmark : isMark = fun c => decide (c = '"') || (decide (c = '\'') || false) := by
    funext c
    rw [isMark, Bool.or_false]
  rw [hmark]
  exact (tests_literal '"').orElse ((tests_literal '\'').orElse tests_never)

/-- One character inside a quote, or two where the first protects the second. -/
def quoteUnit (mark : Char) : Recogniser Rule :=
  firstOf [inOrder [literal ['\\'], anyChar], charBut (literal [mark])]

theorem quotedBy_eq (mark : Char) :
    quotedBy mark = inOrder [literal [mark], many (quoteUnit mark), literal [mark]] := rfl

theorem progressive_quoteUnit (mark : Char) : Progressive (quoteUnit mark) := by
  have hescape : Progressive (inOrder [literal (ρ := Rule) ['\\'], anyChar]) := by
    apply (progressive_literal (List.cons_ne_nil _ _)).inOrder
    intro p hp
    rw [List.mem_singleton.mp hp]
    exact lossless_charIn _
  apply progressive_firstOf
  intro p hp
  rcases List.mem_cons.mp hp with rfl | hp
  · exact hescape
  · rw [List.mem_singleton.mp hp]
    exact progressive_charBut _

theorem quoteUnit_nil (mark : Char) : quoteUnit mark [] = none := rfl

theorem quoteUnit_escape (mark c : Char) (s : List Char) :
    quoteUnit mark ('\\' :: c :: s) = some (['\\', c].map .char, s) := rfl

theorem quoteUnit_char {mark c : Char} (hescape : c ≠ '\\') (hmark : c ≠ mark) (s : List Char) :
    quoteUnit mark (c :: s) = some ([.char c], s) := by
  have hnone : inOrder [literal (ρ := Rule) ['\\'], anyChar] (c :: s) = none := by
    apply inOrder_of_none
    simp [literal, Ne.symm hescape]
  rw [quoteUnit, firstOf_of_none hnone]
  refine firstOf_of_some (charBut_cons_of_none ?_)
  simp [literal, Ne.symm hmark]

theorem quoteUnit_mark {mark : Char} (h : isMark mark = true) (s : List Char) :
    quoteUnit mark (mark :: s) = none := by
  have hnone : inOrder [literal (ρ := Rule) ['\\'], anyChar] (mark :: s) = none := by
    apply inOrder_of_none
    simp [literal, Ne.symm (ne_escape_of_isMark h)]
  rw [quoteUnit, firstOf_of_none hnone]
  exact firstOf_of_none (charBut_of_some (literal_cons mark s))

/-- A backslash at the very end protects nothing and is read like any other character. -/
theorem quoteUnit_last_escape {mark : Char} (h : isMark mark = true) :
    quoteUnit mark ['\\'] = some ([.char '\\'], []) := by
  have hnone : inOrder [literal (ρ := Rule) ['\\'], anyChar] ['\\'] = none := rfl
  rw [quoteUnit, firstOf_of_none hnone]
  refine firstOf_of_some (charBut_cons_of_none ?_)
  simp [literal, ne_escape_of_isMark h]

theorem many_quoteUnit_append {mark : Char} {w : List Char} (h : QuoteBody mark w)
    (rest : List Char) :
    many (quoteUnit mark) (w ++ rest) =
      (many (quoteUnit mark) rest).map fun found => (w.map .char ++ found.1, found.2) := by
  induction h with
  | nil => simp
  | @escape c s _ ih =>
      rw [List.cons_append, List.cons_append,
        many_of_some (progressive_quoteUnit mark) (quoteUnit_escape mark c _), ih, Option.map_map]
      rfl
  | @char c s hescape hmark _ ih =>
      rw [List.cons_append,
        many_of_some (progressive_quoteUnit mark) (quoteUnit_char hescape hmark _), ih,
        Option.map_map]
      rfl

theorem quotedBy_append {mark : Char} {w : List Char} (hmark : isMark mark = true)
    (h : QuoteBody mark w) (rest : List Char) :
    quotedBy mark (mark :: (w ++ mark :: rest)) =
      some ((mark :: (w ++ [mark])).map .char, rest) := by
  have hbody : many (quoteUnit mark) (w ++ mark :: rest) = some (w.map .char, mark :: rest) := by
    rw [many_quoteUnit_append h, many_of_none (quoteUnit_mark hmark rest)]
    simp
  rw [quotedBy_eq, inOrder_of_some (literal_cons mark _), inOrder_of_some hbody,
    inOrder_singleton, literal_cons]
  simp

theorem quotedBy_unclosed {mark : Char} {s : List Char} (hmark : isMark mark = true)
    (h : Unclosed mark s) : quotedBy mark (mark :: s) = none := by
  have hbody : ∃ ts, many (quoteUnit mark) s = some (ts, []) := by
    obtain ⟨w, hw, rfl | rfl⟩ := h
    · refine ⟨s.map .char, ?_⟩
      rw [← List.append_nil s, many_quoteUnit_append hw, many_of_none (quoteUnit_nil mark)]
      simp
    · refine ⟨w.map .char ++ [.char '\\'], ?_⟩
      rw [many_quoteUnit_append hw,
        many_of_some (progressive_quoteUnit mark) (quoteUnit_last_escape hmark),
        many_of_none (quoteUnit_nil mark)]
      simp
  obtain ⟨ts, hts⟩ := hbody
  rw [quotedBy_eq, inOrder_of_some (literal_cons mark _), inOrder_of_some hts]
  rfl

theorem quotedBy_of_ne {mark : Char} {s : List Char} (h : s.head? ≠ some mark) :
    quotedBy mark s = none := by
  rw [quotedBy_eq]
  refine inOrder_of_none (literal_eq_none_iff.mpr ?_)
  rintro ⟨t, rfl⟩
  exact h rfl

theorem quoted_eq_quotedBy {mark : Char} (h : isMark mark = true) (s : List Char) :
    quoted (mark :: s) = quotedBy mark (mark :: s) := by
  have hcases : mark = '"' ∨ mark = '\'' := by simpa [isMark] using h
  rcases hcases with rfl | rfl
  · cases hread : quotedBy '"' ('"' :: s) with
    | none =>
        rw [quoted, firstOf_of_none hread]
        exact firstOf_of_none (quotedBy_of_ne (by simp))
    | some found => exact firstOf_of_some hread
  · rw [quoted, firstOf_of_none (quotedBy_of_ne (by simp))]
    cases hread : quotedBy '\'' ('\'' :: s) with
    | none => exact firstOf_of_none hread
    | some found => exact firstOf_of_some hread

theorem quoted_append {u : List Char} (h : Quoted u) (rest : List Char) :
    quoted (u ++ rest) = some (u.map .char, rest) := by
  obtain ⟨mark, w, hmark, hw, rfl⟩ := h
  have hsplit : mark :: (w ++ [mark]) ++ rest = mark :: (w ++ mark :: rest) := by simp
  rw [hsplit, quoted_eq_quotedBy hmark, quotedBy_append hmark hw]

theorem quoted_of_unclosed {mark : Char} {s : List Char} (hmark : isMark mark = true)
    (h : Unclosed mark s) : quoted (mark :: s) = none := by
  rw [quoted_eq_quotedBy hmark, quotedBy_unclosed hmark h]

theorem quoted_of_head {s : List Char} (h : s.head?.any isMark = false) : quoted s = none := by
  have hne : ∀ mark, isMark mark = true → s.head? ≠ some mark := by
    intro mark hmark hs
    rw [hs] at h
    simp [hmark] at h
  rw [quoted, firstOf_of_none (quotedBy_of_ne (hne '"' rfl)),
    firstOf_of_none (quotedBy_of_ne (hne '\'' rfl)), firstOf_nil]

/-- Where a quote is read, it is a complete quote. -/
theorem exists_quoted_of_read {s rest : List Char} {ts : List (ParseTree Rule)}
    (h : quoted s = some (ts, rest)) : ∃ u, Quoted u ∧ ts = u.map .char ∧ s = u ++ rest := by
  cases s with
  | nil => cases h
  | cons mark s =>
      cases hmark : isMark mark with
      | false =>
          rw [quoted_of_head (by simpa using hmark)] at h
          cases h
      | true =>
          rcases quote_closes_or_not mark s with ⟨w, after, hw, rfl⟩ | hunclosed
          · have hquoted : Quoted (mark :: (w ++ [mark])) := ⟨mark, w, hmark, hw, rfl⟩
            have hsplit : mark :: (w ++ mark :: after) = mark :: (w ++ [mark]) ++ after := by simp
            rw [hsplit, quoted_append hquoted] at h
            obtain ⟨rfl, rfl⟩ := Prod.mk.inj (Option.some.inj h)
            exact ⟨_, hquoted, rfl, hsplit⟩
          · rw [quoted_of_unclosed hmark hunclosed] at h
            cases h

theorem yields_quoted {P : List (ParseTree Rule) → Prop}
    (h : ∀ u, Quoted u → P (u.map .char)) : Yields quoted P := by
  intro s ts rest hread
  obtain ⟨u, hu, rfl, _⟩ := exists_quoted_of_read hread
  exact h u hu

theorem progressive_quoted : Progressive quoted := by
  intro s ts rest h
  obtain ⟨u, hu, _, rfl⟩ := exists_quoted_of_read h
  have hpos := List.length_pos_iff.mpr hu.ne_nil
  rw [List.length_append]
  omega

theorem openQuote_of_head {s : List Char} (h : s.head?.any isMark = false) :
    openQuote s = none := by
  refine node_of_none (inOrder_of_none ?_)
  have hquote := tests_quote s
  rw [h] at hquote
  simpa using hquote

theorem quote_cons {mark : Char} (hmark : isMark mark = true) (s : List Char) :
    quote (mark :: s) = some ([.char mark], s) := by
  have hcases : mark = '"' ∨ mark = '\'' := by simpa [isMark] using hmark
  rcases hcases with rfl | rfl <;> rfl

theorem openQuote_cons {mark : Char} (hmark : isMark mark = true) (s : List Char) :
    openQuote (mark :: s) = some ([.node .openQuote ((mark :: s).map .char)], []) := by
  apply node_of_some
  rw [inOrder_of_some (quote_cons hmark s), inOrder_singleton, many_anyChar]
  rfl

theorem progressive_quote : Progressive quote := by
  apply progressive_firstOf
  intro p hp
  simp only [List.mem_cons, List.not_mem_nil, or_false] at hp
  rcases hp with rfl | rfl <;> exact progressive_literal (List.cons_ne_nil _ _)

theorem progressive_openQuote : Progressive openQuote := by
  refine (progressive_quote.inOrder fun p hp => ?_).node _
  rw [List.mem_singleton.mp hp]
  exact (lossless_charIn _).many

/-- One quote, open or complete, or one plain character of a class. -/
def lexer (plain : Char → Bool) : Recogniser Rule :=
  firstOf [quoted, openQuote, charIn plain]

theorem progressive_lexer (plain : Char → Bool) : Progressive (lexer plain) := by
  apply progressive_firstOf
  intro p hp
  simp only [List.mem_cons, List.not_mem_nil, or_false] at hp
  rcases hp with rfl | rfl | rfl
  · exact progressive_quoted
  · exact progressive_openQuote
  · exact progressive_charIn plain

theorem lossless_lexer (plain : Char → Bool) : Lossless (lexer plain) := by
  have hquote : Lossless quote := by
    apply lossless_firstOf
    simp only [List.forall_mem_cons]
    exact ⟨lossless_literal _, lossless_literal _, List.forall_mem_nil _⟩
  have hopen : Lossless openQuote := by
    refine (lossless_inOrder ?_).node _
    simp only [List.forall_mem_cons]
    exact ⟨hquote, (lossless_charIn _).many, List.forall_mem_nil _⟩
  apply lossless_firstOf
  simp only [List.forall_mem_cons]
  exact ⟨lossless_quoted, hopen, lossless_charIn _, List.forall_mem_nil _⟩

variable {plain : Char → Bool}

theorem lexer_of_head {s : List Char} (hmark : s.head?.any isMark = false) :
    lexer plain s = charIn plain s := by
  rw [lexer, firstOf_of_none (quoted_of_head hmark), firstOf_of_none (openQuote_of_head hmark)]
  cases hread : charIn (ρ := Rule) plain s with
  | none => exact firstOf_of_none hread
  | some found => exact firstOf_of_some hread

/-- A row of complete quotes and plain characters is read up to a character that is neither. -/
theorem many_lexer_append {w rest : List Char} (h : Fluent plain w)
    (hmark : rest.head?.any isMark = false) (hplain : rest.head?.any plain = false) :
    many (lexer plain) (w ++ rest) = some (w.map .char, rest) := by
  induction h with
  | nil =>
      apply many_of_none
      rw [List.nil_append, lexer_of_head hmark, charIn_of_head hplain]
  | @quoted u s hquoted _ ih =>
      have hread : lexer plain (u ++ (s ++ rest)) = some (u.map .char, s ++ rest) :=
        firstOf_of_some (quoted_append hquoted _)
      rw [List.append_assoc, many_of_some (progressive_lexer plain) hread, ih]
      simp
  | @char c s hc hcplain _ ih =>
      have hread : lexer plain (c :: (s ++ rest)) = some ([.char c], s ++ rest) := by
        rw [lexer_of_head (by simpa using hc)]
        simp [charIn, hcplain]
      rw [List.cons_append, many_of_some (progressive_lexer plain) hread, ih]
      rfl

/-- What is found of a text with complete quotes and an open quote behind it. -/
def brokenTrees (v q : List Char) : List (ParseTree Rule) :=
  v.map .char ++ [.node .openQuote (q.map .char)]

theorem lexer_nil : lexer plain [] = none := by
  rw [lexer_of_head rfl, charIn_of_head rfl]

theorem many_lexer_openQuote {v q : List Char} (hv : Fluent plain v)
    (hq : OpenQuote q) : many (lexer plain) (v ++ q) = some (brokenTrees v q, []) := by
  induction hv with
  | nil =>
      obtain ⟨mark, rest, rfl, hmark, hunclosed⟩ := hq
      have hread : lexer plain (mark :: rest) =
          some ([.node .openQuote ((mark :: rest).map .char)], []) := by
        rw [lexer, firstOf_of_none (quoted_of_unclosed hmark hunclosed),
          firstOf_of_some (openQuote_cons hmark rest)]
      rw [List.nil_append, many_of_some (progressive_lexer plain) hread,
        many_of_none lexer_nil]
      rfl
  | @quoted u s hquoted _ ih =>
      have hread : lexer plain (u ++ (s ++ q)) = some (u.map .char, s ++ q) :=
        firstOf_of_some (quoted_append hquoted _)
      rw [List.append_assoc, many_of_some (progressive_lexer plain) hread, ih]
      simp [brokenTrees]
  | @char c s hc hplain _ ih =>
      have hread : lexer plain (c :: (s ++ q)) = some ([.char c], s ++ q) := by
        rw [lexer_of_head (by simpa using hc)]
        simp [charIn, hplain]
      rw [List.cons_append, many_of_some (progressive_lexer plain) hread, ih]
      rfl

/-- Whether a row of trees holds no open quote. -/
def Unbroken (ts : List (ParseTree Rule)) : Prop :=
  ∀ t ∈ ts, t.isNode .openQuote = false

theorem unbroken_map_char (w : List Char) : Unbroken (w.map .char) := by
  intro t ht
  obtain ⟨c, _, rfl⟩ := List.mem_map.mp ht
  rfl

end TemplateMarkup.Grammar
