import TemplateMarkup.Proofs.Interior.Arguments
import TemplateMarkup.Proofs.Interior.Lexeme
import TemplateMarkup.Proofs.Text.Cutting
import TemplateMarkup.Proofs.Text.Trimming

/-! # Lists of arguments

Between the parentheses of a call stand gaps only, or arguments with commas
between them and gaps around them. The same is said by cutting the text at the
commas outside quotes and parentheses, and leaving out the gaps at both ends of
each piece. The grammar reads what stands between two parentheses exactly if it
is of this kind, and finds these arguments in it.
-/

namespace TemplateMarkup.Text

open Grammar

variable {s t g h a w : List Char} {args : List (List Char)} {plain : Char → Bool}

/-- A text without the gaps at its ends. -/
def trimGaps (s : List Char) : List Char :=
  ((s.dropWhile isGap).reverse.dropWhile isGap).reverse

/-- Whether a text consists of arguments with gaps around them and commas between them. -/
inductive Listed : List Char → List (List Char) → Prop
  | last {g a h : List Char} (front : ∀ c ∈ g, isGap c = true) (argument : Argument a)
      (back : ∀ c ∈ h, isGap c = true) : Listed (g ++ (a ++ h)) [a]
  | cons {g a h s : List Char} {args : List (List Char)} (front : ∀ c ∈ g, isGap c = true)
      (argument : Argument a) (back : ∀ c ∈ h, isGap c = true) (rest : Listed s args) :
      Listed (g ++ (a ++ (h ++ ',' :: s))) (a :: args)

/-- Whether a text between parentheses holds a row of arguments. Its quotes close, and each of its
parentheses outside quotes has its partner. Either it holds gaps only, and there is no argument,
or the arguments are the pieces between the commas outside quotes and parentheses, without the
gaps at their ends, and none of them is empty. -/
structure ArgumentsIn (inner : List Char) (args : List (List Char)) : Prop where
  closed : Closed inner
  paired : (outermost? 0 (bare inner)).isSome = true
  cut : (∀ c ∈ inner, isGap c = true) ∧ args = [] ∨
    args = (listPieces inner).map trimGaps ∧ [] ∉ args

/-- Whether a text holds another one that does not begin inside a quote. -/
def Shown (w s : List Char) : Prop :=
  ∃ u v, s = u ++ (w ++ v) ∧ Closed u

theorem Shown.isInfix (h : Shown w s) : w <:+: s := by
  obtain ⟨u, v, rfl, _⟩ := h
  exact ⟨u, v, List.append_assoc u w v⟩

theorem Shown.trans (ha : Shown a w) (hw : Shown w s) : Shown a s := by
  obtain ⟨u, v, rfl, hu⟩ := ha
  obtain ⟨x, y, rfl, hx⟩ := hw
  exact ⟨x ++ u, v ++ y, by simp, hx.append hu⟩

/-- What a text shows outside quotes, a text that holds it shows as well. -/
theorem Shown.mem_bare {c : Char} (h : Shown w s) (hw : Closed w) (hc : c ∈ bare w) :
    c ∈ bare s := by
  obtain ⟨u, v, rfl, hu⟩ := h
  rw [hu.bare_append, hw.bare_append]
  exact List.mem_append_right _ (List.mem_append_left _ hc)

theorem trimGaps_eq_iff : trimGaps s = w ↔ Trimmed isGap s w :=
  trimmed_iff.symm

theorem trimGaps_of_gaps (hg : ∀ c ∈ g, isGap c = true) : trimGaps g = [] :=
  trimGaps_eq_iff.mpr ⟨g, [], (List.append_nil g).symm, hg, List.forall_mem_nil _, rfl, rfl⟩

/-- The gaps at the end of a balanced text may be taken off. -/
theorem Balanced.exists_append_gaps (hs : Balanced plain s) :
    ∃ a h, s = a ++ h ∧ Balanced plain a ∧ a.getLast?.any isGap = false ∧
      ∀ c ∈ h, isGap c = true := by
  induction hs with
  | nil => exact ⟨[], [], rfl, .nil, rfl, List.forall_mem_nil _⟩
  | @quoted _ u s hquoted _ ih =>
      obtain ⟨a, h, rfl, ha, hlast, hh⟩ := ih
      exact ⟨u ++ a, h, (List.append_assoc u a h).symm, .quoted hquoted ha,
        getLast?_append_any_of hquoted.last_not_gap hlast, hh⟩
  | @char _ c s hmark hparenthesis hplain _ ih =>
      obtain ⟨a, h, rfl, ha, hlast, hh⟩ := ih
      by_cases hgap : a = [] ∧ isGap c = true
      · obtain ⟨rfl, hc⟩ := hgap
        exact ⟨[], c :: h, rfl, .nil, rfl, List.forall_mem_cons.mpr ⟨hc, hh⟩⟩
      · refine ⟨c :: a, h, rfl, .char hmark hparenthesis hplain ha, ?_, hh⟩
        cases a with
        | nil => simpa using hgap
        | cons d a => rwa [List.getLast?_cons_cons]
  | @pair _ inner s hinside _ _ ih =>
      obtain ⟨a, h, rfl, ha, hlast, hh⟩ := ih
      exact ⟨'(' :: (inner ++ ')' :: a), h, by simp, .pair hinside ha, last_not_gap_pair hlast, hh⟩

theorem ne_comma_of_isArgumentChar : ∀ c, isArgumentChar c = true → c ≠ ',' := by
  rintro _ h rfl
  cases h

/-- A balanced text without commas is gaps, or an argument between gaps. -/
theorem Balanced.gaps_or_argument (hs : Balanced isArgumentChar s) :
    (∀ c ∈ s, isGap c = true) ∨
      ∃ g a h, s = g ++ (a ++ h) ∧ (∀ c ∈ g, isGap c = true) ∧ Argument a ∧
        ∀ c ∈ h, isGap c = true := by
  obtain ⟨g, t, rfl, hg, hhead⟩ := exists_front isGap s
  have ht : Balanced isArgumentChar t :=
    (balanced_append_iff_of_plain fun c hc => plain_of_isGap (hg c hc)).mp hs
  obtain ⟨a, h, rfl, ha, hlast, hh⟩ := ht.exists_append_gaps
  by_cases hne : a = []
  · subst hne
    exact Or.inl (List.forall_mem_append.mpr ⟨hg, hh⟩)
  · refine Or.inr ⟨g, a, h, rfl, hg, argument_iff.mpr ⟨hne, ?_, hlast, ha⟩, hh⟩
    cases a with
    | nil => exact absurd rfl hne
    | cons c a => exact hhead

/-- A balanced text is cut at its first comma outside quotes and parentheses. -/
theorem Balanced.exists_comma (hs : Balanced plain s) :
    ∃ w r, s = w ++ r ∧ Balanced isArgumentChar w ∧
      (r = [] ∨ ∃ t, r = ',' :: t ∧ Balanced plain t) := by
  induction hs with
  | nil => exact ⟨[], [], rfl, .nil, Or.inl rfl⟩
  | @quoted _ u s hquoted _ ih =>
      obtain ⟨w, r, rfl, hw, hr⟩ := ih
      exact ⟨u ++ w, r, (List.append_assoc u w r).symm, .quoted hquoted hw, hr⟩
  | @char _ c s hmark hparenthesis _ hs ih =>
      by_cases hc : c = ','
      · subst hc
        exact ⟨[], ',' :: s, rfl, .nil, Or.inr ⟨s, rfl, hs⟩⟩
      · obtain ⟨w, r, rfl, hw, hr⟩ := ih
        have hchar : isArgumentChar c = true := by simpa [isArgumentChar] using hc
        exact ⟨c :: w, r, rfl, .char hmark hparenthesis hchar hw, hr⟩
  | @pair _ inner s hinside _ _ ih =>
      obtain ⟨w, r, rfl, hw, hr⟩ := ih
      exact ⟨'(' :: (inner ++ ')' :: w), r, by simp, .pair hinside hw, hr⟩

theorem Argument.balanced_around (ha : Argument a) (hg : ∀ c ∈ g, isGap c = true)
    (hh : ∀ c ∈ h, isGap c = true) : Balanced isArgumentChar (g ++ (a ++ h)) := by
  obtain ⟨_, _, _, hbalanced⟩ := argument_iff.mp ha
  have hback : Balanced isArgumentChar (h ++ []) :=
    (balanced_append_iff_of_plain fun c hc => plain_of_isGap (hh c hc)).mpr .nil
  rw [List.append_nil] at hback
  exact (balanced_append_iff_of_plain fun c hc => plain_of_isGap (hg c hc)).mpr
    (hbalanced.append hback)

theorem Argument.trimGaps_around (ha : Argument a) (hg : ∀ c ∈ g, isGap c = true)
    (hh : ∀ c ∈ h, isGap c = true) : trimGaps (g ++ (a ++ h)) = a :=
  trimGaps_eq_iff.mpr ⟨g, h, rfl, hg, hh, ha.head_not_gap, ha.last_not_gap⟩

theorem Listed.balanced (hs : Listed s args) : Balanced (fun _ => true) s := by
  induction hs with
  | last hg ha hh => exact (ha.balanced_around hg hh).mono fun _ _ => rfl
  | @cons g a h s _ hg ha hh _ ih =>
      have hsplit : g ++ (a ++ (h ++ ',' :: s)) = (g ++ (a ++ h)) ++ ',' :: s := by simp
      rw [hsplit]
      exact ((ha.balanced_around hg hh).mono fun _ _ => rfl).append (.char rfl rfl rfl ih)

theorem Listed.argument (hs : Listed s args) : ∀ a ∈ args, Argument a := by
  induction hs with
  | last _ ha _ => exact List.forall_mem_singleton.mpr ha
  | cons _ ha _ _ ih => exact List.forall_mem_cons.mpr ⟨ha, ih⟩

theorem Listed.shown (hs : Listed s args) : ∀ a ∈ args, Shown a s := by
  induction hs with
  | @last g a h hg _ _ => exact List.forall_mem_singleton.mpr ⟨g, h, rfl, closed_of_gaps hg⟩
  | @cons g a h s args hg ha hh _ ih =>
      have hfront : Closed (g ++ (a ++ (h ++ [',']))) :=
        (closed_of_gaps hg).append (ha.closed.append ((closed_of_gaps hh).append rfl))
      have hrest : Shown s (g ++ (a ++ (h ++ ',' :: s))) := ⟨_, [], by simp, hfront⟩
      rw [List.forall_mem_cons]
      exact ⟨⟨g, h ++ ',' :: s, rfl, closed_of_gaps hg⟩, fun b hb => (ih b hb).trans hrest⟩

theorem Listed.cons_gap {c : Char} (hc : isGap c = true) (hs : Listed s args) :
    Listed (c :: s) args := by
  cases hs with
  | last hg ha hh => exact Listed.last (List.forall_mem_cons.mpr ⟨hc, hg⟩) ha hh
  | cons hg ha hh hrest => exact Listed.cons (List.forall_mem_cons.mpr ⟨hc, hg⟩) ha hh hrest

/-- Arguments with a comma and a space between them are a list. -/
theorem listed_intercalate (ha : Argument a) (hargs : ∀ b ∈ args, Argument b) :
    Listed ([',', ' '].intercalate (a :: args)) (a :: args) := by
  have hnil : ∀ c ∈ ([] : List Char), isGap c = true := List.forall_mem_nil _
  induction args generalizing a with
  | nil => simpa using Listed.last hnil ha hnil
  | cons b args ih =>
      obtain ⟨hb, hargs⟩ := List.forall_mem_cons.mp hargs
      rw [List.intercalate_cons_cons]
      simpa using Listed.cons hnil ha hnil ((ih hb hargs).cons_gap (c := ' ') rfl)

/-- The arguments of a list are what is cut at its commas. -/
theorem Listed.eq_map_trimGaps (hs : Listed s args) : args = (listPieces s).map trimGaps := by
  induction hs with
  | last hg ha hh =>
      rw [listPieces_of_balanced (ha.balanced_around hg hh) ne_comma_of_isArgumentChar,
        List.map_singleton, ha.trimGaps_around hg hh]
  | @cons g a h s _ hg ha hh _ ih =>
      have hsplit : g ++ (a ++ (h ++ ',' :: s)) = (g ++ (a ++ h)) ++ ',' :: s := by simp
      rw [hsplit, listPieces_append_comma (ha.balanced_around hg hh) ne_comma_of_isArgumentChar,
        List.map_cons, ha.trimGaps_around hg hh, ← ih]

/-- A balanced text that is cut at its commas into pieces with something else than gaps is a list
of arguments. -/
theorem Balanced.listed (hs : Balanced plain s) (hne : [] ∉ (listPieces s).map trimGaps) :
    Listed s ((listPieces s).map trimGaps) := by
  induction hn : s.length using Nat.strongRecOn generalizing s with
  | ind n ih =>
      obtain ⟨w, r, rfl, hw, hr⟩ := hs.exists_comma
      -- each piece has something else than gaps, so that the first one is an argument
      have hfirst : w ∈ listPieces (w ++ r) → ∃ g a h, w = g ++ (a ++ h) ∧
          (∀ c ∈ g, isGap c = true) ∧ Argument a ∧ ∀ c ∈ h, isGap c = true := by
        intro hmem
        refine hw.gaps_or_argument.resolve_left fun hgaps => hne ?_
        exact List.mem_map.mpr ⟨w, hmem, trimGaps_of_gaps hgaps⟩
      rcases hr with rfl | ⟨t, rfl, ht⟩
      · have hpieces := listPieces_of_balanced hw ne_comma_of_isArgumentChar
        rw [List.append_nil] at hfirst ⊢
        rw [hpieces] at hfirst ⊢
        obtain ⟨g, a, h, rfl, hg, ha, hh⟩ := hfirst (List.mem_cons_self ..)
        rw [List.map_singleton, ha.trimGaps_around hg hh]
        exact .last hg ha hh
      · have hpieces := listPieces_append_comma hw ne_comma_of_isArgumentChar t
        rw [hpieces] at hfirst hne ⊢
        obtain ⟨g, a, h, rfl, hg, ha, hh⟩ := hfirst (List.mem_cons_self ..)
        rw [List.map_cons, List.mem_cons, not_or] at hne
        simp only [List.length_append, List.length_cons] at hn
        have hrest := ih t.length (by omega) ht hne.2 rfl
        have hlisted := Listed.cons hg ha hh hrest
        rw [List.map_cons, ha.trimGaps_around hg hh]
        simpa using hlisted

/-- Cutting and reading agree on what the arguments between two parentheses are. -/
theorem argumentsIn_iff :
    ArgumentsIn s args ↔ (∀ c ∈ s, isGap c = true) ∧ args = [] ∨ Listed s args := by
  constructor
  · rintro ⟨hclosed, hpaired, hgaps | ⟨rfl, hne⟩⟩
    · exact Or.inl hgaps
    · obtain ⟨u, hu⟩ := Option.isSome_iff_exists.mp hpaired
      have hbalanced : Balanced (fun _ => true) s :=
        balanced_iff.mpr ⟨hclosed, u, hu, fun _ _ => rfl⟩
      exact Or.inr (hbalanced.listed hne)
  · rintro (⟨hgaps, rfl⟩ | hlisted)
    · have hbalanced : Balanced isArgumentChar (s ++ []) :=
        (balanced_append_iff_of_plain fun c hc => plain_of_isGap (hgaps c hc)).mpr .nil
      rw [List.append_nil] at hbalanced
      obtain ⟨u, hu, _⟩ := hbalanced.outermost?_zero
      exact ⟨closed_of_gaps hgaps, Option.isSome_of_eq_some hu, Or.inl ⟨hgaps, rfl⟩⟩
    · obtain ⟨u, hu, _⟩ := hlisted.balanced.outermost?_zero
      refine ⟨hlisted.balanced.closed, Option.isSome_of_eq_some hu,
        Or.inr ⟨hlisted.eq_map_trimGaps, fun hmem => ?_⟩⟩
      exact (hlisted.argument [] hmem).ne_nil rfl

theorem ArgumentsIn.argument (h : ArgumentsIn s args) : ∀ a ∈ args, Argument a := by
  rcases argumentsIn_iff.mp h with ⟨_, rfl⟩ | hlisted
  · exact List.forall_mem_nil _
  · exact hlisted.argument

theorem ArgumentsIn.shown (h : ArgumentsIn s args) : ∀ a ∈ args, Shown a s := by
  rcases argumentsIn_iff.mp h with ⟨_, rfl⟩ | hlisted
  · exact List.forall_mem_nil _
  · exact hlisted.shown

theorem argumentsIn_intercalate (h : ∀ a ∈ args, Argument a) :
    ArgumentsIn ([',', ' '].intercalate args) args := by
  rw [argumentsIn_iff]
  cases args with
  | nil => exact Or.inl ⟨List.forall_mem_nil _, rfl⟩
  | cons a args =>
      obtain ⟨ha, hargs⟩ := List.forall_mem_cons.mp h
      exact Or.inr (listed_intercalate ha hargs)

end TemplateMarkup.Text

namespace TemplateMarkup.Grammar

open Recogniser Text

variable {s t a g h inner mid post rest : List Char} {args : List (List Char)}
  {ts us : List (ParseTree Rule)}

/-- A comma and an argument, with gaps around the argument. -/
def nextArg : Recogniser Rule := inOrder [literal [','], gaps, callArg, gaps]

/-- Arguments with commas between them. -/
def argRow : Recogniser Rule := inOrder [callArg, gaps, many nextArg]

/-- The texts of the arguments in a row of trees. -/
def argTexts (ts : List (ParseTree Rule)) : List (List Char) :=
  (ts.filter (ParseTree.isNode .callArg)).map ParseTree.text

theorem callArgs_eq : callArgs =
    node .callArgs (inOrder [literal ['('], gaps, maybe argRow, literal [')']]) := rfl

theorem lossless_nextArg : Lossless nextArg := by
  apply lossless_inOrder
  simp only [List.forall_mem_cons]
  exact ⟨lossless_literal _, lossless_gaps, lossless_callArg, lossless_gaps, List.forall_mem_nil _⟩

theorem progressive_nextArg : Progressive nextArg := by
  apply (progressive_literal (List.cons_ne_nil _ _)).inOrder
  simp only [List.forall_mem_cons]
  exact ⟨lossless_gaps, lossless_callArg, lossless_gaps, List.forall_mem_nil _⟩

theorem lossless_argRow : Lossless argRow := by
  apply lossless_inOrder
  simp only [List.forall_mem_cons]
  exact ⟨lossless_callArg, lossless_gaps, lossless_nextArg.many, List.forall_mem_nil _⟩

theorem lossless_callArgs : Lossless callArgs := by
  refine (lossless_inOrder ?_).node _
  simp only [List.forall_mem_cons]
  exact ⟨lossless_literal _, lossless_gaps, lossless_argRow.maybe, lossless_literal _,
    List.forall_mem_nil _⟩

@[simp] theorem argTexts_nil : argTexts [] = [] := rfl

@[simp] theorem argTexts_append (ts us : List (ParseTree Rule)) :
    argTexts (ts ++ us) = argTexts ts ++ argTexts us := by
  simp [argTexts]

@[simp] theorem argTexts_map_char (s : List Char) : argTexts (s.map .char) = [] := by
  rw [argTexts, filter_map_char, List.map_nil]

@[simp] theorem argTexts_char (c : Char) (ts : List (ParseTree Rule)) :
    argTexts (.char c :: ts) = argTexts ts := rfl

@[simp] theorem argTexts_node (below ts : List (ParseTree Rule)) :
    argTexts (.node .callArg below :: ts) = ParseTree.textAll below :: argTexts ts := rfl

/-! ### Reading a list -/

theorem argRow_append (ha : Argument a) (hh : ∀ c ∈ h, isGap c = true)
    (hrest : ∀ c ∈ rest.head?, isGap c = false ∧ isStop c = true)
    (hnext : many nextArg rest = some (us, mid)) :
    argRow (a ++ (h ++ rest)) = some (argTree a :: (h.map .char ++ us), mid) := by
  have hhead : rest.head?.any isGap = false :=
    (Option.any_eq_false _ _).mpr fun c hc => (hrest c hc).1
  rw [argRow, inOrder_of_some (callArg_append ha hh hrest),
    inOrder_of_some (gaps_append hh hhead), inOrder_singleton, hnext]
  rfl

theorem many_nextArg_cons (hgaps : gaps s = some (us, t)) (hrow : argRow t = some (ts, rest)) :
    many nextArg (',' :: s) = some (.char ',' :: (us ++ ts), rest) := by
  obtain ⟨xs, mid, ys, harg, hbehind, rfl⟩ := followedBy_eq_some_iff.mp hrow
  obtain ⟨zs, last, vs, hback, hnext, rfl⟩ := followedBy_eq_some_iff.mp hbehind
  rw [inOrder_singleton] at hnext
  have hread : nextArg (',' :: s) = some (.char ',' :: (us ++ (xs ++ zs)), last) := by
    rw [nextArg, inOrder_of_some (literal_cons ',' s), inOrder_of_some hgaps,
      inOrder_of_some harg, inOrder_singleton, hback]
    rfl
  rw [many_of_some progressive_nextArg hread, hnext]
  simp

/-- Gaps and a row of arguments are read from a list, which a closing parenthesis ends. -/
theorem exists_argRow (hs : Listed s args) (post : List Char) :
    ∃ us t ts, gaps (s ++ ')' :: post) = some (us, t) ∧ argRow t = some (ts, ')' :: post) ∧
      argTexts us = [] ∧ argTexts ts = args := by
  induction hs with
  | @last g a h hg ha hh =>
      have hnext : many nextArg (')' :: post) = some ([], ')' :: post) := many_of_none rfl
      have hrow := argRow_append ha hh (by simp; decide) hnext
      refine ⟨g.map .char, _, _, ?_, hrow, argTexts_map_char g, ?_⟩
      · simpa using gaps_append hg (ha.head_append (h ++ ')' :: post))
      · simp [argTree]
  | @cons g a h s args hg ha hh _ ih =>
      obtain ⟨us, t, ts, hgaps, hread, hus, hts⟩ := ih
      have hrow := argRow_append ha hh (by simp; decide) (many_nextArg_cons hgaps hread)
      refine ⟨g.map .char, _, _, ?_, hrow, argTexts_map_char g, ?_⟩
      · simpa using gaps_append hg (ha.head_append (h ++ ',' :: (s ++ ')' :: post)))
      · simp [argTree, hus, hts]

theorem callArgs_append (hinner : ArgumentsIn inner args) (post : List Char) :
    ∃ below, callArgs ('(' :: (inner ++ ')' :: post)) = some ([.node .callArgs below], post) ∧
      argTexts below = args := by
  rcases argumentsIn_iff.mp hinner with ⟨hgaps, rfl⟩ | hlisted
  · have hnone : argRow (')' :: post) = none := by
      refine inOrder_of_none (node_of_none (inOrder_of_none ?_))
      rw [argPiece_eq]
      exact followedBy_of_none (pieceUnit_of_head (by simp; decide))
    refine ⟨.char '(' :: (inner.map .char ++ [.char ')']), ?_, ?_⟩
    · rw [callArgs_eq]
      apply node_of_some
      rw [inOrder_of_some (literal_cons '(' _), inOrder_of_some (gaps_append hgaps rfl),
        inOrder_of_some (maybe_of_none hnone), inOrder_singleton, literal_cons]
      rfl
    · simp
  · obtain ⟨us, t, ts, hgaps, hrow, hus, hts⟩ := exists_argRow hlisted post
    refine ⟨.char '(' :: (us ++ (ts ++ [.char ')'])), ?_, ?_⟩
    · rw [callArgs_eq]
      apply node_of_some
      rw [inOrder_of_some (literal_cons '(' _), inOrder_of_some hgaps,
        inOrder_of_some (maybe_of_some hrow), inOrder_singleton, literal_cons]
      rfl
    · simp [hus, hts]

/-! ### What has been read is a list -/

theorem exists_of_gaps (hread : gaps s = some (ts, rest)) :
    ∃ g : List Char, ts = g.map .char ∧ ∀ c ∈ g, isGap c = true :=
  yields_many_charIn isGap s ts rest hread

theorem eq_singleton_of_literal {c : Char} (hread : literal [c] s = some (ts, rest)) :
    ts = [.char c] := by
  rw [literal_singleton] at hread
  refine yields_charIn (P := fun ts => ts = [.char c]) (fun d hd => ?_) s ts rest hread
  rw [of_decide_eq_true hd]

/-- A row of trees continues a list if it makes an argument with gaps around it a list again. -/
def Continues (ts : List (ParseTree Rule)) : Prop :=
  ∀ g a h, (∀ c ∈ g, isGap c = true) → Argument a → (∀ c ∈ h, isGap c = true) →
    Listed (g ++ (a ++ (h ++ ParseTree.textAll ts))) (a :: argTexts ts)

theorem continues_of_nextArg (hread : nextArg s = some (ts, rest)) (hus : Continues us) :
    Continues (ts ++ us) := by
  obtain ⟨commas, _, _, hcomma, hbehind, rfl⟩ := followedBy_eq_some_iff.mp hread
  obtain ⟨_, _, _, hfront, hmiddle, rfl⟩ := followedBy_eq_some_iff.mp hbehind
  obtain ⟨_, _, _, harg, hlast, rfl⟩ := followedBy_eq_some_iff.mp hmiddle
  rw [inOrder_singleton] at hlast
  obtain rfl : commas = [.char ','] := eq_singleton_of_literal hcomma
  obtain ⟨front, rfl, hfrontgaps⟩ := exists_of_gaps hfront
  obtain ⟨below, rfl, hbelow⟩ := exists_of_callArg harg
  obtain ⟨back, rfl, hbackgaps⟩ := exists_of_gaps hlast
  intro g a h hg ha hh
  have hlisted := Listed.cons hg ha hh (hus front _ back hfrontgaps hbelow hbackgaps)
  simpa [ParseTree.textAll, ParseTree.text] using hlisted

theorem continues_of_many_nextArg (hread : many nextArg s = some (ts, rest)) : Continues ts := by
  have hnil : Continues [] := by
    intro g a h hg ha hh
    rw [ParseTree.textAll, List.append_nil]
    exact .last hg ha hh
  have hround : Yields nextArg fun ts => ∀ us, Continues us → Continues (ts ++ us) :=
    fun s ts rest hread us hus => continues_of_nextArg hread hus
  exact hround.many hnil (fun ts us hts hus => hts us hus) s ts rest hread

theorem listed_of_argRow (hread : argRow s = some (ts, rest)) (hg : ∀ c ∈ g, isGap c = true) :
    Listed (g ++ ParseTree.textAll ts) (argTexts ts) := by
  obtain ⟨_, _, _, harg, hbehind, rfl⟩ := followedBy_eq_some_iff.mp hread
  obtain ⟨_, _, _, hback, hnext, rfl⟩ := followedBy_eq_some_iff.mp hbehind
  rw [inOrder_singleton] at hnext
  obtain ⟨below, rfl, hbelow⟩ := exists_of_callArg harg
  obtain ⟨back, rfl, hbackgaps⟩ := exists_of_gaps hback
  have hlisted := continues_of_many_nextArg hnext g _ back hg hbelow hbackgaps
  simpa [ParseTree.textAll, ParseTree.text] using hlisted

/-- Where a list of arguments is read, one stands between parentheses. -/
theorem exists_of_callArgs (hread : callArgs s = some (ts, rest)) :
    ∃ inner below, ts = [.node .callArgs below] ∧
      ParseTree.textAll below = '(' :: (inner ++ [')']) ∧ ArgumentsIn inner (argTexts below) := by
  rw [callArgs_eq] at hread
  obtain ⟨below, hbelow, rfl⟩ := node_eq_some_iff.mp hread
  obtain ⟨opening, _, _, hopening, hbehind, rfl⟩ := followedBy_eq_some_iff.mp hbelow
  obtain ⟨_, _, _, hfront, hmiddle, rfl⟩ := followedBy_eq_some_iff.mp hbehind
  obtain ⟨row, _, closing, hrow, hclosing, rfl⟩ := followedBy_eq_some_iff.mp hmiddle
  rw [inOrder_singleton] at hclosing
  obtain rfl : opening = [.char '('] := eq_singleton_of_literal hopening
  obtain rfl : closing = [.char ')'] := eq_singleton_of_literal hclosing
  obtain ⟨front, rfl, hfrontgaps⟩ := exists_of_gaps hfront
  refine ⟨front ++ ParseTree.textAll row, _, rfl, ?_, argumentsIn_iff.mpr ?_⟩
  · simp [ParseTree.textAll, ParseTree.text]
  · rcases nil_or_of_maybe hrow with rfl | hrow
    · left
      exact ⟨by simpa [ParseTree.textAll] using hfrontgaps, by simp⟩
    · right
      simpa using listed_of_argRow hrow hfrontgaps

end TemplateMarkup.Grammar
