import TemplateMarkup.Proofs.Interior.ArgumentLists
import TemplateMarkup.Proofs.Interior.Stages
import TemplateMarkup.Variable.Reading

/-! # Calls

A call is a name, behind which arguments may stand in parentheses. A stage
spells a call if it is written in this way, with gaps between the parts, and a
call is read from a stage exactly if the stage spells it. A call with a proper
name and proper arguments is spelled by what it is written as, and every call
that a stage spells is of this kind.
-/

namespace TemplateMarkup

open Grammar Recogniser Text

namespace Grammar

/-- The characters of a name: all except gaps, quotation marks, parentheses, commas and pipes. -/
def isNameChar (c : Char) : Bool :=
  !(isReserved c || decide (c = '|'))

theorem isGap_of_isNameChar {c : Char} (h : isNameChar c = true) : isGap c = false := by
  simp only [isNameChar, isReserved, Bool.not_eq_true', Bool.or_eq_false_iff] at h
  exact h.1.1

theorem isMark_of_isNameChar {c : Char} (h : isNameChar c = true) : isMark c = false := by
  simp only [isNameChar, isReserved, Bool.not_eq_true', Bool.or_eq_false_iff] at h
  exact h.1.2.1

end Grammar

/-- Whether a text can stand as a name. -/
def Text.Name (w : List Char) : Prop :=
  w ≠ [] ∧ ∀ c ∈ w, isNameChar c = true

theorem Text.Name.closed {w : List Char} (h : Name w) : Closed w :=
  closed_of_forall fun c hc => isMark_of_isNameChar (h.2 c hc)

namespace Call

/-- A call as it is written. -/
def written (c : Call) : List Char :=
  c.name ++ c.args.elim [] argumentList

/-- Whether name and arguments of a call are proper ones, and the pipes of its arguments stand
inside quotes. -/
def Clean (c : Call) : Prop :=
  Name c.name ∧ ∀ args, c.args = some args → ∀ a ∈ args, Argument a ∧ Unpiped a

/-- Whether a text spells a call. It is the name with gaps around it, and behind the name the
arguments stand in parentheses, unless the call has no row of arguments at all. -/
inductive SpelledBy : Call → List Char → Prop
  | plain {pre name post : List Char} (front : ∀ c ∈ pre, isGap c = true) (proper : Name name)
      (back : ∀ c ∈ post, isGap c = true) : SpelledBy ⟨name, none⟩ (pre ++ (name ++ post))
  | applied {pre name mid inner post : List Char} {args : List (List Char)}
      (front : ∀ c ∈ pre, isGap c = true) (proper : Name name)
      (between : ∀ c ∈ mid, isGap c = true) (inside : ArgumentsIn inner args)
      (back : ∀ c ∈ post, isGap c = true) :
      SpelledBy ⟨name, some args⟩ (pre ++ (name ++ (mid ++ '(' :: (inner ++ ')' :: post))))

end Call

namespace Grammar

theorem tests_reserved_pipe :
    Tests (firstOf (reserved ++ [literal ['|']])) fun c => isReserved c || decide (c = '|') := by
  have hclass : (fun c => isReserved c || decide (c = '|')) = fun c => isGap c || (isMark c ||
      (decide (c = '(') || (decide (c = ')') || (decide (c = ',') ||
        (decide (c = '|') || false))))) := by
    funext c
    simp only [isReserved, Bool.or_assoc, Bool.or_false]
  rw [hclass]
  exact tests_gap.orElse (tests_quote.orElse ((tests_literal '(').orElse
    ((tests_literal ')').orElse ((tests_literal ',').orElse
      ((tests_literal '|').orElse tests_never)))))

theorem name_eq : name = node .name (many1 (charIn isNameChar)) := by
  simp only [name, tests_reserved_pipe.charBut_eq]
  rfl

theorem name_append {w rest : List Char} (h : Name w)
    (hrest : rest.head?.any isNameChar = false) :
    name (w ++ rest) = some ([.node .name (w.map .char)], rest) := by
  rw [name_eq]
  exact node_of_some
    (many1_of_many (progressive_charIn _) (many_charIn h.2 hrest) (by simpa using h.1))

theorem isNameChar_of_isGap {c : Char} (h : isGap c = true) : isNameChar c = false := by
  simp [isNameChar, isReserved, h]

theorem exhausts_call : Exhausts call :=
  (exhausts_endNode _).followedBy.followedBy.followedBy.followedBy.followedBy.node _

theorem lossless_name : Lossless name := by
  rw [name_eq]
  exact (lossless_charIn _).many1.node _

theorem lossless_call : Lossless call := by
  refine (lossless_inOrder ?_).node _
  simp only [List.forall_mem_cons]
  exact ⟨lossless_gaps, lossless_name, lossless_gaps, lossless_callArgs.maybe, lossless_gaps,
    lossless_endNode _, List.forall_mem_nil _⟩

theorem exists_of_name {s rest : List Char} {ts : List (ParseTree Rule)}
    (hread : name s = some (ts, rest)) : ∃ w, Name w ∧ ts = [.node .name (w.map .char)] := by
  rw [name_eq] at hread
  obtain ⟨below, hbelow, rfl⟩ := node_eq_some_iff.mp hread
  obtain ⟨w, rfl, hne, hw⟩ := yields_many1_charIn isNameChar _ _ _ hbelow
  exact ⟨w, ⟨hne, hw⟩, rfl⟩

/-- What stands below a call, where `below` stands below its arguments if it has parentheses. -/
def callTrees (pre w mid : List Char) (below : Option (List (ParseTree Rule)))
    (post : List Char) : List (ParseTree Rule) :=
  pre.map .char ++ .node .name (w.map .char) ::
    (mid.map .char ++ (below.elim [] (fun ts => [.node .callArgs ts]) ++
      (post.map .char ++ [.node .endOfText []])))

section Trees

variable {s pre w mid inner post : List Char} {args : List (List Char)}
  {below : Option (List (ParseTree Rule))} {ts : List (ParseTree Rule)}

theorem ofText?_of_parts? (h : parts? call s = some (callTrees pre w mid below post)) :
    Call.ofText? s = some ⟨w, below.map argTexts⟩ := by
  have hname : (callTrees pre w mid below post).find? (ParseTree.isNode .name) =
      some (.node .name (w.map .char)) := by
    rw [callTrees, find?_map_char_append]
    rfl
  have hargs : (callTrees pre w mid below post).find? (ParseTree.isNode .callArgs) =
      below.map (.node .callArgs) := by
    rw [callTrees, find?_map_char_append, List.find?_cons_of_neg (by simp [ParseTree.isNode]),
      find?_map_char_append]
    cases below with
    | none =>
        rw [Option.elim_none, List.nil_append, find?_map_char_append]
        rfl
    | some ts => rfl
  simp only [Call.ofText?, h, hname, hargs, Option.map_some, Option.map_map]
  cases below <;> simp [ParseTree.text, ParseTree.children, argTexts]

theorem gaps_whole (hpost : ∀ c ∈ post, isGap c = true) : gaps post = some (post.map .char, []) := by
  have hread := gaps_append (t := []) hpost rfl
  rwa [List.append_nil] at hread

theorem head_not_gap_of_name (hname : Name w) (rest : List Char) :
    (w ++ rest).head?.any isGap = false := by
  refine head_not_gap_append hname.1 ?_
  cases w with
  | nil => rfl
  | cons c w => exact isGap_of_isNameChar (hname.2 c (List.mem_cons_self ..))

/-- Gaps and an opening parenthesis end a name, and so does the end of the text. -/
theorem head_not_name_of_gaps {g t : List Char} (hg : ∀ c ∈ g, isGap c = true)
    (ht : t.head?.any isNameChar = false) : (g ++ t).head?.any isNameChar = false := by
  cases g with
  | nil => exact ht
  | cons c g => exact isNameChar_of_isGap (hg c (List.mem_cons_self ..))

theorem parts?_call_plain (hpre : ∀ c ∈ pre, isGap c = true) (hname : Name w)
    (hpost : ∀ c ∈ post, isGap c = true) :
    parts? call (pre ++ (w ++ post)) = some (callTrees pre w post none []) := by
  have hstop : (post ++ []).head?.any isNameChar = false := head_not_name_of_gaps hpost rfl
  rw [List.append_nil] at hstop
  have hread : call (pre ++ (w ++ post)) =
      some ([.node .call (callTrees pre w post none [])], []) := by
    apply node_of_some
    rw [inOrder_of_some (gaps_append hpre (head_not_gap_of_name hname post)),
      inOrder_of_some (name_append hname hstop), inOrder_of_some (gaps_whole hpost),
      inOrder_of_some (maybe_of_none rfl), inOrder_of_some (gaps_of_head rfl), inOrder_singleton]
    simp [endNode, callTrees]
  rw [parts?, hread]
  simp [ParseTree.children]

theorem exists_parts?_call_applied (hpre : ∀ c ∈ pre, isGap c = true) (hname : Name w)
    (hmid : ∀ c ∈ mid, isGap c = true) (hinner : ArgumentsIn inner args)
    (hpost : ∀ c ∈ post, isGap c = true) :
    ∃ ts, parts? call (pre ++ (w ++ (mid ++ '(' :: (inner ++ ')' :: post)))) =
      some (callTrees pre w mid (some ts) post) ∧ argTexts ts = args := by
  obtain ⟨ts, hargs, htexts⟩ := callArgs_append hinner post
  have hread : call (pre ++ (w ++ (mid ++ '(' :: (inner ++ ')' :: post)))) =
      some ([.node .call (callTrees pre w mid (some ts) post)], []) := by
    apply node_of_some
    rw [inOrder_of_some (gaps_append hpre (head_not_gap_of_name hname _)),
      inOrder_of_some (name_append hname (head_not_name_of_gaps hmid rfl)),
      inOrder_of_some (gaps_append hmid rfl), inOrder_of_some (maybe_of_some hargs),
      inOrder_of_some (gaps_whole hpost), inOrder_singleton]
    simp [endNode, callTrees]
  refine ⟨ts, ?_, htexts⟩
  rw [parts?, hread]
  simp [ParseTree.children]

/-- What is read as a call is written as one. -/
theorem exists_spelledBy_of_parts? (h : parts? call s = some ts) :
    ∃ pre w mid below post, ts = callTrees pre w mid below post ∧
      Call.SpelledBy ⟨w, below.map argTexts⟩ s := by
  have hwhole := ParseTree.textAll_of_parts? lossless_call exhausts_call h
  obtain ⟨found, hcall, rfl⟩ := Option.map_eq_some_iff.mp h
  obtain ⟨_, hrow, hfound⟩ := node_eq_some_iff.mp hcall
  obtain ⟨_, _, _, hfront, hfromname, rfl⟩ := followedBy_eq_some_iff.mp hrow
  obtain ⟨_, _, _, hname, hfrommid, rfl⟩ := followedBy_eq_some_iff.mp hfromname
  obtain ⟨_, _, _, hmiddle, hfromargs, rfl⟩ := followedBy_eq_some_iff.mp hfrommid
  obtain ⟨_, _, _, hargs, hfrompost, rfl⟩ := followedBy_eq_some_iff.mp hfromargs
  obtain ⟨_, _, last, hback, hlast, rfl⟩ := followedBy_eq_some_iff.mp hfrompost
  obtain ⟨pre, rfl, hpre⟩ := exists_of_gaps hfront
  obtain ⟨w, hw, rfl⟩ := exists_of_name hname
  obtain ⟨mid, rfl, hmid⟩ := exists_of_gaps hmiddle
  obtain ⟨post, rfl, hpost⟩ := exists_of_gaps hback
  obtain rfl : [.node .endOfText []] = last :=
    yields_inOrder_singleton (yields_endNode rfl) _ _ _ hlast
  rw [hfound] at hwhole ⊢
  rcases nil_or_of_maybe hargs with rfl | hargs
  · refine ⟨pre, w, mid, none, post, by simp [ParseTree.children, callTrees], ?_⟩
    have hgaps : ∀ c ∈ mid ++ post, isGap c = true := List.forall_mem_append.mpr ⟨hmid, hpost⟩
    rw [← hwhole]
    simpa [ParseTree.children, ParseTree.textAll, ParseTree.text] using
      Call.SpelledBy.plain hpre hw hgaps
  · obtain ⟨inner, below, rfl, htext, hinner⟩ := exists_of_callArgs hargs
    refine ⟨pre, w, mid, some below, post, by simp [ParseTree.children, callTrees], ?_⟩
    rw [← hwhole]
    simpa [ParseTree.children, ParseTree.textAll, ParseTree.text, htext] using
      Call.SpelledBy.applied hpre hw hmid hinner hpost

end Trees

end Grammar

namespace Call

variable {s : List Char} {c : Call}

/-- A call is read from a stage exactly if the stage spells it. -/
theorem ofText?_eq_some_iff : ofText? s = some c ↔ c.SpelledBy s := by
  constructor
  · intro h
    cases hparts : parts? call s with
    | none =>
        rw [ofText?, hparts] at h
        cases h
    | some ts =>
        obtain ⟨pre, w, mid, below, post, rfl, hspelled⟩ := exists_spelledBy_of_parts? hparts
        rw [ofText?_of_parts? hparts] at h
        cases h
        exact hspelled
  · intro h
    cases h with
    | plain hpre hname hpost => exact ofText?_of_parts? (parts?_call_plain hpre hname hpost)
    | applied hpre hname hmid hinner hpost =>
        obtain ⟨ts, hparts, rfl⟩ := exists_parts?_call_applied hpre hname hmid hinner hpost
        exact ofText?_of_parts? hparts

/-- A call is spelled by what it is written as, whatever gaps surround it. -/
theorem Clean.spelledBy {pre post : List Char} (h : c.Clean) (hpre : ∀ d ∈ pre, isGap d = true)
    (hpost : ∀ d ∈ post, isGap d = true) : c.SpelledBy (pre ++ (c.written ++ post)) := by
  obtain ⟨hname, hargs⟩ := h
  obtain ⟨w, args⟩ := c
  cases args with
  | none => simpa [written] using SpelledBy.plain hpre hname hpost
  | some args =>
      have hinner : ArgumentsIn ([',', ' '].intercalate args) args :=
        argumentsIn_intercalate fun a ha => (hargs args rfl a ha).1
      simpa [written, argumentList] using
        SpelledBy.applied hpre hname (List.forall_mem_nil _) hinner hpost

/-- Whether name and arguments of a call are parts of a text. -/
def Within (c : Call) (s : List Char) : Prop :=
  c.name <:+: s ∧ ∀ args, c.args = some args → ∀ a ∈ args, a <:+: s

theorem SpelledBy.name (h : c.SpelledBy s) : Name c.name := by
  cases h with
  | plain _ hname _ => exact hname
  | applied _ hname _ _ _ => exact hname

theorem SpelledBy.name_isInfix (h : c.SpelledBy s) : c.name <:+: s := by
  cases h with
  | @plain pre w post _ _ _ => exact ⟨pre, post, List.append_assoc pre w post⟩
  | @applied pre w mid inner post _ _ _ _ _ _ => exact ⟨pre, _, List.append_assoc pre w _⟩

/-- The quotes of a stage that spells a call all close. -/
theorem SpelledBy.closed (h : c.SpelledBy s) : Closed s := by
  cases h with
  | plain hpre hname hpost =>
      exact (closed_of_gaps hpre).append (hname.closed.append (closed_of_gaps hpost))
  | @applied pre w mid inner post args hpre hname hmid hinner hpost =>
      have hbehind : Closed (inner ++ ')' :: post) := by
        apply hinner.closed.append
        exact (closed_cons_iff rfl).mpr (closed_of_gaps hpost)
      have hlist : Closed ('(' :: (inner ++ ')' :: post)) := (closed_cons_iff rfl).mpr hbehind
      exact (closed_of_gaps hpre).append
        (hname.closed.append ((closed_of_gaps hmid).append hlist))

/-- The arguments of a call are proper ones, and the stage shows what they hold outside quotes. -/
theorem SpelledBy.argument {args : List (List Char)} (h : c.SpelledBy s)
    (hargs : c.args = some args) : ∀ a ∈ args, Argument a ∧ Shown a s := by
  cases h with
  | plain _ _ _ => cases hargs
  | @applied pre w mid inner post _ hpre hname hmid hinner _ =>
      cases hargs
      have hfront : Closed (pre ++ (w ++ (mid ++ ['(']))) :=
        (closed_of_gaps hpre).append (hname.closed.append ((closed_of_gaps hmid).append rfl))
      have hshown : Shown inner (pre ++ (w ++ (mid ++ '(' :: (inner ++ ')' :: post)))) :=
        ⟨_, ')' :: post, by simp, hfront⟩
      exact fun a ha => ⟨hinner.argument a ha, (hinner.shown a ha).trans hshown⟩

/-- A call that a stage spells has a proper name and proper arguments. -/
theorem SpelledBy.clean (h : c.SpelledBy s) (hs : Unpiped s) : c.Clean := by
  refine ⟨h.name, ?_⟩
  intro args hargs a ha
  obtain ⟨hargument, hshown⟩ := h.argument hargs a ha
  exact ⟨hargument, hargument.closed, fun hpipe => hs.2 (hshown.mem_bare hargument.closed hpipe)⟩

theorem SpelledBy.within (h : c.SpelledBy s) : c.Within s :=
  ⟨h.name_isInfix, fun _ hargs a ha => (h.argument hargs a ha).2.isInfix⟩

end Call

end TemplateMarkup
