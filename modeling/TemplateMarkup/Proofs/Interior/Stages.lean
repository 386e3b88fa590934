import TemplateMarkup.Proofs.Interior.Lexeme
import TemplateMarkup.Proofs.Text.Cutting

/-! # Stages of a variable

The interior of a variable is cut at the pipes outside quotes. A stage is a
text whose quotes all close and which holds no pipe outside them, but the last
one may end in a quote that never closes. The grammar reads every interior to
its end, and finds its stages at the places where they begin.
-/

namespace TemplateMarkup

open Grammar Recogniser Text Outcome

namespace Text

/-- Whether a text has complete quotes and no pipe outside them. -/
def Unpiped (s : List Char) : Prop :=
  Closed s ∧ '|' ∉ bare s

def isStageChar (c : Char) : Bool :=
  !decide (c = '|')

theorem fluent_isStageChar_iff {s : List Char} : Fluent isStageChar s ↔ Unpiped s := by
  rw [fluent_iff, Unpiped]
  apply and_congr_right
  intro _
  constructor
  · intro h hmem
    exact absurd (h '|' hmem) (by decide)
  · intro h c hc
    have hne : c ≠ '|' := fun heq => h (heq ▸ hc)
    simpa [isStageChar] using hne

theorem ne_pipe_of_isStageChar (c : Char) (h : isStageChar c = true) : c ≠ '|' := by
  rintro rfl
  cases h

theorem Unpiped.append {s t : List Char} (hs : Unpiped s) (ht : Unpiped t) : Unpiped (s ++ t) := by
  refine ⟨hs.1.append ht.1, ?_⟩
  rw [hs.1.bare_append, List.mem_append, not_or]
  exact ⟨hs.2, ht.2⟩

theorem Unpiped.cons {c : Char} {s : List Char} (hmark : isMark c = false) (hpipe : c ≠ '|')
    (h : Unpiped s) : Unpiped (c :: s) := by
  refine ⟨(closed_cons_iff hmark).mpr h.1, ?_⟩
  rw [bare_cons hmark, List.mem_cons, not_or]
  exact ⟨Ne.symm hpipe, h.2⟩

theorem unpiped_nil : Unpiped [] :=
  ⟨rfl, List.not_mem_nil⟩

theorem unpiped_gaps {g : List Char} (hg : ∀ c ∈ g, isGap c = true) : Unpiped g := by
  induction g with
  | nil => exact unpiped_nil
  | cons c g ih =>
      obtain ⟨hc, hg⟩ := List.forall_mem_cons.mp hg
      apply (ih hg).cons (isMark_of_isGap hc)
      rintro rfl
      cases hc

/-- Whether a text consists of the given stages with a pipe between each two of them. -/
inductive Staged : List Char → List (List Char) → Prop
  | closed {s : List Char} (unpiped : Unpiped s) : Staged s [s]
  | broken {s q : List Char} (unpiped : Unpiped s) (openQuote : OpenQuote q) :
      Staged (s ++ q) [s ++ q]
  | cons {s t : List Char} {rest : List (List Char)} (unpiped : Unpiped s)
      (behind : Staged t rest) : Staged (s ++ '|' :: t) (s :: rest)

variable {s t : List Char} {ss before after : List (List Char)}

/-- The stages of a text are what is cut at its pipes. -/
theorem Staged.eq_stages (h : Staged s ss) : ss = stages s := by
  induction h with
  | closed hs =>
      exact (stages_of_fluent (fluent_isStageChar_iff.mpr hs) ne_pipe_of_isStageChar).symm
  | broken hs hq =>
      exact (stages_append_openQuote (fluent_isStageChar_iff.mpr hs) ne_pipe_of_isStageChar hq).symm
  | cons hs _ ih =>
      rw [stages_append_pipe (fluent_isStageChar_iff.mpr hs) ne_pipe_of_isStageChar, ← ih]

theorem exists_staged {w q : List Char} (hw : Closed w) (hq : q = [] ∨ OpenQuote q) :
    ∃ ss, Staged (w ++ q) ss := by
  induction hn : w.length using Nat.strongRecOn generalizing w with
  | ind n ih =>
      obtain ⟨v, r, rfl, hv, hr, hhead⟩ := hw.exists_fluent isStageChar
      have hunpiped : Unpiped v := fluent_isStageChar_iff.mp hv
      cases r with
      | nil =>
          rw [List.append_nil]
          rcases hq with rfl | hq
          · rw [List.append_nil]
            exact ⟨_, .closed hunpiped⟩
          · exact ⟨_, .broken hunpiped hq⟩
      | cons c r =>
          obtain ⟨hmark, hplain⟩ := hhead c rfl
          obtain rfl : c = '|' := by simpa [isStageChar] using hplain
          simp only [List.length_append, List.length_cons] at hn
          obtain ⟨ss, hss⟩ := ih r.length (by omega) ((closed_cons_iff hmark).mp hr) rfl
          rw [List.append_assoc, List.cons_append]
          exact ⟨_, .cons hunpiped hss⟩

theorem staged_stages (s : List Char) : Staged s (stages s) := by
  obtain ⟨w, q, rfl, hw, hq⟩ := exists_closed_append s
  obtain ⟨ss, hss⟩ := exists_staged hw hq
  rw [← hss.eq_stages]
  exact hss

theorem Staged.ne_nil (h : Staged s ss) : ss ≠ [] := by
  cases h <;> exact List.cons_ne_nil _ _

theorem Staged.unpiped (h : Staged s ss) (ht : t ∈ ss) (hclosed : Closed t) : Unpiped t := by
  induction h with
  | closed hs => exact List.mem_singleton.mp ht ▸ hs
  | broken hs hq =>
      rw [List.mem_singleton.mp ht] at hclosed
      exact absurd (hs.1.append_iff.mp hclosed) hq.not_closed
  | cons hs _ ih =>
      rcases List.mem_cons.mp ht with rfl | ht
      · exact hs
      · exact ih ht

theorem Staged.isInfix (h : Staged s ss) (ht : t ∈ ss) : t <:+: s := by
  induction h with
  | closed _ => exact List.mem_singleton.mp ht ▸ List.infix_rfl
  | broken _ _ => exact List.mem_singleton.mp ht ▸ List.infix_rfl
  | @cons s u rest _ _ ih =>
      rcases List.mem_cons.mp ht with rfl | ht
      · exact List.infix_append' [] _ _
      · exact (ih ht).trans ⟨s ++ ['|'], [], by simp⟩

/-- The stages of a text with the offsets at which they begin. -/
def placedStages (offset : Nat) : List (List Char) → List (Nat × List Char)
  | [] => []
  | s :: ss => (offset, s) :: placedStages (offset + byteSize (s ++ ['|'])) ss

/-- An open quote in one of the stages is the open quote of the text. -/
theorem Staged.exists_openQuote {i : Nat} (h : Staged s (before ++ t :: after))
    (ht : openQuoteAt? t = some i) :
    ∃ w q, s = w ++ q ∧ Closed w ∧ OpenQuote q ∧
      byteSize w = byteSize (before.flatMap (· ++ ['|'])) + i := by
  have hopen : ¬ Closed t := by
    intro hclosed
    rw [openQuoteAt?_of_closed hclosed] at ht
    cases ht
  generalize hss : before ++ t :: after = ss at h
  induction h generalizing before with
  | closed hs =>
      obtain ⟨rfl, hcons⟩ | ⟨_, hnil⟩ := List.append_eq_singleton_iff.mp hss
      · cases hcons
        exact absurd hs.1 hopen
      · cases hnil
  | broken hs hq =>
      obtain ⟨rfl, hcons⟩ | ⟨_, hnil⟩ := List.append_eq_singleton_iff.mp hss
      · cases hcons
        obtain ⟨w, q, hsplit, hw, hq, hi⟩ := openQuoteAt?_eq_some_iff.mp ht
        exact ⟨w, q, hsplit, hw, hq, by simpa using hi⟩
      · cases hnil
  | @cons s u rest hs _ ih =>
      obtain ⟨rfl, hcons⟩ | ⟨bs, rfl, hrest⟩ := List.append_eq_cons_iff.mp hss
      · cases hcons
        exact absurd hs.1 hopen
      · obtain ⟨w, q, rfl, hw, hq, hi⟩ := ih hrest.symm
        refine ⟨s ++ '|' :: w, q, by simp, hs.1.append ((closed_cons_iff rfl).mpr hw), hq, ?_⟩
        simp [hi]
        omega

end Text

namespace Grammar

theorem stage_eq : stage = node .stage (many (lexer isStageChar)) := by
  have htests : Tests (literal (ρ := Rule) ['|']) fun c => c = '|' := tests_literal '|'
  simp only [stage, htests.charBut_eq]
  rfl

/-- A pipe and a stage. -/
def nextStage : Recogniser Rule := inOrder [literal ['|'], stage]

/-- The stages of a variable from the first one on. -/
def stageRow : Recogniser Rule := inOrder [stage, many nextStage]

theorem pipeline_eq : pipeline =
    node .pipeline (inOrder [stage, many nextStage, endNode .endOfText]) := rfl

theorem lossless_stage : Lossless stage := by
  rw [stage_eq]
  exact (lossless_lexer _).many.node _

theorem lossless_nextStage : Lossless nextStage := by
  apply lossless_inOrder
  simp only [List.forall_mem_cons]
  exact ⟨lossless_literal _, lossless_stage, List.forall_mem_nil _⟩

theorem progressive_nextStage : Progressive nextStage := by
  apply (progressive_literal (List.cons_ne_nil _ _)).inOrder
  simp only [List.forall_mem_cons]
  exact ⟨lossless_stage, List.forall_mem_nil _⟩

theorem exhausts_pipeline : Exhausts pipeline :=
  (exhausts_endNode _).followedBy.followedBy.node _

theorem lossless_pipeline : Lossless pipeline := by
  refine (lossless_inOrder ?_).node _
  simp only [List.forall_mem_cons]
  exact ⟨lossless_stage, lossless_nextStage.many, lossless_endNode _, List.forall_mem_nil _⟩

variable {s rest : List Char} {ss : List (List Char)} {ts us : List (ParseTree Rule)}

theorem stage_unpiped (h : Unpiped s) (hrest : ∀ c ∈ rest.head?, c = '|') :
    stage (s ++ rest) = some ([.node .stage (s.map .char)], rest) := by
  have hmark : rest.head?.any isMark = false :=
    (Option.any_eq_false _ _).mpr fun c hc => by rw [hrest c hc]; rfl
  have hplain : rest.head?.any isStageChar = false :=
    (Option.any_eq_false _ _).mpr fun c hc => by rw [hrest c hc]; rfl
  rw [stage_eq]
  exact node_of_some (many_lexer_append (fluent_isStageChar_iff.mpr h) hmark hplain)

theorem stage_openQuote {q : List Char} (hs : Unpiped s) (hq : OpenQuote q) :
    stage (s ++ q) = some ([.node .stage (brokenTrees s q)], []) := by
  rw [stage_eq]
  exact node_of_some (many_lexer_openQuote (fluent_isStageChar_iff.mpr hs) hq)

theorem stageRow_of_stage {mid : List Char} (hstage : stage s = some (ts, mid))
    (hnext : many nextStage mid = some (us, rest)) : stageRow s = some (ts ++ us, rest) := by
  rw [stageRow, inOrder_of_some hstage, inOrder_singleton, hnext]
  rfl

theorem many_nextStage_nil : many nextStage [] = some ([], []) :=
  many_of_none rfl

theorem many_nextStage_cons (h : stageRow s = some (ts, rest)) :
    many nextStage ('|' :: s) = some (.char '|' :: ts, rest) := by
  obtain ⟨us, mid, vs, hstage, hnext, rfl⟩ := followedBy_eq_some_iff.mp h
  rw [inOrder_singleton] at hnext
  have hread : nextStage ('|' :: s) = some (.char '|' :: us, mid) := by
    rw [nextStage, inOrder_of_some (literal_cons '|' s), inOrder_singleton, hstage]
    rfl
  rw [many_of_some progressive_nextStage hread, hnext]
  rfl

/-- Whether a row of trees holds the given stages at their places, and each is kept or refused as
its text is. -/
def TellsStages (ts : List (ParseTree Rule)) (ss : List (List Char)) : Prop :=
  (∀ offset, (ParseTree.nodesOf .stage offset ts).map (fun entry => (entry.1, entry.2.text)) =
    placedStages offset ss) ∧ ∀ t ∈ ts.filter (ParseTree.isNode .stage), Verbatim t

theorem tellsStages_singleton {t : ParseTree Rule} (hnode : t.isNode .stage = true)
    (ht : Verbatim t) : TellsStages [t] [t.text] := by
  constructor
  · intro offset
    simp [ParseTree.nodesOf, ParseTree.placed, hnode, placedStages]
  · intro u hu
    rw [List.mem_singleton.mp (List.mem_filter.mp hu).1]
    exact ht

theorem TellsStages.cons {t : ParseTree Rule} (hnode : t.isNode .stage = true) (ht : Verbatim t)
    (h : TellsStages ts ss) : TellsStages ([t] ++ .char '|' :: ts) (t.text :: ss) := by
  have hfilter : ([t] ++ ParseTree.char '|' :: ts).filter (ParseTree.isNode .stage) =
      t :: ts.filter (ParseTree.isNode .stage) := by
    rw [List.singleton_append, List.filter_cons_of_pos hnode, List.filter_cons_of_neg (by decide)]
  constructor
  · intro offset
    have hplaced : ParseTree.nodesOf .stage offset ([t] ++ .char '|' :: ts) =
        (offset, t) :: ParseTree.nodesOf .stage (offset + byteSize (t.text ++ ['|'])) ts := by
      rw [ParseTree.nodesOf, List.singleton_append, ParseTree.placed,
        List.filter_cons_of_pos (by simpa using hnode), ParseTree.placed,
        List.filter_cons_of_neg (by simp [ParseTree.isNode]), byteSize_append, ← Nat.add_assoc]
      rfl
    rw [hplaced, List.map_cons, h.1, placedStages]
  · rw [hfilter, List.forall_mem_cons]
    exact ⟨ht, h.2⟩

/-- Every text is read stage by stage up to its end. -/
theorem exists_stageRow (h : Staged s ss) :
    ∃ ts, stageRow s = some (ts, []) ∧ TellsStages ts ss := by
  induction h with
  | @closed s hs =>
      have hstage := @stage_unpiped s [] hs (by simp)
      have htells := tellsStages_singleton rfl (verbatim_of_closed hs.1 .stage)
      rw [List.append_nil] at hstage
      refine ⟨_, stageRow_of_stage hstage many_nextStage_nil, ?_⟩
      simpa [ParseTree.text] using htells
  | @broken s q hs hq =>
      have htells := tellsStages_singleton rfl (verbatim_of_openQuote hs.1 hq .stage)
      refine ⟨_, stageRow_of_stage (stage_openQuote hs hq) many_nextStage_nil, ?_⟩
      simpa [ParseTree.text, ParseTree.textAll, brokenTrees] using htells
  | @cons s t rest hs _ ih =>
      obtain ⟨ts, hrow, hts⟩ := ih
      have hstage := @stage_unpiped s ('|' :: t) hs (by simp)
      have htells := TellsStages.cons rfl (verbatim_of_closed hs.1 .stage) hts
      refine ⟨_, stageRow_of_stage hstage (many_nextStage_cons hrow), ?_⟩
      simpa [ParseTree.text] using htells

theorem parts?_pipeline (h : stageRow s = some (ts, [])) :
    parts? pipeline s = some (ts ++ [.node .endOfText []]) := by
  obtain ⟨us, mid, vs, hstage, hnext, rfl⟩ := followedBy_eq_some_iff.mp h
  rw [inOrder_singleton] at hnext
  have hread : pipeline s = some ([.node .pipeline (us ++ (vs ++ [.node .endOfText []]))], []) := by
    rw [pipeline_eq]
    apply node_of_some
    rw [inOrder_of_some hstage, inOrder_of_some hnext, inOrder_singleton]
    rfl
  rw [parts?, hread]
  simp [ParseTree.children]

end Grammar

end TemplateMarkup
