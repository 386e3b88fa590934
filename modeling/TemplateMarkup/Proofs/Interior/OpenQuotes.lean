import TemplateMarkup.Proofs.Interior.WordRows

/-! # Open quotes in a tag

The interior of every tag is read to its end. If its quotes all close, so do
those of its words. Otherwise the quote that never closes ends the last of
them, and it is the place of the only error that the interior can bring about.
-/

namespace TemplateMarkup

open Grammar Recogniser Text Outcome

namespace Grammar

/-- Whether no node of a rule in a row has an open quote directly below it. -/
def Whole (rule : Rule) (ts : List (ParseTree Rule)) : Prop :=
  ∀ t ∈ ts.filter (ParseTree.isNode rule), Unbroken t.children

/-- Whether a row of trees reads a text with an open quote behind it, so that the last node of a
rule in the row ends with the quote and no other holds one. -/
def Broken (rule : Rule) (w q : List Char) (ts : List (ParseTree Rule)) : Prop :=
  ∃ us v vs, ts = us ++ .node rule (brokenTrees v q) :: vs ∧ ParseTree.textAll us ++ v = w ∧
    Whole rule us ∧ vs.filter (ParseTree.isNode rule) = []

variable {rule : Rule} {w q : List Char} {ts us vs : List (ParseTree Rule)}

theorem whole_append (hus : Whole rule us) (hvs : Whole rule vs) : Whole rule (us ++ vs) := by
  unfold Whole
  rw [List.filter_append]
  exact List.forall_mem_append.mpr ⟨hus, hvs⟩

theorem whole_of_filter (h : vs.filter (ParseTree.isNode rule) = []) : Whole rule vs := by
  unfold Whole
  rw [h]
  exact List.forall_mem_nil _

theorem whole_map_char (s : List Char) : Whole rule (s.map .char) :=
  whole_of_filter (filter_map_char rule s)

theorem whole_singleton (s : List Char) : Whole rule [.node rule (s.map .char)] := by
  intro t ht
  rw [List.mem_singleton.mp (List.mem_filter.mp ht).1]
  exact unbroken_map_char s

theorem broken_singleton (v q : List Char) :
    Broken rule v q [.node rule (brokenTrees v q)] :=
  ⟨[], v, [], rfl, rfl, whole_of_filter rfl, rfl⟩

theorem Broken.prepend (h : Broken rule w q ts) (hus : Whole rule us) :
    Broken rule (ParseTree.textAll us ++ w) q (us ++ ts) := by
  obtain ⟨xs, v, ys, rfl, rfl, hxs, hys⟩ := h
  refine ⟨us ++ xs, v, ys, (List.append_assoc us xs _).symm, ?_, whole_append hus hxs, hys⟩
  rw [ParseTree.textAll_append, List.append_assoc]

theorem Broken.append (h : Broken rule w q ts) (hvs : vs.filter (ParseTree.isNode rule) = []) :
    Broken rule w q (ts ++ vs) := by
  obtain ⟨xs, v, ys, rfl, rfl, hxs, hys⟩ := h
  refine ⟨xs, v, ys ++ vs, List.append_assoc xs _ vs, rfl, hxs, ?_⟩
  rw [List.filter_append, hys, hvs, List.append_nil]

theorem Broken.not_whole (h : Broken rule w q ts) : ¬ Whole rule ts := by
  obtain ⟨us, v, vs, rfl, _, _, _⟩ := h
  intro hwhole
  have hnode : .node rule (brokenTrees v q) ∈
      (us ++ .node rule (brokenTrees v q) :: vs).filter (ParseTree.isNode rule) :=
    List.mem_filter.mpr ⟨List.mem_append_right us (List.mem_cons_self ..), decide_eq_true rfl⟩
  have hopen := hwhole _ hnode (.node .openQuote (q.map .char))
    (List.mem_append_right _ (List.mem_cons_self ..))
  cases hopen

theorem Whole.lexeme_ne_error (h : Whole rule ts) {offset : Nat} {entry : Nat × ParseTree Rule}
    (hmem : entry ∈ ParseTree.nodesOf rule offset ts) (base : Nat) (e : TemplateError) :
    lexeme base entry.1 entry.2 ≠ .error e := by
  rw [lexeme_eq_ok_iff.mpr ⟨h _ (ParseTree.mem_filter_of_mem_nodesOf hmem), rfl⟩]
  intro hok
  cases hok

/-- The one node that is no lexeme fails at the place of the open quote. -/
theorem Broken.eq_of_lexeme_error (h : Broken rule w q ts) {entry : Nat × ParseTree Rule}
    (hmem : entry ∈ ParseTree.nodesOf rule 0 ts) {base : Nat} {e : TemplateError}
    (he : lexeme base entry.1 entry.2 = .error e) :
    e = .unterminatedQuote (base + byteSize w) := by
  obtain ⟨us, v, vs, rfl, rfl, hus, hvs⟩ := h
  rw [ParseTree.nodesOf_append, List.mem_append, Nat.zero_add] at hmem
  rcases hmem with hmem | hmem
  · exact absurd he (hus.lexeme_ne_error hmem base e)
  · rw [← List.singleton_append, ParseTree.nodesOf_append, List.mem_append] at hmem
    rcases hmem with hmem | hmem
    · have hentry : entry = (byteSize (ParseTree.textAll us), .node rule (brokenTrees v q)) := by
        simpa [ParseTree.nodesOf, ParseTree.placed, ParseTree.isNode] using hmem
      rw [hentry, lexeme_brokenTrees] at he
      cases he
      rw [byteSize_append]
    · have hnone := ParseTree.mem_filter_of_mem_nodesOf hmem
      rw [hvs] at hnone
      cases hnone

theorem tagWord_openQuote {v q : List Char} (hv : Fluent isWordChar v) (hq : OpenQuote q) :
    tagWord (v ++ q) = some ([.node .tagWord (brokenTrees v q)], []) := by
  rw [tagWord_eq]
  refine node_of_some (many1_of_many (progressive_lexer _) (many_lexer_openQuote hv hq) ?_)
  simp [brokenTrees]

theorem head_not_gap_of_openQuote {s q : List Char} (hs : s.head?.any isGap = false)
    (hq : OpenQuote q) : (s ++ q).head?.any isGap = false := by
  cases s with
  | nil =>
      obtain ⟨mark, rest, rfl, hmark, _⟩ := hq
      exact not_gap_of_isMark hmark
  | cons c s => exact hs

/-- Words with an open quote at the end are read up to the end. -/
theorem exists_wordRow_of_openQuote {w q : List Char} (hw : Closed w) (hq : OpenQuote q)
    (hhead : (w ++ q).head?.any isGap = false) :
    ∃ ts, wordRow (w ++ q) = some (ts, []) ∧ Broken .tagWord w q ts := by
  -- without gaps behind it the first word runs on into the quote, otherwise the rest is shorter
  induction hn : w.length using Nat.strongRecOn generalizing w with
  | ind n ih =>
      obtain ⟨v, g, s, rfl, hv, hg, hs, hshead, hgs⟩ := exists_word_split hw
      by_cases hgne : g = []
      · subst hgne
        obtain rfl := hgs rfl
        simp only [List.append_nil]
        have hnext : many nextWord [] = some ([], []) :=
          many_nextWord_gaps (List.forall_mem_nil _)
        exact ⟨_, wordRow_of_tagWord (tagWord_openQuote hv hq) hnext, broken_singleton v q⟩
      · have hvne : v ≠ [] := by
          rintro rfl
          cases g with
          | nil => exact hgne rfl
          | cons c g => simp [hg c (List.mem_cons_self ..)] at hhead
        have hsplit : v ++ (g ++ s) ++ q = v ++ (g ++ (s ++ q)) := by simp
        have hword : tagWord (v ++ (g ++ (s ++ q))) = some ([wordTree v], g ++ (s ++ q)) := by
          apply tagWord_fluent hv hvne
          cases g with
          | nil => exact absurd rfl hgne
          | cons c g => simpa using hg c (List.mem_cons_self ..)
        have hsq := head_not_gap_of_openQuote hshead hq
        have hlength := List.length_pos_iff.mpr hvne
        simp only [List.length_append] at hn
        obtain ⟨ts, hrow, hts⟩ := ih s.length (by omega) hs hsq rfl
        refine ⟨_, hsplit ▸ wordRow_of_tagWord hword (many_nextWord_append hg hgne hsq hrow), ?_⟩
        have hword : Whole .tagWord [wordTree v] := whole_singleton v
        have hbroken := (hts.prepend (whole_map_char g)).prepend hword
        simpa [ParseTree.textAll] using hbroken

/-- An interior with an open quote at the end is read up to the end. -/
theorem exists_parts?_of_openQuote {w q : List Char} (hw : Closed w) (hq : OpenQuote q) :
    ∃ ts, parts? tagInterior (w ++ q) = some ts ∧ Broken .tagWord w q ts := by
  obtain ⟨g, s, rfl, hg, hhead⟩ := exists_front isGap w
  have hs : Closed s := (closed_of_gaps hg).append_iff.mp hw
  have hsq := head_not_gap_of_openQuote hhead hq
  obtain ⟨ts, hrow, hts⟩ := exists_wordRow_of_openQuote hs hq hsq
  have hend : [ParseTree.node Rule.endOfText []].filter (ParseTree.isNode .tagWord) = [] := rfl
  rw [List.append_assoc]
  refine ⟨_, parts?_tagInterior hg hsq hrow (List.forall_mem_nil _), ?_⟩
  simpa using (hts.prepend (whole_map_char g)).append hend

end Grammar

/-- A tag with complete quotes consists of gaps and words. -/
theorem exists_spaced_interior {interior : List Char} (h : Closed interior) :
    ∃ g s ws, interior = g ++ s ∧ (∀ c ∈ g, isGap c = true) ∧ Spaced s ws := by
  obtain ⟨g, s, rfl, hg, hhead⟩ := exists_front isGap interior
  obtain ⟨ws, hws⟩ := exists_spaced_of_closed ((closed_of_gaps hg).append_iff.mp h) hhead
  exact ⟨g, s, ws, rfl, hg, hws⟩

/-- A tag with an open quote fails at the quote. -/
theorem tagWords_of_openQuote {w q : List Char} (hw : Closed w) (hq : OpenQuote q) (offset : Nat) :
    tagWords (w ++ q) offset =
      .error (.unterminatedQuote (offset + byteSize Delimiter.tag.opener + byteSize w)) := by
  obtain ⟨ts, hparts, hbroken⟩ := exists_parts?_of_openQuote hw hq
  cases hread : tagWords (w ++ q) offset with
  | ok ws => exact absurd ((tagWords_eq_ok_iff hparts).mp hread).1 hbroken.not_whole
  | error e =>
      simp only [tagWords, hparts] at hread
      obtain ⟨entry, hentry, he⟩ := exists_of_mapM_eq_error hread
      rw [hbroken.eq_of_lexeme_error hentry he]

/-- The words of a tag fail at an open quote only. -/
theorem exists_openQuote_of_tagWords {interior : List Char} {offset : Nat} {e : TemplateError}
    (h : tagWords interior offset = .error e) :
    ∃ w q, interior = w ++ q ∧ Closed w ∧ OpenQuote q ∧
      e = .unterminatedQuote (offset + byteSize Delimiter.tag.opener + byteSize w) := by
  rcases closed_or_openQuote interior with hclosed | ⟨w, q, rfl, hw, hq⟩
  · obtain ⟨g, s, ws, rfl, hg, hws⟩ := exists_spaced_interior hclosed
    rw [tagWords_of_spaced hg hws] at h
    cases h
  · rw [tagWords_of_openQuote hw hq] at h
    cases h
    exact ⟨w, q, rfl, hw, hq, rfl⟩

/-- The words of a tag are those of which it consists, with gaps around and between them. -/
theorem tagWords_eq_ok_iff_spaced {interior : List Char} {offset : Nat} {ws : List (List Char)} :
    tagWords interior offset = .ok ws ↔
      ∃ g s, interior = g ++ s ∧ (∀ c ∈ g, isGap c = true) ∧ Spaced s ws := by
  constructor
  · intro h
    rcases closed_or_openQuote interior with hclosed | ⟨w, q, rfl, hw, hq⟩
    · obtain ⟨g, s, vs, rfl, hg, hvs⟩ := exists_spaced_interior hclosed
      rw [tagWords_of_spaced hg hvs] at h
      obtain rfl := Except.ok.inj h
      exact ⟨g, s, rfl, hg, hvs⟩
    · rw [tagWords_of_openQuote hw hq] at h
      cases h
  · rintro ⟨g, s, rfl, hg, hws⟩
    exact tagWords_of_spaced hg hws offset

/-- Every word that is read from a tag is a word, and stands in the tag. -/
theorem word_of_tagWords {interior : List Char} {offset : Nat} {ws : List (List Char)}
    (h : tagWords interior offset = .ok ws) : ∀ w ∈ ws, Word w ∧ w <:+: interior := by
  obtain ⟨g, s, rfl, _, hs⟩ := tagWords_eq_ok_iff_spaced.mp h
  exact fun w hw => ⟨hs.word w hw, (hs.isInfix w hw).trans (List.suffix_append g s).isInfix⟩

/-- Words with a space around and between them are read back. -/
theorem tagWords_flatMap {w : List Char} {ws : List (List Char)} (hw : Word w)
    (hws : ∀ w ∈ ws, Word w) (offset : Nat) :
    tagWords (((w :: ws).flatMap fun w => ' ' :: w) ++ [' ']) offset = .ok (w :: ws) := by
  rw [List.flatMap_cons, List.append_assoc]
  exact tagWords_of_spaced (g := [' ']) (List.forall_mem_singleton.mpr rfl)
    (spaced_flatMap hw hws) offset

end TemplateMarkup
