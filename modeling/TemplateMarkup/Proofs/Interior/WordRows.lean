import TemplateMarkup.Proofs.Interior.Words
import TemplateMarkup.Proofs.Text.OpenQuote

/-! # Rows of words

A text with complete quotes is a row of words with gaps around and between
them. Its words are what a tag reads from it, wherever the tag begins.
-/

namespace TemplateMarkup

open Grammar Recogniser Text

namespace Text

/-- Whether a text consists of the given words, with gaps between them and possibly behind the
last one. -/
inductive Spaced : List Char → List (List Char) → Prop
  | nil : Spaced [] []
  | cons {w g s : List Char} {ws : List (List Char)} (word : Word w)
      (gaps : ∀ c ∈ g, isGap c = true) (apart : g = [] → s = []) (rest : Spaced s ws) :
      Spaced (w ++ (g ++ s)) (w :: ws)

theorem Spaced.head_not_gap {s : List Char} {ws : List (List Char)} (h : Spaced s ws) :
    s.head?.any isGap = false := by
  cases h with
  | nil => rfl
  | cons word _ _ _ => exact word.head_not_gap _

theorem Spaced.word {s : List Char} {ws : List (List Char)} (h : Spaced s ws) :
    ∀ w ∈ ws, Word w := by
  induction h with
  | nil => exact List.forall_mem_nil _
  | cons word _ _ _ ih => exact List.forall_mem_cons.mpr ⟨word, ih⟩

theorem Spaced.isInfix {s : List Char} {ws : List (List Char)} (h : Spaced s ws) :
    ∀ w ∈ ws, w <:+: s := by
  induction h with
  | nil => exact List.forall_mem_nil _
  | @cons w g s ws _ _ _ _ ih =>
      have hrest : s <:+: w ++ (g ++ s) := ⟨w ++ g, [], by simp⟩
      rw [List.forall_mem_cons]
      exact ⟨(List.prefix_append w (g ++ s)).isInfix, fun v hv => (ih v hv).trans hrest⟩

/-- Words with a space behind each of them. -/
theorem spaced_flatMap {w : List Char} {ws : List (List Char)} (hw : Word w)
    (hws : ∀ v ∈ ws, Word v) : Spaced (w ++ ((ws.flatMap fun v => ' ' :: v) ++ [' '])) (w :: ws) := by
  have hspace : ∀ c ∈ [' '], isGap c = true := List.forall_mem_singleton.mpr rfl
  have hne : [' '] ≠ [] := List.cons_ne_nil _ _
  induction ws generalizing w with
  | nil => simpa using Spaced.cons hw hspace (fun h => absurd h hne) .nil
  | cons v ws ih =>
      obtain ⟨hv, hws⟩ := List.forall_mem_cons.mp hws
      simpa using Spaced.cons hw hspace (fun h => absurd h hne) (ih hv hws)

theorem Spaced.eq_nil_iff {s : List Char} {ws : List (List Char)} (h : Spaced s ws) :
    s = [] ↔ ws = [] := by
  cases h with
  | nil => simp
  | cons word _ _ _ => simp [word.ne_nil]

/-- The only word of a text has gaps behind it. -/
theorem Spaced.singleton {s w : List Char} (h : Spaced s [w]) :
    ∃ g, s = w ++ g ∧ ∀ c ∈ g, isGap c = true := by
  cases h with
  | cons _ gaps _ rest =>
      obtain rfl := rest.eq_nil_iff.mpr rfl
      exact ⟨_, by rw [List.append_nil], gaps⟩

/-- A word does not end with a gap: its last character is none, or the mark that closes a
quote. -/
theorem Word.last_not_gap {w : List Char} (h : Word w) : w.getLast?.any isGap = false := by
  have hfluent : Fluent isWordChar w := fluent_isWordChar_iff.mpr ⟨h.closed, h.solid⟩
  clear h
  induction hfluent with
  | nil => rfl
  | @quoted u s hquoted _ ih => exact getLast?_append_any_of hquoted.last_not_gap ih
  | @char c s _ hchar _ ih =>
      have hsplit : (isGap c || isMark c) = false := by simpa [isWordChar] using hchar
      exact getLast?_append_any_of (s := [c]) (Bool.or_eq_false_iff.mp hsplit).1 ih

/-- What stands before the gaps at the end of a text is determined by the text. -/
theorem eq_of_append_gaps {s t g h : List Char} (hs : s.getLast?.any isGap = false)
    (ht : t.getLast?.any isGap = false) (hg : ∀ c ∈ g, isGap c = true)
    (hh : ∀ c ∈ h, isGap c = true) (heq : s ++ g = t ++ h) : s = t ∧ g = h := by
  have hnil : ∀ {u w : List Char}, (u ++ w).getLast?.any isGap = false →
      (∀ c ∈ w, isGap c = true) → w = [] := by
    intro u w hlast hw
    rcases List.eq_nil_or_concat w with rfl | ⟨v, c, rfl⟩
    · rfl
    · rw [List.concat_eq_append] at hlast hw
      rw [← List.append_assoc, List.getLast?_concat, Option.any_some,
        hw c (List.mem_append_right v (List.mem_cons_self ..))] at hlast
      cases hlast
  rcases List.append_eq_append_iff.mp heq with ⟨w, rfl, rfl⟩ | ⟨w, rfl, rfl⟩
  · obtain rfl := hnil ht fun c hc => hg c (List.mem_append_left h hc)
    exact ⟨(List.append_nil s).symm, rfl⟩
  · obtain rfl := hnil hs fun c hc => hh c (List.mem_append_left g hc)
    exact ⟨List.append_nil t, rfl⟩

theorem word_of_fluent {v : List Char} (h : Fluent isWordChar v) (hne : v ≠ []) : Word v :=
  ⟨hne, (fluent_isWordChar_iff.mp h).1, (fluent_isWordChar_iff.mp h).2⟩

/-- A text with complete quotes is a row of word characters, then gaps, and then the rest. -/
theorem exists_word_split {w : List Char} (h : Closed w) :
    ∃ v g s, w = v ++ (g ++ s) ∧ Fluent isWordChar v ∧ (∀ c ∈ g, isGap c = true) ∧ Closed s ∧
      s.head?.any isGap = false ∧ (g = [] → s = []) := by
  obtain ⟨v, r, rfl, hv, hr, hhead⟩ := h.exists_fluent isWordChar
  have hgap : ∀ c ∈ r.head?, isGap c = true := by
    intro c hc
    simpa [isWordChar, (hhead c hc).1] using (hhead c hc).2
  obtain ⟨g, s, rfl, hg, hs⟩ := exists_front isGap r
  refine ⟨v, g, s, rfl, hv, hg, (closed_of_gaps hg).append_iff.mp hr, hs, ?_⟩
  rintro rfl
  cases s with
  | nil => rfl
  | cons c s =>
      rw [List.nil_append] at hgap
      simp [hgap c rfl] at hs

/-- What stands before the first gap is a word, unless the text begins with a gap or is empty. -/
theorem ne_nil_of_word_split {v g s : List Char} (hne : v ++ (g ++ s) ≠ [])
    (hhead : (v ++ (g ++ s)).head?.any isGap = false) (hg : ∀ c ∈ g, isGap c = true)
    (hgs : g = [] → s = []) : v ≠ [] := by
  rintro rfl
  cases g with
  | nil => exact hne (hgs rfl)
  | cons c g => simp [hg c (List.mem_cons_self ..)] at hhead

/-- A text with complete quotes that does not begin with a gap is a row of words. -/
theorem exists_spaced_of_closed {w : List Char} (hw : Closed w)
    (hhead : w.head?.any isGap = false) : ∃ ws, Spaced w ws := by
  induction hn : w.length using Nat.strongRecOn generalizing w with
  | ind n ih =>
      by_cases hne : w = []
      · exact ⟨[], hne ▸ .nil⟩
      obtain ⟨v, g, s, rfl, hv, hg, hs, hshead, hgs⟩ := exists_word_split hw
      have hvne := ne_nil_of_word_split hne hhead hg hgs
      have hlength := List.length_pos_iff.mpr hvne
      simp only [List.length_append] at hn
      obtain ⟨ws, hws⟩ := ih s.length (by omega) hs hshead rfl
      exact ⟨v :: ws, .cons (word_of_fluent hv hvne) hg hgs hws⟩

end Text

namespace Grammar

variable {ts us : List (ParseTree Rule)}

/-- The words of a tag from the first one on. -/
def wordRow : Recogniser Rule := inOrder [tagWord, many nextWord]

theorem wordRow_of_tagWord {s mid rest : List Char} (hword : tagWord s = some (ts, mid))
    (hnext : many nextWord mid = some (us, rest)) : wordRow s = some (ts ++ us, rest) := by
  rw [wordRow, inOrder_of_some hword, inOrder_singleton, hnext]
  rfl

theorem many_nextWord_gaps {g : List Char} (hg : ∀ c ∈ g, isGap c = true) :
    many nextWord g = some ([], g) := by
  apply many_of_none
  cases g with
  | nil => rfl
  | cons c g =>
      have hgaps := many1_gap_append (t := []) hg (List.cons_ne_nil c g) rfl
      rw [List.append_nil] at hgaps
      rw [nextWord, inOrder_of_some hgaps]
      rfl

theorem many_nextWord_append {g s rest : List Char} (hg : ∀ c ∈ g, isGap c = true) (hne : g ≠ [])
    (hhead : s.head?.any isGap = false) (h : wordRow s = some (ts, rest)) :
    many nextWord (g ++ s) = some (g.map .char ++ ts, rest) := by
  obtain ⟨us, mid, vs, hword, hnext, rfl⟩ := followedBy_eq_some_iff.mp h
  rw [inOrder_singleton] at hnext
  have hread : nextWord (g ++ s) = some (g.map .char ++ us, mid) := by
    rw [nextWord, inOrder_of_some (many1_gap_append hg hne hhead), inOrder_singleton, hword]
    rfl
  rw [many_of_some progressive_nextWord hread, hnext]
  simp

theorem parts?_tagInterior_gaps {g : List Char} (hg : ∀ c ∈ g, isGap c = true) :
    parts? tagInterior g = some (g.map .char ++ [.node .endOfText []]) := by
  have hgaps : gaps g = some (g.map .char, []) := by
    simpa using gaps_append (t := []) hg rfl
  have hread : tagInterior g =
      some ([.node .tagInterior (g.map .char ++ [.node .endOfText []])], []) := by
    rw [tagInterior_eq]
    apply node_of_some
    rw [inOrder_of_some hgaps]
    rfl
  rw [parts?, hread]
  simp [ParseTree.children]

/-- An interior is read to its end once its words are. -/
theorem parts?_tagInterior {g s last : List Char} (hg : ∀ c ∈ g, isGap c = true)
    (hhead : s.head?.any isGap = false) (h : wordRow s = some (ts, last))
    (hlast : ∀ c ∈ last, isGap c = true) :
    parts? tagInterior (g ++ s) =
      some (g.map .char ++ ts ++ (last.map .char ++ [.node .endOfText []])) := by
  have hend : gaps last = some (last.map .char, []) := by
    simpa using gaps_append (t := []) hlast rfl
  have hread : tagInterior (g ++ s) = some ([.node .tagInterior
      (g.map .char ++ ts ++ (last.map .char ++ [.node .endOfText []]))], []) := by
    rw [tagInterior_eq]
    apply node_of_some
    have hwords : maybe (inOrder [tagWord, many nextWord]) s = some (ts, last) := maybe_of_some h
    rw [inOrder_of_some (gaps_append hg hhead), inOrder_of_some hwords, inOrder_of_some hend,
      inOrder_singleton]
    simp [endNode]
  rw [parts?, hread]
  simp [ParseTree.children]

theorem tagWord_fluent {v r : List Char} (hv : Fluent isWordChar v) (hne : v ≠ [])
    (hr : ∀ c ∈ r.head?, isGap c = true) : tagWord (v ++ r) = some ([wordTree v], r) := by
  have hmark : r.head?.any isMark = false :=
    (Option.any_eq_false _ _).mpr fun c hc => isMark_of_isGap (hr c hc)
  have hplain : r.head?.any isWordChar = false :=
    (Option.any_eq_false _ _).mpr fun c hc => by simp [isWordChar, hr c hc]
  have hmany : many (lexer isWordChar) (v ++ r) = some (v.map .char, r) :=
    many_lexer_append hv hmark hplain
  rw [tagWord_eq]
  exact node_of_some (many1_of_many (progressive_lexer _) hmany (by simpa using hne))

theorem head_gap_of_apart {g s : List Char} (hg : ∀ c ∈ g, isGap c = true)
    (hgs : g = [] → s = []) : ∀ c ∈ (g ++ s).head?, isGap c = true := by
  cases g with
  | nil => simp [hgs rfl]
  | cons c g => simpa using hg c (List.mem_cons_self ..)

/-- Words are read one by one up to the gaps behind the last of them. -/
theorem exists_wordRow_of_spaced {s : List Char} {w : List Char} {ws : List (List Char)}
    (h : Spaced s (w :: ws)) : ∃ ts last, wordRow s = some (ts, last) ∧
      (∀ c ∈ last, isGap c = true) ∧
        ts.filter (ParseTree.isNode .tagWord) = (w :: ws).map wordTree := by
  induction ws generalizing s w with
  | nil =>
      obtain ⟨g, rfl, hg⟩ := h.singleton
      have hword := h.word w (List.mem_singleton.mpr rfl)
      have hread := tagWord_fluent (r := g)
        (fluent_isWordChar_iff.mpr ⟨hword.closed, hword.solid⟩) hword.ne_nil
        (fun c hc => hg c (List.mem_of_mem_head? hc))
      exact ⟨_, g, wordRow_of_tagWord hread (many_nextWord_gaps hg), hg, rfl⟩
  | cons v ws ih =>
      cases h with
      | @cons _ g s _ word gaps apart rest =>
          obtain ⟨ts, last, hrow, hlast, hts⟩ := ih rest
          have hgne : g ≠ [] := fun hnil =>
            List.cons_ne_nil v ws (rest.eq_nil_iff.mp (apart hnil))
          have hread := tagWord_fluent (fluent_isWordChar_iff.mpr ⟨word.closed, word.solid⟩)
            word.ne_nil (head_gap_of_apart gaps apart)
          refine ⟨_, last, wordRow_of_tagWord hread
            (many_nextWord_append gaps hgne rest.head_not_gap hrow), hlast, ?_⟩
          rw [List.filter_append, List.filter_append, filter_map_char, hts]
          rfl

/-- An interior that consists of gaps and then of words is read word by word. -/
theorem exists_parts?_of_spaced {g s : List Char} {ws : List (List Char)}
    (hg : ∀ c ∈ g, isGap c = true) (h : Spaced s ws) :
    ∃ ts, parts? tagInterior (g ++ s) = some ts ∧
      ts.filter (ParseTree.isNode .tagWord) = ws.map wordTree := by
  cases ws with
  | nil =>
      obtain rfl := h.eq_nil_iff.mpr rfl
      rw [List.append_nil]
      refine ⟨_, parts?_tagInterior_gaps hg, ?_⟩
      rw [List.filter_append, filter_map_char]
      rfl
  | cons w ws =>
      obtain ⟨ts, last, hrow, hlast, hts⟩ := exists_wordRow_of_spaced h
      refine ⟨_, parts?_tagInterior hg h.head_not_gap hrow hlast, ?_⟩
      have hend : [ParseTree.node Rule.endOfText []].filter (ParseTree.isNode .tagWord) = [] := rfl
      simp only [List.filter_append, filter_map_char, hts, hend, List.nil_append, List.append_nil]

end Grammar

/-- The words of an interior that consists of gaps and then of words are read from it. -/
theorem tagWords_of_spaced {g s : List Char} {ws : List (List Char)}
    (hg : ∀ c ∈ g, isGap c = true) (h : Spaced s ws) (offset : Nat) :
    tagWords (g ++ s) offset = .ok ws := by
  obtain ⟨ts, hparts, hts⟩ := exists_parts?_of_spaced hg h
  rw [tagWords_eq_ok_iff hparts, hts]
  refine ⟨fun t ht => ?_, ?_⟩
  · obtain ⟨v, _, rfl⟩ := List.mem_map.mp ht
    exact unbroken_map_char v
  · rw [List.map_map]
    exact (List.map_id' _).symm.trans (List.map_congr_left fun v _ => (text_wordTree v).symm)

end TemplateMarkup
