import TemplateMarkup.Proofs.Interior.Gaps
import TemplateMarkup.Proofs.Interior.Lexeme

/-! # Words of a tag

A word is a text that is not empty, whose quotes all close and which holds no
gap outside quotes. The interior of a tag is read word by word, with gaps
around and between the words.
-/

namespace TemplateMarkup

open Grammar Recogniser Text

namespace Text

/-- Whether a text is a single word with complete quotes. -/
structure Word (w : List Char) : Prop where
  ne_nil : w ≠ []
  closed : Closed w
  solid : ∀ c ∈ bare w, isGap c = false

/-- The characters of a word outside quotes. -/
def isWordChar (c : Char) : Bool :=
  !(isGap c || isMark c)

theorem fluent_isWordChar_iff {w : List Char} :
    Fluent isWordChar w ↔ Closed w ∧ ∀ c ∈ bare w, isGap c = false := by
  rw [fluent_iff]
  refine and_congr_right fun _ => forall₂_congr fun c hc => ?_
  simp [isWordChar, isMark_of_mem_bare hc]

theorem Word.head_not_gap {w : List Char} (h : Word w) (rest : List Char) :
    (w ++ rest).head?.any isGap = false := by
  apply head_not_gap_append h.ne_nil
  cases w with
  | nil => rfl
  | cons c w =>
      cases hmark : isMark c with
      | false => exact h.solid c (by rw [bare_cons hmark]; exact List.mem_cons_self ..)
      | true => exact not_gap_of_isMark hmark

end Text

namespace Grammar

theorem tagWord_eq : tagWord = node .tagWord (many1 (lexer isWordChar)) := by
  have htests : Tests (firstOf [gap, quote]) fun c => isGap c || (isMark c || false) :=
    tests_gap.orElse (tests_quote.orElse tests_never)
  simp only [tagWord, htests.charBut_eq, Bool.or_false]
  rfl

/-- The tree of a word. -/
def wordTree (w : List Char) : ParseTree Rule :=
  .node .tagWord (w.map .char)

@[simp] theorem text_wordTree (w : List Char) : (wordTree w).text = w := by
  simp [wordTree, ParseTree.text]

/-- A gap and a word. -/
def nextWord : Recogniser Rule := inOrder [many1 gap, tagWord]

theorem lossless_tagWord : Lossless tagWord := by
  rw [tagWord_eq]
  exact ((lossless_lexer _).many1).node _

theorem lossless_nextWord : Lossless nextWord := by
  apply lossless_inOrder
  simp only [List.forall_mem_cons]
  exact ⟨lossless_gap.many1, lossless_tagWord, List.forall_mem_nil _⟩

theorem progressive_nextWord : Progressive nextWord := by
  apply (progressive_gap.many1 lossless_gap).inOrder
  simp only [List.forall_mem_cons]
  exact ⟨lossless_tagWord, List.forall_mem_nil _⟩

theorem tagInterior_eq : tagInterior = node .tagInterior
    (inOrder [gaps, maybe (inOrder [tagWord, many nextWord]), gaps, endNode .endOfText]) := rfl

theorem exhausts_tagInterior : Exhausts tagInterior :=
  (exhausts_endNode _).followedBy.followedBy.followedBy.node _

theorem lossless_tagInterior : Lossless tagInterior := by
  have hwords : Lossless (inOrder [tagWord, many nextWord]) := by
    apply lossless_inOrder
    simp only [List.forall_mem_cons]
    exact ⟨lossless_tagWord, lossless_nextWord.many, List.forall_mem_nil _⟩
  refine (lossless_inOrder ?_).node _
  simp only [List.forall_mem_cons]
  exact ⟨lossless_gaps, hwords.maybe, lossless_gaps, lossless_endNode _, List.forall_mem_nil _⟩

end Grammar

end TemplateMarkup
