import TemplateMarkup.Grammar.Construct
import TemplateMarkup.Proofs.Grammar.Reading
import TemplateMarkup.Proofs.Source.Piece

/-! # The tree of a piece

The grammar of a source reads exactly the pieces of the source, each as one
tree, and then stands at the end. The order of its alternatives does not
matter, as the opener decides which of them can match.
-/

namespace TemplateMarkup

open Grammar Recogniser

namespace Piece

def unterminatedRule : Delimiter → Rule
  | .tag => .unterminatedTag
  | .var => .unterminatedVar
  | .comment => .unterminatedComment

/-- The mark right after the opener of a variable has a node of its own. -/
def varParts : List Char → List (ParseTree Rule)
  | '!' :: inner => [.node .escapeMarker [.char '!'], .node .varBody (inner.map .char)]
  | inner => [.node .varBody (inner.map .char)]

/-- What stands between the delimiters of a construct, as trees. -/
def innerTrees : Delimiter → List Char → List (ParseTree Rule)
  | .tag, inner => [.node .tagBody (inner.map .char)]
  | .var, inner => varParts inner
  | .comment, inner => inner.map .char

def closedRule : Delimiter → Rule
  | .tag => .tag
  | .var => .var
  | .comment => .comment

/-- The tree of a piece in the grammar of a source. -/
def tree : Piece → ParseTree Rule
  | text s => .node .text (s.map .char)
  | closed d inner =>
      .node (closedRule d)
        (d.opener.map .char ++ (innerTrees d inner ++ d.closer.map .char))
  | unterminated d rest => .node (unterminatedRule d) ((d.opener ++ rest).map .char)

theorem varParts_of_ne {inner : List Char} (h : ∀ t, inner ≠ '!' :: t) :
    varParts inner = [.node .varBody (inner.map .char)] := by
  unfold varParts
  split
  · rename_i t
    exact absurd rfl (h t)
  · rfl

theorem textAll_varParts (inner : List Char) : ParseTree.textAll (varParts inner) = inner := by
  unfold varParts
  split <;> simp [ParseTree.textAll, ParseTree.text]

/-- The tree of a piece holds what the piece is written as. -/
@[simp] theorem text_tree (p : Piece) : p.tree.text = p.written := by
  cases p with
  | text s => simp [tree, ParseTree.text, written]
  | closed d inner =>
      cases d <;>
        simp [tree, ParseTree.text, written, innerTrees, textAll_varParts, ParseTree.textAll]
  | unterminated d rest => simp [tree, ParseTree.text, written]

theorem textAll_map_tree (ps : List Piece) :
    ParseTree.textAll (ps.map tree) = writtenAll ps := by
  induction ps with
  | nil => rfl
  | cons p ps ih => simp [ParseTree.textAll, ih]

end Piece

namespace Grammar

open Piece

theorem upToCloser_eq (d : Delimiter) (s : List Char) :
    upToCloser d s =
      some ((Text.cutBefore d.closer.isPrefixOf s).1.map .char,
        (Text.cutBefore d.closer.isPrefixOf s).2) := by
  have h : (fun s => (literal (ρ := Rule) d.closer s).isSome) = d.closer.isPrefixOf := by
    funext s
    exact isSome_literal d.closer s
  rw [upToCloser, many_charBut, h]

/-- The recogniser of what stands between the delimiters of a family. -/
def inside : Delimiter → List (Recogniser Rule)
  | .tag => [tagBody]
  | .var => [maybe escapeMarker, varBody]
  | .comment => [upToCloser .comment]

/-- The recogniser of the closed constructs of a family. -/
def construct : Delimiter → Recogniser Rule
  | .tag => tag
  | .var => var
  | .comment => comment

theorem construct_eq (d : Delimiter) : construct d =
    node (closedRule d) (inOrder (literal d.opener :: (inside d ++ [literal d.closer]))) := by
  cases d <;> rfl

theorem maybe_escapeMarker_of_ne {s : List Char} (h : ∀ t, s ≠ '!' :: t) :
    maybe escapeMarker s = some ([], s) := by
  have hnone : escapeMarker s = none := by
    refine node_of_none (literal_eq_none_iff.mpr ?_)
    rintro ⟨t, rfl⟩
    exact h t rfl
  exact orElse_of_none hnone

theorem proper_of_marked {inner : List Char} (h : (closed .var ('!' :: inner)).Proper) :
    (closed .var inner).Proper :=
  fun u v huv => h ('!' :: u) v (by rw [List.cons_append, huv]; rfl)

/-- Between the delimiters everything up to the first closer is read. -/
theorem inOrder_inside (d : Delimiter) (p : Recogniser Rule) (s : List Char) :
    inOrder (inside d ++ [p]) s =
      (p (Text.cutBefore d.closer.isPrefixOf s).2).map fun found =>
        (innerTrees d (Text.cutBefore d.closer.isPrefixOf s).1 ++ found.1, found.2) := by
  cases d with
  | tag =>
      have hbody : tagBody s = _ := node_of_some (upToCloser_eq .tag s)
      rw [inside, List.singleton_append, inOrder_of_some hbody, inOrder_singleton]
      rfl
  | comment =>
      rw [inside, List.singleton_append, inOrder_of_some (upToCloser_eq .comment s),
        inOrder_singleton]
      rfl
  | var =>
      have hbody : ∀ t, varBody t = _ := fun t => node_of_some (upToCloser_eq .var t)
      by_cases hmark : ∃ t, s = '!' :: t
      · obtain ⟨t, rfl⟩ := hmark
        have hread : maybe escapeMarker ('!' :: t) =
            some ([.node .escapeMarker [.char '!']], t) := rfl
        have hcut : Text.cutBefore Delimiter.var.closer.isPrefixOf ('!' :: t) =
            ('!' :: (Text.cutBefore Delimiter.var.closer.isPrefixOf t).1,
              (Text.cutBefore Delimiter.var.closer.isPrefixOf t).2) := rfl
        rw [inside, List.cons_append, inOrder_of_some hread, List.singleton_append,
          inOrder_of_some (hbody t), inOrder_singleton, Option.map_map, hcut]
        rfl
      · have hne : ∀ t, (Text.cutBefore Delimiter.var.closer.isPrefixOf s).1 ≠ '!' :: t := by
          intro t ht
          have happend := Text.cutBefore_append Delimiter.var.closer.isPrefixOf s
          rw [ht] at happend
          exact hmark ⟨_, happend.symm⟩
        rw [inside, List.cons_append,
          inOrder_of_some (maybe_escapeMarker_of_ne fun t ht => hmark ⟨t, ht⟩),
          List.singleton_append, inOrder_of_some (hbody s), inOrder_singleton, Option.map_map,
          innerTrees, varParts_of_ne hne]
        rfl

theorem construct_closed {d : Delimiter} {inner : List Char} (h : (closed d inner).Proper)
    (rest : List Char) :
    construct d ((closed d inner).written ++ rest) = some ([(closed d inner).tree], rest) := by
  rw [construct_eq]
  apply node_of_some
  rw [written, List.append_assoc, List.append_assoc, inOrder_of_some (literal_append _ _),
    inOrder_inside, cutBefore_closed h, literal_append]
  rfl

theorem construct_unterminated {d : Delimiter} {rest : List Char}
    (h : (Piece.unterminated d rest).Proper) : construct d (d.opener ++ rest) = none := by
  rw [construct_eq]
  apply node_of_none
  rw [inOrder_of_some (literal_append _ _), inOrder_inside, cutBefore_unterminated h]
  cases d <;> rfl

/-- A construct of one family never begins with the opener of another. -/
theorem construct_of_ne {d : Delimiter} {s : List Char} (h : Delimiter.ofOpener? s ≠ some d) :
    construct d s = none := by
  rw [construct_eq]
  refine node_of_none (inOrder_of_none (literal_eq_none_iff.mpr ?_))
  rwa [← Delimiter.ofOpener?_eq_some_iff]

/-- The recogniser of an opener of a family with all that follows it. -/
def unclosed (d : Delimiter) : Recogniser Rule :=
  Grammar.unterminated (unterminatedRule d) d

theorem unclosed_append (d : Delimiter) (rest : List Char) :
    unclosed d (d.opener ++ rest) = some ([(Piece.unterminated d rest).tree], []) := by
  apply node_of_some
  rw [inOrder_of_some (literal_append _ _), inOrder_singleton, many_anyChar]
  simp

theorem unclosed_of_ne {d : Delimiter} {s : List Char}
    (h : Delimiter.ofOpener? s ≠ some d) : unclosed d s = none := by
  refine node_of_none (inOrder_of_none (literal_eq_none_iff.mpr ?_))
  rwa [← Delimiter.ofOpener?_eq_some_iff]

theorem opener_eq_none_iff {s : List Char} :
    opener s = none ↔ Delimiter.ofOpener? s = none := by
  rw [opener, firstOf_eq_none_iff, Option.eq_none_iff_forall_ne_some]
  simp only [List.mem_cons, List.not_mem_nil, or_false, forall_eq_or_imp, forall_eq,
    literal_eq_none_iff, ← Delimiter.ofOpener?_eq_some_iff, ne_eq]
  constructor
  · rintro ⟨htag, hvar, hcomment⟩ d
    cases d <;> assumption
  · intro h
    exact ⟨h .tag, h .var, h .comment⟩

theorem isSome_opener (s : List Char) :
    (opener s).isSome = (Delimiter.ofOpener? s).isSome := by
  rw [← Bool.not_inj_iff, Option.not_isSome, Option.not_isSome, Bool.eq_iff_iff,
    Option.isNone_iff_eq_none, Option.isNone_iff_eq_none, opener_eq_none_iff]

theorem text_append {s rest : List Char} (h : (Piece.text s).Proper)
    (hrest : (Piece.text s).Before rest) :
    text (s ++ rest) = some ([(Piece.text s).tree], rest) := by
  apply node_of_some
  cases s with
  | nil => exact absurd rfl h.1
  | cons c s =>
      have hcut := cutBefore_text h hrest
      rw [List.cons_append, Text.cutBefore] at hcut
      split at hcut
      · cases (Prod.mk.inj hcut).1
      · rename_i hopen
        have hnone : opener (c :: (s ++ rest)) = none := by
          rw [opener_eq_none_iff]
          simpa using hopen
        obtain ⟨hfst, hsnd⟩ := Prod.mk.inj hcut
        rw [many1, List.cons_append, followedBy_of_some (charBut_cons_of_none hnone), many_charBut]
        simp only [isSome_opener, (List.cons.inj hfst).2, hsnd]
        rfl

/-- One piece of a source. -/
def piece : Recogniser Rule :=
  firstOf [construct .comment, construct .var, construct .tag,
    Grammar.unterminated .unterminatedComment .comment,
    Grammar.unterminated .unterminatedVar .var, Grammar.unterminated .unterminatedTag .tag, text]

theorem template_eq :
    template = node .template (inOrder [many piece, endNode .endOfText]) := rfl

@[simp] theorem piece_nil : piece [] = none := rfl

/-- The families in the order in which their constructs are tried. -/
def families : List Delimiter := [.comment, .var, .tag]

theorem mem_families (d : Delimiter) : d ∈ families := by
  cases d <;> decide

/-- A piece is a construct that is closed, else an opener without its closer, else text. -/
theorem piece_eq :
    piece = firstOf (families.map construct ++ (families.map unclosed ++ [text])) := rfl

theorem firstOf_families_of_none {f : Delimiter → Recogniser Rule} {s : List Char}
    (h : ∀ d, f d s = none) : firstOf (families.map f) s = none := by
  rw [firstOf_eq_none_iff, List.forall_mem_map]
  exact fun d _ => h d

/-- The grammar reads a piece from what the piece is written as. -/
theorem piece_written_append {p : Piece} {rest : List Char} (hp : p.Proper)
    (hrest : p.Before rest) : piece (p.written ++ rest) = some ([p.tree], rest) := by
  rw [piece_eq, firstOf_append]
  cases p with
  | text s =>
      have hne : ∀ d, Delimiter.ofOpener? (s ++ rest) ≠ some d := by
        simp [ofOpener?_text hp hrest]
      rw [written, orElse_of_none (firstOf_families_of_none fun d => construct_of_ne (hne d)),
        firstOf_append,
        orElse_of_none (firstOf_families_of_none fun d => unclosed_of_ne (hne d))]
      exact firstOf_of_some (text_append hp hrest)
  | closed d inner =>
      refine orElse_of_some (firstOf_map_of_only (mem_families d) (construct_closed hp rest) ?_)
      intro e he
      apply construct_of_ne
      simpa [written, Delimiter.ofOpener?_opener_append] using Ne.symm he
  | unterminated d tail =>
      obtain rfl : rest = [] := hrest
      have hopener : ∀ e, e ≠ d → Delimiter.ofOpener? (d.opener ++ tail) ≠ some e := by
        intro e he
        simpa [Delimiter.ofOpener?_opener_append] using Ne.symm he
      have hclosed : ∀ e, construct e (d.opener ++ tail) = none := by
        intro e
        by_cases he : e = d
        · subst he
          exact construct_unterminated hp
        · exact construct_of_ne (hopener e he)
      rw [written, List.append_nil, orElse_of_none (firstOf_families_of_none hclosed),
        firstOf_append]
      exact orElse_of_some (firstOf_map_of_only (mem_families d) (unclosed_append _ _)
        fun e he => unclosed_of_ne (hopener e he))

theorem lossless_inside (d : Delimiter) : Lossless (inOrder (inside d ++ [literal d.closer])) := by
  have hbody : Lossless (upToCloser d) := (lossless_charBut _).many
  apply lossless_inOrder
  intro p hp
  cases d with
  | tag =>
      simp only [inside, List.mem_append, List.mem_singleton] at hp
      rcases hp with rfl | rfl
      · exact hbody.node _
      · exact lossless_literal _
  | comment =>
      simp only [inside, List.mem_append, List.mem_singleton] at hp
      rcases hp with rfl | rfl
      · exact hbody
      · exact lossless_literal _
  | var =>
      simp only [inside, List.mem_append, List.mem_cons, List.not_mem_nil, or_false] at hp
      rcases hp with (rfl | rfl) | rfl
      · exact ((lossless_literal _).node _).maybe
      · exact hbody.node _
      · exact lossless_literal _

theorem progressive_opener_inOrder (d : Delimiter) {ps : List (Recogniser Rule)}
    (h : Lossless (inOrder ps)) : Progressive (inOrder (literal d.opener :: ps)) :=
  (progressive_literal (by cases d <;> exact List.cons_ne_nil _ _)).followedBy h

theorem progressive_construct (d : Delimiter) : Progressive (construct d) := by
  rw [construct_eq]
  exact (progressive_opener_inOrder d (lossless_inside d)).node _

theorem progressive_unclosed (d : Delimiter) : Progressive (unclosed d) := by
  refine (progressive_opener_inOrder d (lossless_inOrder fun p hp => ?_)).node _
  obtain rfl := List.mem_singleton.mp hp
  exact (lossless_charIn _).many

theorem progressive_piece : Progressive piece := by
  rw [piece_eq]
  apply progressive_firstOf
  intro p hp
  rcases List.mem_append.mp hp with hp | hp
  · obtain ⟨d, _, rfl⟩ := List.mem_map.mp hp
    exact progressive_construct d
  · rcases List.mem_append.mp hp with hp | hp
    · obtain ⟨d, _, rfl⟩ := List.mem_map.mp hp
      exact progressive_unclosed d
    · obtain rfl := List.mem_singleton.mp hp
      exact ((progressive_charBut _).many1 (lossless_charBut _)).node _

theorem many_piece (s : List Char) : many piece s = some ((pieces s).map tree, []) := by
  induction s using pieces_induction with
  | nil => exact many_of_none piece_nil
  | cons p rest hp hrest ih =>
      rw [many_of_some progressive_piece (piece_written_append hp hrest), ih]
      rfl

/-- The grammar matches every source, as the row of its pieces. -/
theorem template_eq_some (s : List Char) :
    template s = some ([.node .template ((pieces s).map tree ++ [.node .endOfText []])], []) := by
  rw [template_eq]
  apply node_of_some
  rw [inOrder_of_some (many_piece s)]
  rfl

end Grammar

end TemplateMarkup
