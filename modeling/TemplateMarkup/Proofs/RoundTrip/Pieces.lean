import TemplateMarkup.Proofs.Forest.Reading
import TemplateMarkup.Proofs.Forest.Sequences
import TemplateMarkup.Proofs.Interior.Variables
import TemplateMarkup.Proofs.Interior.OpenQuotes
import TemplateMarkup.Proofs.Source.Segments

/-! # Items as pieces of a source

An item is written as one piece of a source. When its lexemes are proper ones
the piece is proper, and the item is read back from it. A row of such items is
read back from the text it is written as, provided that no text meets another
text or an opener that would begin with its last character.
-/

namespace TemplateMarkup

open Text Outcome

namespace Piece

/-- A construct whose interior ends with a space holds its closer only at its end. -/
theorem proper_closed_of_closer_free {d : Delimiter} {inner : List Char}
    (h : ¬ d.closer <:+: inner) : (closed d (inner ++ [' '])).Proper := by
  have hne : d.closer ≠ [] := by cases d <;> exact List.cons_ne_nil _ _
  have hspace : ' ' ∉ d.closer := by cases d <;> decide
  exact proper_closed (not_infix_concat hne hspace h) fun _ => by simp

end Piece

/-- What a tag is written as between its delimiters. -/
def wordsInterior (words : List (List Char)) : List Char :=
  (words.flatMap fun word => ' ' :: word) ++ [' ']

theorem displayWords_eq (words : List (List Char)) :
    displayWords words = (Piece.closed .tag (wordsInterior words)).written := by
  simp [displayWords, Piece.written, wordsInterior]

namespace Item

/-- The piece of a source that an item is written as. -/
def piece : Item → Piece
  | text s => .text s
  | var v => .closed .var ((if v.escape then ['!'] else []) ++ v.interior)
  | inline name args => .closed .tag (wordsInterior (name :: args))
  | opening name args => .closed .tag (wordsInterior (name :: args))
  | closing name => .closed .tag (wordsInterior [closerName name])

/-- Whether a text can stand as a word of a tag. -/
def CleanWord (w : List Char) : Prop :=
  Word w ∧ ¬ Delimiter.tag.closer <:+: w

/-- Whether an item can be read back: a text is not empty and holds no opener, a variable has
proper names and arguments, a tag proper words, and no tag is registered under the name of a
closing tag that is used. -/
def Clean (registry : Registry) : Item → Prop
  | text s => s ≠ [] ∧ ∀ d : Delimiter, ¬ d.opener <:+: s
  | var v => v.Clean
  | inline name args => ∀ w ∈ name :: args, CleanWord w
  | opening name args => ∀ w ∈ name :: args, CleanWord w
  | closing name => CleanWord name ∧ registry.get? (closerName name) = none

theorem CleanWord.closerName {name : List Char} (h : CleanWord name) :
    CleanWord (closerName name) := by
  obtain ⟨⟨_, hclosed, hsolid⟩, hfree⟩ := h
  refine ⟨⟨List.cons_ne_nil _ _, ?_, ?_⟩, ?_⟩
  · rw [TemplateMarkup.closerName, closed_cons_iff rfl, closed_cons_iff rfl, closed_cons_iff rfl]
    exact hclosed
  · rw [TemplateMarkup.closerName, bare_cons rfl, bare_cons rfl, bare_cons rfl]
    simp only [List.forall_mem_cons]
    exact ⟨rfl, rfl, rfl, hsolid⟩
  · have hne : Delimiter.tag.closer ≠ [] := List.cons_ne_nil _ _
    exact not_infix_cons hne (by decide) (not_infix_cons hne (by decide)
      (not_infix_cons hne (by decide) hfree))

theorem proper_words {words : List (List Char)} (h : ∀ w ∈ words, CleanWord w) :
    (Piece.closed .tag (wordsInterior words)).Proper := by
  apply Piece.proper_closed_of_closer_free
  rw [← List.nil_append (words.flatMap _)]
  exact not_infix_append_flatMap (by decide) (not_infix_nil (List.cons_ne_nil _ _))
    fun w hw => (h w hw).2

variable {registry : Registry} {item : Item}

theorem Clean.proper (h : item.Clean registry) : item.piece.Proper := by
  cases item with
  | text s => exact h
  | inline name args => exact proper_words h
  | opening name args => exact proper_words h
  | closing name =>
      apply proper_words
      intro w hw
      rw [List.mem_singleton.mp hw]
      exact h.1.closerName
  | var v =>
      have hfree := Variable.not_closer_interior h
      have hmark : ¬ Delimiter.var.closer <:+: if v.escape then ['!'] else [] := by
        cases v.escape <;> decide
      obtain ⟨inner, hinner⟩ : ∃ inner, v.interior = ' ' :: (inner ++ [' ']) := ⟨_, rfl⟩
      rw [hinner] at hfree
      have hrest : ¬ Delimiter.var.closer <:+: inner :=
        fun hin => hfree (hin.trans ⟨[' '], [' '], by simp⟩)
      have hproper := Piece.proper_closed_of_closer_free (not_infix_append_cons (c := ' ')
        (by decide) hmark hrest)
      simpa [piece, hinner] using hproper

theorem ofWords_closerName {name : List Char} {offset : Nat} (hname : name ≠ [])
    (hfree : registry.get? (closerName name) = none)
    (hknown : registry.get? name = some .block) :
    ofWords registry offset [closerName name] = .ok (closing name) := by
  have hinline : registry.get? name ≠ some .inline := by
    rw [hknown]
    decide
  exact ofWords_eq_ok_iff.mpr (Or.inr (Or.inr ⟨name, rfl, hname, hfree, hinline, rfl⟩))

/-- The segment of a piece that an item is written as is read as the item. -/
theorem exists_segment (h : item.Clean registry) (hknown : item.Known registry) (offset : Nat) :
    ∃ seg, item.piece.segment? offset = some seg ∧ ofSegment registry seg = .ok item := by
  have htag : ∀ {w : List Char} {ws : List (List Char)}, (∀ v ∈ w :: ws, CleanWord v) →
      tagWords (wordsInterior (w :: ws)) offset = .ok (w :: ws) := by
    intro w ws hwords
    exact tagWords_flatMap (hwords w (List.mem_cons_self ..)).1
      (fun v hv => (hwords v (List.mem_cons_of_mem w hv)).1) offset
  cases item with
  | text s => exact ⟨.text s offset, rfl, rfl⟩
  | inline name args =>
      have hget : registry.get? name = some .inline := hknown
      refine ⟨.tag (wordsInterior (name :: args)) offset, rfl, ?_⟩
      exact bind_eq_ok_iff.mpr ⟨_, htag h, by simp [ofWords, hget]⟩
  | opening name args =>
      have hget : registry.get? name = some .block := hknown
      refine ⟨.tag (wordsInterior (name :: args)) offset, rfl, ?_⟩
      exact bind_eq_ok_iff.mpr ⟨_, htag h, by simp [ofWords, hget]⟩
  | closing name =>
      refine ⟨.tag (wordsInterior [closerName name]) offset, rfl, ?_⟩
      refine bind_eq_ok_iff.mpr ⟨_, htag fun w hw => ?_, ofWords_closerName h.1.1.ne_nil h.2 hknown⟩
      rw [List.mem_singleton.mp hw]
      exact h.1.closerName
  | var v =>
      refine ⟨.var v.interior v.escape offset, ?_, ?_⟩
      · cases hescape : v.escape with
        | false => simp [piece, Piece.segment?, Piece.varSegment, hescape, Variable.interior]
        | true => simp [piece, Piece.segment?, Piece.varSegment, hescape]
      · exact map_eq_ok_iff.mpr ⟨v, Variable.read_interior h offset, rfl⟩

/-- A row of items is read back from the pieces it is written as. -/
theorem exists_segments {items : List Item} (h : ∀ i ∈ items, i.Clean registry)
    (hknown : ∀ i ∈ items, i.Known registry) (offset : Nat) :
    ∃ segs, Piece.segments offset (items.map piece) = .ok segs ∧
      segs.map (ofSegment registry) = items.map .ok := by
  induction items generalizing offset with
  | nil => exact ⟨[], rfl, rfl⟩
  | cons i items ih =>
      obtain ⟨hi, hitems⟩ := List.forall_mem_cons.mp h
      obtain ⟨hiknown, hitemsknown⟩ := List.forall_mem_cons.mp hknown
      obtain ⟨seg, hseg, hread⟩ := exists_segment hi hiknown offset
      obtain ⟨segs, hsegs, hrest⟩ := ih hitems hitemsknown (offset + byteSize i.piece.written)
      refine ⟨seg :: segs, Piece.segments_cons_eq_ok_iff.mpr ⟨?_, segs, hsegs, ?_⟩, ?_⟩
      · intro d rest hpiece
        rw [hpiece] at hseg
        cases hseg
      · rw [hseg]
        rfl
      · rw [List.map_cons, List.map_cons, hread, hrest]

/-- Whether one item may stand before another: a text neither before a text nor, if it ends with
a brace, before anything. -/
def Meets (i j : Item) : Prop :=
  ∀ s, i = text s → j.isText = false ∧ s.getLast? ≠ some '{'

theorem ofOpener?_piece_append (hitem : item.isText = false) (rest : List Char) :
    (Delimiter.ofOpener? (item.piece.written ++ rest)).isSome = true := by
  cases item with
  | text s => cases hitem
  | var v => rfl
  | inline name args => rfl
  | opening name args => rfl
  | closing name => rfl

/-- The pieces of clean items that may meet are the pieces of the text they are written as. -/
theorem row_map_piece {items : List Item} (h : ∀ i ∈ items, i.Clean registry)
    (hmeets : items.IsChain Meets) : Piece.Row (items.map piece) := by
  induction items with
  | nil => trivial
  | cons i items ih =>
      obtain ⟨hi, hitems⟩ := List.forall_mem_cons.mp h
      refine ⟨hi.proper, ?_, ih hitems hmeets.tail⟩
      cases items with
      | nil =>
          cases i with
          | text s => exact Or.inl rfl
          | _ => trivial
      | cons j items =>
          cases i with
          | text s =>
              obtain ⟨hj, hlast⟩ := (List.isChain_cons_cons.mp hmeets).1 s rfl
              exact Or.inr ⟨ofOpener?_piece_append hj _, hlast⟩
          | _ => trivial

end Item

namespace Token

mutual

theorem writtenAll_items : (t : Token) →
    Piece.writtenAll (t.items.map Item.piece) = t.display
  | text s => by simp [items, Item.piece, display, Piece.written]
  | tag t => by simp [items, Item.piece, display, Tag.display, displayWords_eq]
  | var v => by simp [items, Item.piece, display, Variable.display_eq, Piece.written]
  | block t ts => by
      have hts := writtenAll_itemsAll ts
      simp only [Piece.writtenAll] at hts
      simp [items, Item.piece, display, Tag.display, displayWords_eq, Piece.writtenAll, hts]

/-- A forest is written as the pieces of its items. -/
theorem writtenAll_itemsAll : (ts : List Token) →
    Piece.writtenAll ((itemsAll ts).map Item.piece) = displayAll ts
  | [] => rfl
  | t :: ts => by
      have ht := writtenAll_items t
      have hts := writtenAll_itemsAll ts
      simp only [Piece.writtenAll] at ht hts
      simp [itemsAll, displayAll, Piece.writtenAll, ht, hts]

end

end Token

/-- A forest that fits, with clean items that may meet, is read back from what it is written
as. -/
theorem Tokenizer.forest_displayAll {t : Tokenizer} {ts : List Token}
    (hclean : ∀ i ∈ Token.itemsAll ts, i.Clean t.registry)
    (hmeets : (Token.itemsAll ts).IsChain Item.Meets)
    (hfits : Token.FitsAll t.registry t.maxDepth [] ts) :
    t.forest (Token.displayAll ts) = .ok ts := by
  obtain ⟨segs, hsegs, hread⟩ := Item.exists_segments hclean
    (fun i hi => Token.known_of_mem_itemsAll ts hfits hi) 0
  refine forest_eq_ok_iff.mpr ⟨segs, ?_, hfits, hread⟩
  rw [scan_eq_segments_pieces, ← Token.writtenAll_itemsAll,
    Piece.pieces_writtenAll (Item.row_map_piece hclean hmeets)]
  exact hsegs

end TemplateMarkup
