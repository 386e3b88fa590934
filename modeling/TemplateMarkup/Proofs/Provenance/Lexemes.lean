import TemplateMarkup.Proofs.Composition.Bodies
import TemplateMarkup.Proofs.Composition.Reading
import TemplateMarkup.Proofs.Provenance.Interiors

/-! # Lexemes of a source

The texts, names and arguments that a forest keeps stand in its source in the
order in which the forest is written. What is left out are comments and closing
tags, the delimiters of tags and variables with the mark of a variable, and the
separators inside of them. Nothing else of a source is dropped.
-/

namespace TemplateMarkup

open Text Outcome

namespace Item

/-- What an item keeps of the segment it is read from. -/
def lexemes : Item → List (List Char)
  | text s => [s]
  | var v => v.lexemes
  | inline name args => name :: args
  | opening name args => name :: args
  | closing _ => []

theorem lexemes_of_ofWords {registry : Registry} {words : List (List Char)} {item : Item}
    {offset : Nat} (h : ofWords registry offset words = .ok item) :
    item.lexemes = words ∨ ∃ name, item = .closing name := by
  rcases ofWords_eq_ok_iff.mp h with ⟨_, _, rfl, _, rfl⟩ | ⟨_, _, rfl, _, rfl⟩ |
    ⟨name, _, _, _, _, rfl⟩
  · exact Or.inl rfl
  · exact Or.inl rfl
  · exact Or.inr ⟨name, rfl⟩

end Item

namespace Token

mutual

/-- The texts, names and arguments of a token, in the order in which it is written. -/
def lexemes : Token → List (List Char)
  | text s => [s]
  | var v => v.lexemes
  | tag t => t.name :: t.args
  | block t ts => t.name :: t.args ++ lexemesAll ts

/-- The texts, names and arguments of a row of tokens, in the order in which it is written. -/
def lexemesAll : List Token → List (List Char)
  | [] => []
  | t :: ts => lexemes t ++ lexemesAll ts

end

mutual

theorem flatMap_items : (t : Token) → t.items.flatMap Item.lexemes = t.lexemes
  | text _ => List.flatMap_singleton ..
  | var _ => List.flatMap_singleton ..
  | tag _ => List.flatMap_singleton ..
  | block t ts => by
      rw [items, lexemes, List.flatMap_append, List.flatMap_cons, flatMap_itemsAll ts,
        List.flatMap_singleton]
      exact List.append_nil _

/-- A forest keeps what its items keep. -/
theorem flatMap_itemsAll : (ts : List Token) →
    (itemsAll ts).flatMap Item.lexemes = lexemesAll ts
  | [] => rfl
  | t :: ts => by
      rw [itemsAll, lexemesAll, List.flatMap_append, flatMap_items t, flatMap_itemsAll ts]

end

end Token

namespace Piece

/-- Whether a character of a piece may be left out, given what stands before and behind it in the
piece: all of a comment and of a closing tag, the delimiters of a tag and of a variable, the mark
right behind the opener of a variable, gaps in a tag, and separators in a variable. -/
def Omits (registry : Registry) : Piece → List Char → Char → List Char → Prop
  | text _, _, _, _ => False
  | unterminated _ _, _, _, _ => False
  | closed .comment _, _, _, _ => True
  | closed .tag inner, u, c, v =>
      (∃ name, Item.ofSegment registry (.tag inner 0) = .ok (.closing name)) ∨
        u ++ [c] <+: Delimiter.tag.opener ∨ c :: v <:+ Delimiter.tag.closer ∨ isGap c = true
  | closed .var _, u, c, v =>
      u ++ [c] <+: Delimiter.var.opener ∨ c :: v <:+ Delimiter.var.closer ∨
        (u = Delimiter.var.opener ∧ c = '!') ∨ isSeparator c = true

variable {registry : Registry} {items : List Item} {inner : List Char} {d : Delimiter}
  {words : List (List Char)} {omits : List Char → Char → List Char → Prop}

/-- A construct is laid out as its interior is, if its delimiters may be left out. -/
theorem layout_closed (hopener : ∀ u c v, u ++ [c] <+: d.opener → omits u c v)
    (hcloser : ∀ u c v, c :: v <:+ d.closer → omits u c v)
    (hinner : Layout omits d.closer d.opener inner words) :
    Layout omits [] [] (closed d inner).written words := by
  have hopen : Layout omits (inner ++ d.closer) [] d.opener [] := by
    refine .skipAll fun u c v hsplit => hopener _ c _ ⟨v, ?_⟩
    rw [hsplit, List.nil_append, ← List.append_cons]
  have hclose : Layout omits [] (d.opener ++ inner) d.closer [] := by
    refine .skipAll fun u c v hsplit => hcloser _ c _ ⟨u, ?_⟩
    rw [hsplit, List.append_nil]
  have hfront : Layout omits (d.closer ++ []) [] (d.opener ++ inner) words := by
    rw [List.append_nil]
    exact hopen.append hinner
  have hwhole := hfront.append hclose
  rwa [List.append_nil] at hwhole

theorem layout_tag {item : Item} (h : Item.ofSegment registry (.tag inner 0) = .ok item) :
    Layout ((closed .tag inner).Omits registry) [] [] (closed .tag inner).written item.lexemes := by
  obtain ⟨words, hwords, hitem⟩ := bind_eq_ok_iff.mp h
  rcases Item.lexemes_of_ofWords hitem with rfl | ⟨name, rfl⟩
  · refine layout_closed (fun u c v hu => Or.inr (Or.inl hu))
      (fun u c v hv => Or.inr (Or.inr (Or.inl hv))) ?_
    exact (scattered_of_tagWords hwords).layout fun u c v hc => Or.inr (Or.inr (Or.inr hc))
  · exact .skipAll fun _ _ _ _ => Or.inl ⟨name, h⟩

theorem layout_var {item : Item} (h : Item.ofSegment registry (varSegment 0 inner) = .ok item) :
    Layout ((closed .var inner).Omits registry) [] [] (closed .var inner).written item.lexemes := by
  refine layout_closed (fun u c v hu => Or.inl hu) (fun u c v hv => Or.inr (Or.inl hv)) ?_
  by_cases hmark : ∃ tail, inner = '!' :: tail
  · obtain ⟨tail, rfl⟩ := hmark
    obtain ⟨v, hread, rfl⟩ := map_eq_ok_iff.mp h
    refine .skip (Or.inr (Or.inr (Or.inl ⟨rfl, rfl⟩))) ?_
    exact (Variable.scattered_of_read hread).layout fun u c v hc => Or.inr (Or.inr (Or.inr hc))
  · rw [varSegment_of_ne fun tail htail => hmark ⟨tail, htail⟩] at h
    obtain ⟨v, hread, rfl⟩ := map_eq_ok_iff.mp h
    exact (Variable.scattered_of_read hread).layout fun u c v hc => Or.inr (Or.inr (Or.inr hc))

/-- What is read from a piece is laid out in it. -/
theorem layout_of_reads {p : Piece} (hproper : p.Proper) (h : Reads registry [p] items) :
    Layout (p.Omits registry) [] [] p.written (items.flatMap Item.lexemes) := by
  obtain ⟨hp, hread⟩ := reads_singleton_iff.mp h
  have hone : ∀ seg, p.segment? 0 = some seg →
      ∃ item, items = [item] ∧ Item.ofSegment registry seg = .ok item := by
    intro seg hseg
    rw [hseg] at hread
    obtain ⟨item, hitems, hitem⟩ := List.map_eq_singleton_iff.mp hread.symm
    exact ⟨item, hitems, hitem.symm⟩
  cases p with
  | text s =>
      obtain ⟨item, rfl, hitem⟩ := hone _ rfl
      cases hitem
      exact .word hproper.1
  | unterminated d rest => exact absurd rfl (hp d rest)
  | closed d inner =>
      cases d with
      | comment =>
          obtain rfl := List.map_eq_nil_iff.mp hread.symm
          exact .skipAll fun _ _ _ _ => trivial
      | tag =>
          obtain ⟨item, rfl, hitem⟩ := hone _ rfl
          rw [List.flatMap_singleton]
          exact layout_tag hitem
      | var =>
          obtain ⟨item, rfl, hitem⟩ := hone _ rfl
          rw [List.flatMap_singleton]
          exact layout_var hitem

end Piece

/-- Whether a character of a source, given what stands before and behind it, is one that the
piece around it may leave out. -/
def Omitted (registry : Registry) (before : List Char) (c : Char) (behind : List Char) : Prop :=
  ∃ ps p qs u v, Piece.pieces (before ++ c :: behind) = ps ++ p :: qs ∧
    before = Piece.writtenAll ps ++ u ∧ behind = v ++ Piece.writtenAll qs ∧ p.Omits registry u c v

variable {registry : Registry} {source : List Char} {items : List Item} {ts : List Token}

/-- What is read from the pieces of a source is laid out in the source. -/
theorem layout_of_reads_row (front : List Piece) {ps : List Piece}
    (hpieces : Piece.pieces source = front ++ ps) (h : Piece.Reads registry ps items) :
    Layout (Omitted registry) [] (Piece.writtenAll front) (Piece.writtenAll ps)
      (items.flatMap Item.lexemes) := by
  induction ps generalizing front items with
  | nil =>
      obtain ⟨segs, hsegs, hread⟩ := h
      cases hsegs
      obtain rfl := List.map_eq_nil_iff.mp hread.symm
      exact .nil
  | cons p ps ih =>
      obtain ⟨xs, ys, hxs, hys, rfl⟩ := Piece.reads_cons_iff.mp h
      have hrow := Piece.row_pieces source
      have hsource := Piece.writtenAll_pieces source
      rw [hpieces] at hrow hsource
      have hproper : p.Proper := (Piece.row_of_row_append hrow).1
      have hfirst : Layout (Omitted registry) (Piece.writtenAll ps ++ []) (Piece.writtenAll front)
          p.written (xs.flatMap Item.lexemes) := by
        refine (Piece.layout_of_reads hproper hxs).move fun u c v hsplit hu => ?_
        refine ⟨front, p, ps, u, v, ?_, rfl, by rw [List.append_nil], by simpa using hu⟩
        rw [← hpieces, ← hsource]
        simp [hsplit]
      have hrest := ih (front ++ [p]) (by rw [hpieces, List.append_cons]) hys
      rw [Piece.writtenAll_append, Piece.writtenAll_cons, Piece.writtenAll_nil,
        List.append_nil] at hrest
      rw [Piece.writtenAll_cons, List.flatMap_append]
      exact hfirst.append hrest

namespace Tokenizer

variable {t : Tokenizer}

/-- Everything that the tokens of a source keep stands in the source, in the order in which the
tokens are written, at places apart from one another. Every byte outside of these places belongs to
a comment, to a closing tag, to the delimiters of a tag or variable or the mark of a variable, to a
gap in a tag, or to a separator in a variable. -/
theorem exists_places_of_tokenize (h : t.tokenize source = .ok ts) (hne : ts ≠ []) :
    ∃ places : List (Nat × List Char), places.map Prod.snd = Token.lexemesAll ts ∧
      Places (Omitted t.registry) source 0 (byteSize source) places := by
  cases ts with
  | nil => exact absurd rfl hne
  | cons u us =>
      obtain ⟨hread, _⟩ := forest_eq_ok_iff_reads.mp (forest_of_tokenize_cons h)
      have hlayout := layout_of_reads_row [] rfl hread
      rw [Token.flatMap_itemsAll, Piece.writtenAll_pieces, Piece.writtenAll_nil] at hlayout
      obtain ⟨places, hwords, hplaces⟩ := hlayout.exists_places
      refine ⟨places, hwords, ?_⟩
      simpa using hplaces

/-- A text before a comment, and a block with a variable in it. -/
theorem exists_places_of_block :
    ∃ places : List (Nat × List Char),
      places.map Prod.snd = [['é'], ['i', 'f'], ['x'], ['p'], ['f'], ['1']] ∧
        Places (Omitted (.ofList [(['i', 'f'], .block)]))
          (['é', '{', '#', '!', '#', '}'] ++ displayWords [['i', 'f'], ['x']] ++
            ['{', '{', '!', ' ', 'p', '|', 'f', '(', '1', ')', '}', '}'] ++
              displayWords [closerName ['i', 'f']]) 0 40 places := by
  have hread : (⟨.ofList [(['i', 'f'], .block)], 1⟩ : Tokenizer).tokenize
      (['é', '{', '#', '!', '#', '}'] ++ displayWords [['i', 'f'], ['x']] ++
        ['{', '{', '!', ' ', 'p', '|', 'f', '(', '1', ')', '}', '}'] ++
          displayWords [closerName ['i', 'f']]) =
      .ok [.text ['é'], .block ⟨['i', 'f'], [['x']], .block, []⟩
        [.var ⟨['p'], [⟨['f'], [['1']]⟩], true, none⟩]] := by rfl
  exact exists_places_of_tokenize hread (List.cons_ne_nil _ _)

end Tokenizer

end TemplateMarkup
