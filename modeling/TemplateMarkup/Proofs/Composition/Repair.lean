import TemplateMarkup.Proofs.Source.Concatenation

/-! # Repaired sources

Where a scan fails, the closer it asks for, put behind the source, lets the
scan succeed: what stood before the opener is read as it is alone, and the
opener begins a construct up to the end. Only for a variable can the closer
meet a brace at the end of the source, which is then the first half of the
closer, and the last brace is left over as a text.
-/

namespace TemplateMarkup

open Text

namespace Piece

/-- The interior of a variable without the mark right behind the opener. -/
def unmarked : List Char → List Char
  | '!' :: inner => inner
  | inner => inner

/-- A mark is no brace, so that it makes no difference to one at the end. -/
theorem getLast?_unmarked {s : List Char} :
    (unmarked s).getLast? = some '}' ↔ s.getLast? = some '}' := by
  unfold unmarked
  split
  · rename_i inner
    cases inner with
    | nil => simp
    | cons c inner => rw [List.getLast?_cons_cons]
  · rfl

/-- Whether a closer behind what follows an opener begins with a brace that was there already. -/
def Spills (d : Delimiter) (rest : List Char) : Prop :=
  d = .var ∧ (unmarked rest).getLast? = some '}'

instance (d : Delimiter) (rest : List Char) : Decidable (Spills d rest) :=
  inferInstanceAs (Decidable (_ ∧ _))

/-- The construct that an opener begins when its closer is put behind all that follows it. -/
def repaired (d : Delimiter) (rest : List Char) : Piece :=
  closed d (if Spills d rest then rest.dropLast else rest)

/-- What is left of the closer behind that construct. -/
def spilled (d : Delimiter) (rest : List Char) : List Piece :=
  if Spills d rest then [text ['}']] else []

variable {d : Delimiter} {rest inner : List Char}

theorem Spills.exists_eq (h : Spills d rest) : d = .var ∧ ∃ inner, rest = inner ++ ['}'] :=
  ⟨h.1, List.getLast?_eq_some_iff.mp (getLast?_unmarked.mp h.2)⟩

theorem spills_concat (inner : List Char) : Spills .var (inner ++ ['}']) :=
  ⟨rfl, getLast?_unmarked.mpr List.getLast?_concat⟩

@[simp] theorem repaired_concat (inner : List Char) :
    repaired .var (inner ++ ['}']) = closed .var inner := by
  rw [repaired, if_pos (spills_concat inner), List.dropLast_concat]

/-- The construct ends with the second of three braces, of which the source had the first. -/
theorem Spills.written_repaired (h : Spills d rest) :
    (repaired d rest).written = d.opener ++ rest ++ ['}'] := by
  obtain ⟨rfl, inner, rfl⟩ := h.exists_eq
  rw [repaired_concat]
  simp [written, Delimiter.closer]

theorem written_repaired_of_not_spills (h : ¬ Spills d rest) :
    (repaired d rest).written = d.opener ++ rest ++ d.closer := by
  rw [repaired, if_neg h]
  rfl

/-- The construct goes on over all that followed the opener. -/
theorem prefix_written_repaired (d : Delimiter) (rest : List Char) :
    d.opener ++ rest <+: (repaired d rest).written := by
  by_cases h : Spills d rest
  · rw [h.written_repaired]
    exact List.prefix_append _ _
  · rw [written_repaired_of_not_spills h]
    exact List.prefix_append _ _

theorem writtenAll_repaired (d : Delimiter) (rest : List Char) :
    writtenAll (repaired d rest :: spilled d rest) = d.opener ++ rest ++ d.closer := by
  by_cases h : Spills d rest
  · rw [writtenAll_cons, h.written_repaired, spilled, if_pos h, h.1]
    simp [written, Delimiter.closer]
  · rw [writtenAll_cons, written_repaired_of_not_spills h, spilled, if_neg h, writtenAll_nil,
      List.append_nil]

theorem proper_repaired (h : ¬ d.closer <:+: rest) : (repaired d rest).Proper := by
  by_cases hspills : Spills d rest
  · obtain ⟨rfl, inner, rfl⟩ := hspills.exists_eq
    rw [repaired_concat]
    refine proper_closed (fun hin => h (hin.trans (List.prefix_append inner _).isInfix)) ?_
    -- a second brace at the end would have closed the variable
    rintro - hlast
    obtain ⟨front, rfl⟩ := List.getLast?_eq_some_iff.mp hlast
    exact h ⟨front, [], by simp [Delimiter.closer]⟩
  · rw [repaired, if_neg hspills]
    exact proper_closed h fun hd hlast => hspills ⟨hd, getLast?_unmarked.mpr hlast⟩

theorem row_spilled (d : Delimiter) (rest : List Char) : Row (spilled d rest) := by
  unfold spilled
  split
  · refine ⟨⟨List.cons_ne_nil _ _, fun e hin => ?_⟩, Or.inl rfl, trivial⟩
    exact absurd hin.length_le (by simp [Delimiter.length_opener])
  · trivial

variable {source : List Char} {qs : List Piece}

/-- The closer turns the opener that is never closed into a construct and changes no piece before
it. -/
theorem pieces_append_closer (h : pieces source = qs ++ [unterminated d rest])
    (hterm : Terminated qs) :
    pieces (source ++ d.closer) = qs ++ repaired d rest :: spilled d rest := by
  have hrow := row_pieces source
  have hsource := writtenAll_pieces source
  rw [h] at hrow hsource
  have hunclosed : ¬ d.closer <:+: rest := (row_of_row_append hrow).1
  have hopen : (Delimiter.ofOpener? (writtenAll (repaired d rest :: spilled d rest))).isSome =
      true := by
    rw [writtenAll_repaired, List.append_assoc, Delimiter.ofOpener?_opener_append]
    rfl
  apply pieces_eq_of_row
  · apply row_append_of_opener hrow hterm _ hopen
    exact ⟨proper_repaired hunclosed, trivial, row_spilled d rest⟩
  · rw [writtenAll_append, writtenAll_repaired, ← hsource]
    simp [written]

theorem segments_repaired (offset : Nat) (d : Delimiter) (rest : List Char) :
    segments offset (repaired d rest :: spilled d rest) =
      .ok (((repaired d rest).segment? offset).toList ++
        if Spills d rest then [.text ['}'] (offset + byteSize (d.opener ++ rest) + 1)] else []) := by
  rw [segments_cons fun _ _ => Piece.noConfusion]
  by_cases h : Spills d rest
  · have hbrace : byteSize ['}'] = 1 := by decide
    rw [spilled, if_pos h, if_pos h, h.written_repaired, byteSize_append, hbrace,
      ← Nat.add_assoc]
    rfl
  · rw [spilled, if_neg h, if_neg h]
    rfl

/-- What begins behind the opener, before the closer was put there, is inside the construct. -/
theorem exists_inside_repaired {front u w : List Char}
    (h : front ++ (d.opener ++ rest) = u ++ w) (hlt : byteSize front < byteSize u) :
    ∃ x y, u = front ++ x ∧ (repaired d rest).written = x ++ w ++ y := by
  obtain ⟨y, hy⟩ := prefix_written_repaired d rest
  rcases List.append_eq_append_iff.mp h with ⟨x, rfl, hx⟩ | ⟨x, rfl, _⟩
  · exact ⟨x, y, rfl, by rw [← hy, hx]⟩
  · rw [byteSize_append] at hlt
    omega

end Piece

open Piece

/-- The closer that an error asks for repairs the scan. What stands before the opener is scanned
on its own, and with the closer behind the source the scan gives the same segments, then that of
the construct at the opener, which is none for a comment, and then a text of one brace if the
opener is that of a variable and a brace stands at the end of what follows it and its mark. All
openers behind the first one are inside this construct. -/
theorem scan_repaired {source : List Char} {d : Delimiter} {offset : Nat}
    (h : scan source = .error (.unterminatedDelimiter d offset)) :
    ∃ front rest segs, splitAtByte? source offset = some (front, d.opener ++ rest) ∧
      scan front = .ok segs ∧
      scan (source ++ d.closer) = .ok (segs ++ (((repaired d rest).segment? offset).toList ++
        if Spills d rest then [.text ['}'] (byteSize source + 1)] else [])) ∧
      ∀ e u v, source = u ++ Delimiter.opener e ++ v → offset < byteSize u →
        ∃ x y, u = front ++ x ∧ (repaired d rest).written = x ++ Delimiter.opener e ++ y := by
  obtain ⟨qs, d', rest, segs, hpieces, hsegs, herror⟩ := exists_pieces_of_scan_error h
  obtain ⟨rfl, rfl⟩ : d = d' ∧ offset = byteSize (writtenAll qs) := by simpa using herror
  have hrow : Row qs := row_of_append_row (hpieces ▸ row_pieces source)
  have hsource : source = writtenAll qs ++ (d.opener ++ rest) := by
    calc source
        = writtenAll (pieces source) := (writtenAll_pieces source).symm
      _ = writtenAll (qs ++ [unterminated d rest]) := by rw [hpieces]
      _ = writtenAll qs ++ (d.opener ++ rest) := by simp [written]
  refine ⟨writtenAll qs, rest, segs, splitAtByte?_eq_some_iff.mpr ⟨hsource.symm, rfl⟩, ?_, ?_, ?_⟩
  · rw [scan_eq_segments_pieces, pieces_writtenAll hrow, hsegs]
  · rw [scan_eq_segments_pieces, pieces_append_closer hpieces (terminated_of_segments hsegs),
      segments_append hsegs, Nat.zero_add, segments_repaired, ← byteSize_append, ← hsource]
    rfl
  · intro e u v hsplit hlt
    rw [hsource, List.append_assoc] at hsplit
    obtain ⟨x, y, hu, hy⟩ := exists_inside_repaired hsplit hlt
    exact ⟨x, v ++ y, hu, by rw [hy]; simp⟩

/-- Behind an opener in the variable a brace stands at the end, and one more than needed is put
there. -/
theorem scan_repaired_open_variable :
    scan ['é', '{', '{', '!', 'a', '{', '%', '}'] = .error (.unterminatedDelimiter .var 2) ∧
      scan (['é', '{', '{', '!', 'a', '{', '%', '}'] ++ ['}', '}']) =
        .ok [.text ['é'] 0, .var ['a', '{', '%'] true 2, .text ['}'] 10] := by
  have hfail : scan ['é', '{', '{', '!', 'a', '{', '%', '}'] =
      .error (.unterminatedDelimiter .var 2) := by rfl
  obtain ⟨front, rest, segs, hcut, hfront, hrepaired, -⟩ := scan_repaired hfail
  have hplace : splitAtByte? ['é', '{', '{', '!', 'a', '{', '%', '}'] 2 =
      some (['é'], Delimiter.var.opener ++ ['!', 'a', '{', '%', '}']) := by rfl
  obtain ⟨rfl, hrest⟩ := Prod.mk.inj (Option.some.inj (hplace.symm.trans hcut))
  obtain rfl : ['!', 'a', '{', '%', '}'] = rest := List.append_cancel_left hrest
  obtain rfl : [.text ['é'] 0] = segs := Except.ok.inj hfront
  exact ⟨hfail, hrepaired⟩

end TemplateMarkup
