import Mathlib.Data.List.Basic
import TemplateMarkup.Proofs.Source.Places
import TemplateMarkup.Proofs.Text.Containment

/-! # Concatenated sources

Where a source has no opener that is never closed, and its last character does
not make an opener with what is put behind it, the pieces of the two parts stay
as they are. Only two texts that meet become one.
-/

namespace TemplateMarkup

open Text Outcome

namespace Piece

/-- Whether every opener in a row of pieces is closed. -/
def Terminated (ps : List Piece) : Prop :=
  ∀ d rest, unterminated d rest ∉ ps

variable {ps qs : List Piece} {offset : Nat} {segs : List Segment}

theorem terminated_cons_iff {p : Piece} :
    Terminated (p :: ps) ↔ (∀ d rest, p ≠ unterminated d rest) ∧ Terminated ps := by
  simp only [Terminated, List.mem_cons, not_or, forall_and, ne_eq]
  exact and_congr_left' (forall₂_congr fun _ _ => not_congr eq_comm)

theorem terminated_of_segments (h : segments offset ps = .ok segs) : Terminated ps := by
  induction ps generalizing offset segs with
  | nil => exact fun _ _ => List.not_mem_nil
  | cons p ps ih =>
      obtain ⟨hp, tail, htail, _⟩ := segments_cons_eq_ok_iff.mp h
      exact terminated_cons_iff.mpr ⟨hp, ih htail⟩

/-- The segments of a row of pieces are those of its first part and then those of the others. -/
theorem segments_append (h : segments offset ps = .ok segs) (qs : List Piece) :
    segments offset (ps ++ qs) =
      (segments (offset + byteSize (writtenAll ps)) qs).map (segs ++ ·) := by
  induction ps generalizing offset segs with
  | nil =>
      cases h
      rw [List.nil_append, writtenAll_nil, byteSize_nil, Nat.add_zero]
      cases segments offset qs <;> rfl
  | cons p ps ih =>
      obtain ⟨hp, tail, htail, rfl⟩ := segments_cons_eq_ok_iff.mp h
      rw [List.cons_append, segments_cons hp, ih htail, writtenAll_cons, byteSize_append,
        Nat.add_assoc]
      cases segments (offset + (byteSize p.written + byteSize (writtenAll ps))) qs with
      | error e => rfl
      | ok rest => simp [Except.map]

theorem segments_append_eq_ok_iff : segments offset (ps ++ qs) = .ok segs ↔
    ∃ front back, segments offset ps = .ok front ∧
      segments (offset + byteSize (writtenAll ps)) qs = .ok back ∧ segs = front ++ back := by
  constructor
  · intro h
    induction ps generalizing offset segs with
    | nil => exact ⟨[], segs, rfl, h, rfl⟩
    | cons p ps ih =>
        obtain ⟨hp, tail, htail, rfl⟩ := segments_cons_eq_ok_iff.mp h
        obtain ⟨front, back, hfront, hback, rfl⟩ := ih htail
        refine ⟨_, back, segments_cons_eq_ok_iff.mpr ⟨hp, front, hfront, rfl⟩, ?_, ?_⟩
        · rwa [writtenAll_cons, byteSize_append, ← Nat.add_assoc]
        · rw [List.append_assoc]
  · rintro ⟨front, back, hfront, hback, rfl⟩
    rw [segments_append hfront, hback]
    rfl

/-- Every segment of a row of pieces is that of one of them, behind the pieces of the segments
before it. -/
theorem exists_piece_of_segments {before after : List Segment} {s : Segment}
    (h : segments offset ps = .ok (before ++ s :: after)) :
    ∃ qs p rs, ps = qs ++ p :: rs ∧ segments offset qs = .ok before ∧
      p.segment? (offset + byteSize (writtenAll qs)) = some s := by
  induction ps generalizing offset before with
  | nil => simp [segments] at h
  | cons p ps ih =>
      obtain ⟨hp, tail, htail, hsegs⟩ := segments_cons_eq_ok_iff.mp h
      have hbehind : ∀ front, tail = front ++ s :: after → ∃ qs q rs, p :: ps = qs ++ q :: rs ∧
          segments offset qs = .ok ((p.segment? offset).toList ++ front) ∧
            q.segment? (offset + byteSize (writtenAll qs)) = some s := by
        rintro front rfl
        obtain ⟨qs, q, rs, rfl, hqs, hq⟩ := ih htail
        refine ⟨p :: qs, q, rs, rfl, segments_cons_eq_ok_iff.mpr ⟨hp, front, hqs, rfl⟩, ?_⟩
        rwa [writtenAll_cons, byteSize_append, ← Nat.add_assoc]
      cases hseg : p.segment? offset with
      | none =>
          rw [hseg] at hsegs hbehind
          exact hbehind before hsegs.symm
      | some u =>
          rw [hseg] at hsegs hbehind
          cases before with
          | nil =>
              obtain rfl := (List.cons.inj hsegs).1
              exact ⟨[], p, ps, rfl, rfl, hseg⟩
          | cons v front =>
              obtain ⟨rfl, htail⟩ := List.cons.inj hsegs
              exact hbehind front htail.symm

theorem isSome_ofOpener?_append {s : List Char} (h : (Delimiter.ofOpener? s).isSome = true)
    (t : List Char) : (Delimiter.ofOpener? (s ++ t)).isSome = true := by
  obtain ⟨d, hd⟩ := Option.isSome_iff_exists.mp h
  have hpre := (Delimiter.ofOpener?_eq_some_iff.mp hd).trans (List.prefix_append s t)
  rw [Delimiter.ofOpener?_eq_some_iff.mpr hpre]
  rfl

theorem Before.append {p : Piece} {s : List Char} (h : p.Before s) (hs : s ≠ [])
    (t : List Char) : p.Before (s ++ t) := by
  cases p with
  | text u =>
      rcases h with h | ⟨hopen, hlast⟩
      · exact absurd h hs
      · exact Or.inr ⟨isSome_ofOpener?_append hopen t, hlast⟩
  | closed d inner => trivial
  | unterminated d rest => exact absurd h hs

/-- Two rows of pieces make one if the last text of the first may stand before the second. -/
theorem row_append (hps : Row ps) (hterm : Terminated ps) (hqs : Row qs)
    (hjoint : ∀ s, ps.getLast? = some (text s) → (text s).Before (writtenAll qs)) :
    Row (ps ++ qs) := by
  -- only the last piece of the first row stands before something new
  induction ps with
  | nil => exact hqs
  | cons p ps ih =>
      obtain ⟨hp, hbefore, hrow⟩ := hps
      obtain ⟨hpterm, hpsterm⟩ := terminated_cons_iff.mp hterm
      cases ps with
      | nil =>
          refine ⟨hp, ?_, hqs⟩
          cases p with
          | text s => exact hjoint s rfl
          | closed d inner => trivial
          | unterminated d rest => exact absurd rfl (hpterm d rest)
      | cons q ps =>
          refine ⟨hp, ?_, ih hrow hpsterm fun s hs => hjoint s ?_⟩
          · rw [List.append_eq, writtenAll_append]
            exact hbefore.append (writtenAll_ne_nil hrow (List.cons_ne_nil q ps)) _
          · rw [List.getLast?_cons_cons]
            exact hs

/-- An opener at the start of a row of pieces is the start of its first piece. -/
theorem isSome_ofOpener?_of_row {p : Piece} (h : Row (p :: ps)) (rest : List Char)
    (hopen : (Delimiter.ofOpener? (writtenAll (p :: ps))).isSome = true) :
    (Delimiter.ofOpener? (p.written ++ rest)).isSome = true := by
  have hconstruct : ∀ d tail, p.written = Delimiter.opener d ++ tail →
      (Delimiter.ofOpener? (p.written ++ rest)).isSome = true := by
    intro d tail htail
    rw [htail, List.append_assoc, Delimiter.ofOpener?_opener_append]
    rfl
  cases p with
  | text s =>
      rw [writtenAll_cons, written, ofOpener?_text h.1 h.2.1] at hopen
      cases hopen
  | closed d inner => exact hconstruct d (inner ++ d.closer) (List.append_assoc _ _ _)
  | unterminated d tail => exact hconstruct d tail rfl

/-- The first part of a row of pieces is a row itself. -/
theorem row_of_append_row (h : Row (ps ++ qs)) : Row ps := by
  induction ps with
  | nil => trivial
  | cons p ps ih =>
      obtain ⟨hp, hbefore, hrow⟩ := h
      refine ⟨hp, ?_, ih hrow⟩
      cases p with
      | text s =>
          cases ps with
          | nil => exact Or.inl rfl
          | cons q ps =>
              rcases hbefore with hnone | ⟨hopen, hlast⟩
              · exact absurd hnone (writtenAll_ne_nil hrow (List.cons_ne_nil q (ps ++ qs)))
              · exact Or.inr ⟨isSome_ofOpener?_of_row hrow _ hopen, hlast⟩
      | closed d inner => trivial
      | unterminated d rest =>
          rw [List.append_eq, Before, writtenAll_append] at hbefore
          exact (List.append_eq_nil_iff.mp hbefore).1

/-- No text stands right before another. -/
theorem not_row_texts {s u : List Char} : ¬ Row (ps ++ text s :: text u :: qs) := by
  intro h
  obtain ⟨_, hbefore, hu, hrest, _⟩ := row_of_row_append h
  rcases hbefore with hnil | ⟨hopen, _⟩
  · exact hu.1 (List.append_eq_nil_iff.mp hnil).1
  · rw [writtenAll_cons, written, ofOpener?_text hu hrest] at hopen
    cases hopen

/-- The end of a row of pieces may be exchanged for a row that begins with an opener. -/
theorem row_append_of_opener {p : Piece} {rs : List Piece} (hrow : Row (ps ++ p :: rs))
    (hterm : Terminated ps) (hqs : Row qs)
    (hopen : (Delimiter.ofOpener? (writtenAll qs)).isSome = true) : Row (ps ++ qs) := by
  refine row_append (row_of_append_row hrow) hterm hqs fun s hs => ?_
  obtain ⟨init, rfl⟩ := List.getLast?_eq_some_iff.mp hs
  rw [List.append_assoc] at hrow
  obtain ⟨_, hbefore, hrest⟩ := row_of_row_append hrow
  rcases hbefore with hnil | ⟨_, hlast⟩
  · exact absurd hnil (writtenAll_ne_nil hrest (List.cons_ne_nil p rs))
  · exact Or.inr ⟨hopen, hlast⟩

/-- Whether no opener begins with the last character of a text where another text is put behind
it. -/
def Seam (a b : List Char) : Prop :=
  a.getLast? = some '{' → Delimiter.ofOpener? ('{' :: b) = none

theorem Seam.not_opener {a b : List Char} {d : Delimiter} {c : Char} (h : Seam a b)
    (hd : d.opener = ['{', c]) (ha : a.getLast? = some '{') : b.head? ≠ some c := by
  intro hb
  obtain ⟨tail, rfl⟩ := List.head?_eq_some_iff.mp hb
  have hopen : Delimiter.ofOpener? ('{' :: c :: tail) = some d :=
    Delimiter.ofOpener?_eq_some_iff.mpr ⟨tail, by rw [hd]; rfl⟩
  rw [h ha] at hopen
  cases hopen

theorem getLast?_of_getLast?_pieces {a s : List Char} (h : (pieces a).getLast? = some (text s))
    (hne : s ≠ []) : a.getLast? = s.getLast? := by
  obtain ⟨ps, hps⟩ := List.getLast?_eq_some_iff.mp h
  rw [← writtenAll_pieces a, hps, writtenAll_append, writtenAll_cons, writtenAll_nil,
    List.append_nil, written, List.getLast?_append_of_ne_nil _ hne]

theorem proper_text_append {s u : List Char} (hs : (text s).Proper) (hu : (text u).Proper)
    (hseam : ∀ d c, Delimiter.opener d = ['{', c] → s.getLast? = some '{' → u.head? ≠ some c) :
    (text (s ++ u)).Proper := by
  refine ⟨fun hnil => hs.1 (List.append_eq_nil_iff.mp hnil).1, fun d hin => ?_⟩
  obtain ⟨c, hc⟩ := d.exists_opener_eq
  have hnot := hs.2 d
  have hnot' := hu.2 d
  rw [hc] at hin hnot hnot'
  rcases infix_pair_append hin with h | h | ⟨hlast, hhead⟩
  · exact hnot h
  · exact hnot' h
  · exact hseam d c hc hlast hhead

theorem exists_opener_of_pieces {b : List Char} {q : Piece} (h : pieces b = q :: qs)
    (hq : ∀ u, q ≠ text u) : ∃ d tail, b = Delimiter.opener d ++ tail := by
  have hb := writtenAll_pieces b
  rw [h, writtenAll_cons] at hb
  cases q with
  | text u => exact absurd rfl (hq u)
  | closed d inner => exact ⟨d, inner ++ d.closer ++ writtenAll qs, by rw [← hb]; simp [written]⟩
  | unterminated d rest => exact ⟨d, rest ++ writtenAll qs, by rw [← hb]; simp [written]⟩

theorem pieces_eq_of_row {s : List Char} (h : Row ps) (hs : writtenAll ps = s) :
    pieces s = ps := by
  rw [← hs, pieces_writtenAll h]

variable {a b : List Char}

/-- A text at the end of a source and a text at the start of another one are joined. -/
theorem pieces_append_of_texts {s u : List Char} (hterm : Terminated (pieces a))
    (hseam : Seam a b) (ha : pieces a = ps ++ [text s]) (hb : pieces b = text u :: qs) :
    pieces (a ++ b) = ps ++ text (s ++ u) :: qs := by
  have harow := row_pieces a
  have hbrow := row_pieces b
  have hawritten := writtenAll_pieces a
  have hbwritten := writtenAll_pieces b
  rw [ha] at harow hawritten hterm
  rw [hb] at hbrow hbwritten
  obtain ⟨hs, _⟩ := row_of_row_append harow
  obtain ⟨hu, hbefore, hqs⟩ := hbrow
  have hproper : (text (s ++ u)).Proper := by
    refine proper_text_append hs hu fun d c hc hlast hhead => ?_
    rw [← getLast?_of_getLast?_pieces (by rw [ha, List.getLast?_concat]) hs.1] at hlast
    apply hseam.not_opener hc hlast
    rw [← hbwritten, writtenAll_cons, written, List.head?_append, hhead]
    rfl
  have hjoined : (text (s ++ u)).Before (writtenAll qs) := by
    rcases hbefore with hnil | ⟨hopen, hlast⟩
    · exact Or.inl hnil
    · rw [← List.getLast?_append_of_ne_nil s hu.1] at hlast
      exact Or.inr ⟨hopen, hlast⟩
  have hpsterm : Terminated ps := fun d rest hmem => hterm d rest (List.mem_append_left _ hmem)
  apply pieces_eq_of_row
  · refine row_append (row_of_append_row harow) hpsterm ⟨hproper, hjoined, hqs⟩ fun t ht => ?_
    -- a text in front of the joined one would have stood right before a text already
    obtain ⟨rs, rfl⟩ := List.getLast?_eq_some_iff.mp ht
    rw [List.append_assoc] at harow
    exact absurd harow not_row_texts
  · rw [← hawritten, ← hbwritten]
    simp [written]

/-- Where no two texts meet, the pieces of two sources are put one behind the other. -/
theorem pieces_append_of_apart (hterm : Terminated (pieces a)) (hseam : Seam a b)
    (hapart : ∀ s u, (pieces a).getLast? = some (text s) → (pieces b).head? ≠ some (text u)) :
    pieces (a ++ b) = pieces a ++ pieces b := by
  apply pieces_eq_of_row
  · refine row_append (row_pieces a) hterm (row_pieces b) fun s hs => ?_
    rw [writtenAll_pieces]
    cases hq : pieces b with
    | nil =>
        left
        rw [← writtenAll_pieces b, hq, writtenAll_nil]
    | cons q qs =>
        right
        obtain ⟨d, tail, rfl⟩ := exists_opener_of_pieces hq fun u hu =>
          hapart s u hs (by rw [hq, hu]; rfl)
        refine ⟨by rw [Delimiter.ofOpener?_opener_append]; rfl, fun hlast => ?_⟩
        have hne : s ≠ [] := by
          rintro rfl
          cases hlast
        rw [← getLast?_of_getLast?_pieces hs hne] at hlast
        obtain ⟨c, hc⟩ := d.exists_opener_eq
        exact hseam.not_opener (d := .var) rfl hlast (by rw [hc]; rfl)
  · rw [writtenAll_append, writtenAll_pieces, writtenAll_pieces]

/-- The pieces of a source with another one behind it are those of both, where a text at the end
of the first and a text at the start of the second are one. -/
theorem pieces_append (hterm : Terminated (pieces a)) (hseam : Seam a b) :
    (pieces (a ++ b) = pieces a ++ pieces b ∧
      ∀ s u, (pieces a).getLast? = some (text s) → (pieces b).head? ≠ some (text u)) ∨
      ∃ ps s u qs, pieces a = ps ++ [text s] ∧ pieces b = text u :: qs ∧
        pieces (a ++ b) = ps ++ text (s ++ u) :: qs := by
  by_cases hmeet : ∃ s u, (pieces a).getLast? = some (text s) ∧ (pieces b).head? = some (text u)
  · obtain ⟨s, u, hs, hu⟩ := hmeet
    obtain ⟨ps, ha⟩ := List.getLast?_eq_some_iff.mp hs
    obtain ⟨qs, hb⟩ := List.head?_eq_some_iff.mp hu
    exact Or.inr ⟨ps, s, u, qs, ha, hb, pieces_append_of_texts hterm hseam ha hb⟩
  · have hapart : ∀ s u, (pieces a).getLast? = some (text s) →
        (pieces b).head? ≠ some (text u) := fun s u hs hu => hmeet ⟨s, u, hs, hu⟩
    exact Or.inl ⟨pieces_append_of_apart hterm hseam hapart, hapart⟩

theorem seam_of_getLast? (h : a.getLast? ≠ some '{') : Seam a b :=
  fun hlast => absurd hlast h

theorem pieces_closed_append {d : Delimiter} {inner : List Char} (h : (closed d inner).Proper)
    (rest : List Char) : pieces ((closed d inner).written ++ rest) = closed d inner :: pieces rest :=
  pieces_of_first? (first?_written_append h trivial)

/-- Behind a construct the pieces of a source may be exchanged for those of another one. -/
theorem pieces_behind_closed {d : Delimiter} {inner : List Char} {rs : List Piece}
    (hrow : Row (qs ++ closed d inner :: rs)) (hterm : Terminated qs) (r : List Char) :
    pieces (writtenAll qs ++ (closed d inner).written ++ r) = qs ++ closed d inner :: pieces r := by
  rw [List.append_cons] at hrow ⊢
  have hclosed : Terminated (qs ++ [closed d inner]) := by
    intro d' rest hmem
    rcases List.mem_append.mp hmem with hmem | hmem
    · exact hterm d' rest hmem
    · cases List.mem_singleton.mp hmem
  apply pieces_eq_of_row
  · refine row_append (row_of_append_row hrow) hclosed (row_pieces r) fun s hs => ?_
    rw [List.getLast?_concat] at hs
    cases hs
  · simp

/-- A construct between two sources is a piece of its own, unless the first source ends with a
brace. -/
theorem pieces_append_closed {d : Delimiter} {inner : List Char}
    (hterm : Terminated (pieces a)) (hlast : a.getLast? ≠ some '{')
    (h : (closed d inner).Proper) :
    pieces (a ++ ((closed d inner).written ++ b)) = pieces a ++ closed d inner :: pieces b := by
  have hclosed := pieces_closed_append h b
  rw [pieces_append_of_apart hterm (seam_of_getLast? hlast), hclosed]
  intro s u _ hhead
  rw [hclosed] at hhead
  cases hhead

end Piece

end TemplateMarkup
