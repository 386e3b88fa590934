import TemplateMarkup.Delimiter
import TemplateMarkup.Proofs.Text.Containment
import TemplateMarkup.Proofs.Text.Cut

/-! # Pieces of a source

A source is cut into pieces: at an opener, a construct up to the first closer
of its family, or all the rest when there is none; elsewhere, the text up to
the next opener. Which rows of pieces arise in this way is said without
cutting, and such a row is recovered from the text it is written as.
-/

namespace TemplateMarkup

namespace Delimiter

/-- The family whose opener a text begins with. -/
def ofOpener? : List Char → Option Delimiter
  | '{' :: '%' :: _ => some tag
  | '{' :: '{' :: _ => some var
  | '{' :: '#' :: _ => some comment
  | _ => none

theorem ofOpener?_opener_append (d : Delimiter) (s : List Char) :
    ofOpener? (d.opener ++ s) = some d := by
  cases d <;> rfl

theorem ofOpener?_eq_some_iff {s : List Char} {d : Delimiter} :
    ofOpener? s = some d ↔ d.opener <+: s := by
  constructor
  · intro h
    unfold ofOpener? at h
    split at h <;> cases h <;> simp [opener]
  · rintro ⟨t, rfl⟩
    exact ofOpener?_opener_append d t

theorem exists_opener_eq (d : Delimiter) : ∃ c, d.opener = ['{', c] := by
  cases d <;> exact ⟨_, rfl⟩

/-- An opener is either inside the first part, or across the joint behind a brace, or after it. -/
theorem ofOpener?_append {v rest : List Char} {d : Delimiter} (hv : v ≠ [])
    (h : ofOpener? (v ++ rest) = some d) : d.opener <+: v ∨ v = ['{'] ∧ rest ≠ [] := by
  rw [ofOpener?_eq_some_iff] at h
  match v with
  | [] => exact absurd rfl hv
  | [c] =>
      obtain ⟨b, hb⟩ := d.exists_opener_eq
      rw [hb] at h
      cases rest with
      | nil => simp at h
      | cons a rest =>
          obtain ⟨rfl, _⟩ : '{' = c ∧ b = a := by simpa using h
          exact Or.inr ⟨rfl, List.cons_ne_nil a rest⟩
  | c :: b :: v =>
      refine Or.inl (List.prefix_of_prefix_length_le h (List.prefix_append _ _) ?_)
      simp [length_opener]

end Delimiter

/-- A stretch of a source: a text, a construct with its closer, or an opener that is never
closed with all that follows it. -/
inductive Piece where
  | text (s : List Char)
  | closed (d : Delimiter) (inner : List Char)
  | unterminated (d : Delimiter) (rest : List Char)
  deriving DecidableEq

namespace Piece

/-- A piece with its delimiters. -/
def written : Piece → List Char
  | text s => s
  | closed d inner => d.opener ++ inner ++ d.closer
  | unterminated d rest => d.opener ++ rest

/-- The first piece of a text, and what follows it. -/
def first? (s : List Char) : Option (Piece × List Char) :=
  match Delimiter.ofOpener? s with
  | some d =>
      let cut := Text.cutBefore d.closer.isPrefixOf (s.drop 2)
      if cut.2 = [] then some (unterminated d cut.1, [])
      else some (closed d cut.1, cut.2.drop 2)
  | none =>
      let cut := Text.cutBefore (fun s => (Delimiter.ofOpener? s).isSome) s
      if cut.1 = [] then none else some (text cut.1, cut.2)

/-- A text is not empty and holds no opener, a construct holds the closer of its family only at
its end, and an opener without a closer is followed by none. -/
def Proper : Piece → Prop
  | text s => s ≠ [] ∧ ∀ d : Delimiter, ¬ d.opener <:+: s
  | closed d inner => ∀ u v, inner ++ d.closer = u ++ d.closer ++ v → v = []
  | unterminated d rest => ¬ d.closer <:+: rest

/-- What may come right after a piece: after a text the end or an opener, unless the opener
would begin with the last character of the text; after an unterminated opener nothing. -/
def Before : Piece → List Char → Prop
  | text s, rest => rest = [] ∨ (Delimiter.ofOpener? rest).isSome ∧ s.getLast? ≠ some '{'
  | closed _ _, _ => True
  | unterminated _ _, rest => rest = []

theorem written_ne_nil {p : Piece} (h : p.Proper) : p.written ≠ [] := by
  cases p with
  | text s => exact h.1
  | closed d inner => cases d <;> exact List.cons_ne_nil _ _
  | unterminated d rest => cases d <;> exact List.cons_ne_nil _ _

/-- A construct is proper if its closer is neither inside it nor across its end, where only the
closer of a variable can be. -/
theorem proper_closed {d : Delimiter} {inner : List Char} (h : ¬ d.closer <:+: inner)
    (hlast : d = .var → inner.getLast? ≠ some '}') : (closed d inner).Proper := by
  intro u v huv
  rcases List.eq_nil_or_concat v with rfl | ⟨w, x, rfl⟩
  · rfl
  · exfalso
    obtain ⟨c, hcloser, hc⟩ : ∃ c, d.closer = [c, '}'] ∧ (c = '}' → d = .var) := by
      cases d <;> exact ⟨_, rfl, by decide⟩
    rw [hcloser] at h huv
    have hinner : inner ++ [c] = u ++ [c, '}'] ++ w := by
      have hends : inner ++ [c] ++ ['}'] = u ++ [c, '}'] ++ w ++ [x] := by simpa using huv
      exact (List.append_inj' hends rfl).1
    have hin : [c, '}'] <:+: inner ++ [c] := ⟨u, w, hinner.symm⟩
    rcases Text.infix_pair_append hin with hin | hin | ⟨hend, hhead⟩
    · exact h hin
    · exact absurd hin.length_le (by simp)
    · obtain rfl : c = '}' := Option.some.inj hhead
      exact hlast (hc rfl) hend

theorem cutBefore_text {s rest : List Char} (hs : (text s).Proper) (hrest : (text s).Before rest) :
    Text.cutBefore (fun s => (Delimiter.ofOpener? s).isSome) (s ++ rest) = (s, rest) := by
  refine Text.cutBefore_eq (fun u v hsplit hv => ?_) fun hne => ?_
  · rw [Bool.eq_false_iff]
    intro h
    obtain ⟨d, hd⟩ := Option.isSome_iff_exists.mp h
    rcases Delimiter.ofOpener?_append hv hd with hin | ⟨rfl, hne⟩
    · exact hs.2 d (hin.isInfix.trans ⟨u, [], by simp [hsplit]⟩)
    · rcases hrest with rfl | ⟨_, hlast⟩
      · exact hne rfl
      · exact hlast (by simp [hsplit])
  · rcases hrest with rfl | ⟨h, _⟩
    · exact absurd rfl hne
    · exact h

theorem cutBefore_closed {d : Delimiter} {inner : List Char} (h : (closed d inner).Proper)
    (rest : List Char) :
    Text.cutBefore d.closer.isPrefixOf (inner ++ (d.closer ++ rest)) =
      (inner, d.closer ++ rest) := by
  refine Text.cutBefore_eq (fun u v hsplit hv => ?_) fun _ => by simp
  rw [Bool.eq_false_iff, ne_eq, List.isPrefixOf_iff_prefix, ← List.append_assoc]
  intro hpre
  obtain ⟨w, hw⟩ : d.closer <+: v ++ d.closer :=
    List.prefix_of_prefix_length_le hpre (List.prefix_append _ _) (by simp)
  have hnil : w = [] := h u w (by rw [hsplit, List.append_assoc, ← hw, List.append_assoc])
  have hlen := congrArg List.length hw
  rw [hnil, List.append_nil, List.length_append] at hlen
  exact hv (List.length_eq_zero_iff.mp (by omega))

theorem cutBefore_unterminated {d : Delimiter} {rest : List Char}
    (h : (unterminated d rest).Proper) :
    Text.cutBefore d.closer.isPrefixOf rest = (rest, []) := by
  have hwhole : Text.cutBefore d.closer.isPrefixOf (rest ++ []) = (rest, []) := by
    refine Text.cutBefore_eq (fun u v hsplit _ => ?_) fun hne => absurd rfl hne
    rw [Bool.eq_false_iff, ne_eq, List.isPrefixOf_iff_prefix, List.append_nil]
    exact fun hpre => h (hpre.isInfix.trans ⟨u, [], by simp [hsplit]⟩)
  rwa [List.append_nil] at hwhole

theorem ofOpener?_text {s rest : List Char} (hs : (text s).Proper)
    (hrest : (text s).Before rest) : Delimiter.ofOpener? (s ++ rest) = none := by
  rw [Option.eq_none_iff_forall_ne_some]
  intro d hd
  rcases Delimiter.ofOpener?_append hs.1 hd with hin | ⟨rfl, hne⟩
  · exact hs.2 d hin.isInfix
  · rcases hrest with h | ⟨_, hlast⟩
    · exact hne h
    · exact hlast rfl

/-- A piece is read back from what it is written as. -/
theorem first?_written_append {p : Piece} {rest : List Char} (hp : p.Proper)
    (hrest : p.Before rest) : first? (p.written ++ rest) = some (p, rest) := by
  cases p with
  | text s =>
      simp [first?, written, ofOpener?_text hp hrest, cutBefore_text hp hrest, hp.1]
  | closed d inner =>
      have hne : d.closer ++ rest ≠ [] := by cases d <;> exact List.cons_ne_nil _ _
      have hdrop : (d.closer ++ rest).drop 2 = rest := by cases d <;> rfl
      have hinner : (d.opener ++ (inner ++ (d.closer ++ rest))).drop 2 =
          inner ++ (d.closer ++ rest) := by cases d <;> rfl
      simp only [first?, written, List.append_assoc, Delimiter.ofOpener?_opener_append, hinner,
        cutBefore_closed hp, if_neg hne, hdrop]
  | unterminated d tail =>
      obtain rfl : rest = [] := hrest
      have hinner : (d.opener ++ tail).drop 2 = tail := by cases d <;> rfl
      simp only [first?, written, List.append_nil, Delimiter.ofOpener?_opener_append, hinner,
        cutBefore_unterminated hp, if_pos]

theorem not_isPrefixOf_of_cut {d : Delimiter} {t u v : List Char}
    (h : (Text.cutBefore d.closer.isPrefixOf t).1 = u ++ v) (hv : v ≠ []) :
    ¬ d.closer <+: v ++ (Text.cutBefore d.closer.isPrefixOf t).2 := by
  rw [← List.isPrefixOf_iff_prefix, Text.not_stop_of_cutBefore_fst h hv]
  exact Bool.false_ne_true

/-- Without a closer ahead nothing is cut off. -/
theorem proper_unterminated_of_cut {d : Delimiter} {t : List Char}
    (h : (Text.cutBefore d.closer.isPrefixOf t).2 = []) :
    (unterminated d (Text.cutBefore d.closer.isPrefixOf t).1).Proper := by
  rintro ⟨u, v, huv⟩
  have hne : d.closer ++ v ≠ [] := by cases d <;> exact List.cons_ne_nil _ _
  apply not_isPrefixOf_of_cut (u := u) (by rw [← huv, List.append_assoc]) hne
  rw [h, List.append_nil]
  exact List.prefix_append _ _

/-- The cut is before the first closer. -/
theorem proper_closed_of_cut {d : Delimiter} {t after : List Char}
    (h : d.closer ++ after = (Text.cutBefore d.closer.isPrefixOf t).2) :
    (closed d (Text.cutBefore d.closer.isPrefixOf t).1).Proper := by
  intro u v huv
  apply Decidable.byContradiction
  intro hv
  have hlen := congrArg List.length huv
  have hpos := List.length_pos_iff.mpr hv
  simp only [List.length_append] at hlen
  obtain ⟨w, hw⟩ : u <+: (Text.cutBefore d.closer.isPrefixOf t).1 :=
    List.prefix_of_prefix_length_le (List.prefix_append u (d.closer ++ v))
      (by rw [← List.append_assoc, ← huv]; exact List.prefix_append _ _) (by omega)
  have hwne : w ≠ [] := by
    rintro rfl
    rw [List.append_nil] at hw
    rw [← hw] at hlen
    omega
  apply not_isPrefixOf_of_cut hw.symm hwne
  rw [← hw, List.append_assoc, List.append_assoc, List.append_cancel_left_eq] at huv
  rw [← h, ← List.append_assoc, huv, List.append_assoc]
  exact List.prefix_append _ _

theorem first?_sound_opener {s t rest : List Char} {d : Delimiter} {p : Piece}
    (hs : s = d.opener ++ t) (h : first? s = some (p, rest)) :
    p.written ++ rest = s ∧ p.Proper ∧ p.Before rest := by
  have hdrop : (d.opener ++ t).drop 2 = t := by cases d <;> rfl
  have happend := Text.cutBefore_append d.closer.isPrefixOf t
  simp only [first?, hs, Delimiter.ofOpener?_opener_append, hdrop] at h
  split at h
  · rename_i hnil
    obtain ⟨rfl, rfl⟩ := Prod.mk.inj (Option.some.inj h)
    refine ⟨?_, proper_unterminated_of_cut hnil, rfl⟩
    rw [hnil, List.append_nil] at happend
    simp [written, hs, happend]
  · rename_i hne
    obtain ⟨rfl, rfl⟩ := Prod.mk.inj (Option.some.inj h)
    obtain ⟨after, hafter⟩ := List.isPrefixOf_iff_prefix.mp (Text.stop_cutBefore_snd hne)
    have hrest : (Text.cutBefore d.closer.isPrefixOf t).2.drop 2 = after := by
      rw [← hafter]
      cases d <;> rfl
    rw [hrest]
    exact ⟨by simp [written, hs, hafter, happend], proper_closed_of_cut hafter, trivial⟩

theorem first?_sound_text {s rest : List Char} {p : Piece} (hs : Delimiter.ofOpener? s = none)
    (h : first? s = some (p, rest)) : p.written ++ rest = s ∧ p.Proper ∧ p.Before rest := by
  simp only [first?, hs] at h
  split at h
  · simp at h
  · rename_i hne
    obtain ⟨rfl, rfl⟩ := Prod.mk.inj (Option.some.inj h)
    refine ⟨Text.cutBefore_append _ s, ⟨hne, ?_⟩, ?_⟩
    · rintro d ⟨u, v, huv⟩
      have hstop := Text.not_stop_of_cutBefore_fst (u := u) (v := d.opener ++ v)
        (by rw [← huv, List.append_assoc]) (by cases d <;> exact List.cons_ne_nil _ _)
      simp [List.append_assoc, Delimiter.ofOpener?_opener_append] at hstop
    · by_cases hrest : (Text.cutBefore (fun s => (Delimiter.ofOpener? s).isSome) s).2 = []
      · exact Or.inl hrest
      · have hopen := Text.stop_cutBefore_snd hrest
        refine Or.inr ⟨hopen, fun hlast => ?_⟩
        obtain ⟨d, hd⟩ := Option.isSome_iff_exists.mp hopen
        obtain ⟨after, hafter⟩ := Delimiter.ofOpener?_eq_some_iff.mp hd
        obtain ⟨c, hc⟩ := d.exists_opener_eq
        obtain ⟨u, hu⟩ := List.getLast?_eq_some_iff.mp hlast
        have hstop := Text.not_stop_of_cutBefore_fst hu (List.cons_ne_nil _ _)
        rw [← hafter, hc] at hstop
        simp [Delimiter.ofOpener?] at hstop

/-- The first piece of a text is the one proper piece the text begins with. -/
theorem first?_eq_some_iff {s rest : List Char} {p : Piece} :
    first? s = some (p, rest) ↔ p.written ++ rest = s ∧ p.Proper ∧ p.Before rest := by
  constructor
  · intro h
    cases hs : Delimiter.ofOpener? s with
    | none => exact first?_sound_text hs h
    | some d =>
        obtain ⟨t, ht⟩ := Delimiter.ofOpener?_eq_some_iff.mp hs
        exact first?_sound_opener ht.symm h
  · rintro ⟨rfl, hp, hrest⟩
    exact first?_written_append hp hrest

theorem first?_eq_none_iff {s : List Char} : first? s = none ↔ s = [] := by
  constructor
  · intro h
    cases s with
    | nil => rfl
    | cons c s =>
        exfalso
        cases hopen : Delimiter.ofOpener? (c :: s) with
        | none => simp [first?, hopen, Text.cutBefore] at h
        | some d =>
            simp only [first?, hopen] at h
            split at h <;> cases h
  · rintro rfl
    rfl

theorem length_lt_of_first? {s rest : List Char} {p : Piece} (h : first? s = some (p, rest)) :
    rest.length < s.length := by
  obtain ⟨rfl, hp, _⟩ := first?_eq_some_iff.mp h
  have := List.length_pos_iff.mpr (written_ne_nil hp)
  simp only [List.length_append]
  omega

/-- The text that a row of pieces is written as. -/
def writtenAll (ps : List Piece) : List Char :=
  ps.flatMap written

@[simp] theorem writtenAll_nil : writtenAll [] = [] := rfl

@[simp] theorem writtenAll_cons (p : Piece) (ps : List Piece) :
    writtenAll (p :: ps) = p.written ++ writtenAll ps := rfl

/-- All pieces of a text, from left to right. -/
def pieces (s : List Char) : List Piece :=
  match _h : first? s with
  | none => []
  | some (p, rest) => p :: pieces rest
termination_by s.length
decreasing_by exact length_lt_of_first? _h

@[simp] theorem pieces_nil : pieces [] = [] := by
  rw [pieces]
  rfl

theorem pieces_of_first? {s rest : List Char} {p : Piece} (h : first? s = some (p, rest)) :
    pieces s = p :: pieces rest := by
  rw [pieces]
  split
  · rename_i hnone
    rw [h] at hnone
    cases hnone
  · rename_i hsome
    rw [h] at hsome
    cases hsome
    rfl

/-- The rows of pieces that a text can be cut into. -/
def Row : List Piece → Prop
  | [] => True
  | p :: ps => p.Proper ∧ p.Before (writtenAll ps) ∧ Row ps

theorem eq_nil_of_writtenAll {ps : List Piece} (h : Row ps) (hnil : writtenAll ps = []) :
    ps = [] := by
  cases ps with
  | nil => rfl
  | cons p ps => exact absurd (List.append_eq_nil_iff.mp hnil).1 (written_ne_nil h.1)

theorem writtenAll_ne_nil {ps : List Piece} (h : Row ps) (hne : ps ≠ []) : writtenAll ps ≠ [] :=
  fun hnil => hne (eq_nil_of_writtenAll h hnil)

/-- A row of pieces is recovered from the text it is written as. -/
theorem pieces_writtenAll {ps : List Piece} (h : Row ps) : pieces (writtenAll ps) = ps := by
  induction ps with
  | nil => exact pieces_nil
  | cons p ps ih =>
      obtain ⟨hp, hbefore, hps⟩ := h
      rw [writtenAll_cons, pieces_of_first? (first?_written_append hp hbefore), ih hps]

/-- Induction on the pieces of a text. -/
theorem pieces_induction {motive : List Char → List Piece → Prop} (nil : motive [] [])
    (cons : ∀ p rest, p.Proper → p.Before rest → motive rest (pieces rest) →
      motive (p.written ++ rest) (p :: pieces rest)) (s : List Char) : motive s (pieces s) := by
  induction s using pieces.induct with
  | case1 s hnone =>
      obtain rfl := first?_eq_none_iff.mp hnone
      rw [pieces_nil]
      exact nil
  | case2 s p rest hsome ih =>
      rw [pieces_of_first? hsome]
      obtain ⟨rfl, hp, hrest⟩ := first?_eq_some_iff.mp hsome
      exact cons p rest hp hrest ih

@[simp] theorem writtenAll_pieces (s : List Char) : writtenAll (pieces s) = s := by
  induction s using pieces_induction with
  | nil => rfl
  | cons p rest _ _ ih => rw [writtenAll_cons, ih]

theorem row_pieces (s : List Char) : Row (pieces s) := by
  induction s using pieces_induction with
  | nil => trivial
  | cons p rest hp hrest ih => exact ⟨hp, by rwa [writtenAll_pieces], ih⟩

end Piece

end TemplateMarkup
