import TemplateMarkup.Proofs.Composition.Displacement
import TemplateMarkup.Proofs.Composition.Joints
import TemplateMarkup.Proofs.Failure.Places
import TemplateMarkup.Proofs.RoundTrip.Retokenizing

/-! # Sources in succession

Behind a source that is tokenized, another one is tokenized as if it stood
alone. At the end of the first no block is open, so that nothing of it is left
to the second. Only two texts that meet are one token, and only together can
both be blank.
-/

namespace TemplateMarkup

open Text Outcome Piece Token

variable {registry : Registry} {segments back : List Segment} {t : Tokenizer} {e : TemplateError}
  {a b : List Char} {ts us : List Token}

/-- A brace at the end of a source makes an opener with a brace, a percent sign or a hash only. -/
theorem seam_of_not_opener (h : ¬ (a.getLast? = some '{' ∧
    (b.head? = some '{' ∨ b.head? = some '%' ∨ b.head? = some '#'))) : Seam a b := by
  intro hlast
  cases hopen : Delimiter.ofOpener? ('{' :: b) with
  | none => rfl
  | some d =>
      obtain ⟨tail, htail⟩ := Delimiter.ofOpener?_eq_some_iff.mp hopen
      refine absurd ⟨hlast, ?_⟩ h
      cases d with
      | tag =>
          obtain rfl := (List.cons.inj htail).2
          exact Or.inr (Or.inl rfl)
      | var =>
          obtain rfl := (List.cons.inj htail).2
          exact Or.inl rfl
      | comment =>
          obtain rfl := (List.cons.inj htail).2
          exact Or.inr (Or.inr rfl)

namespace Tokenizer

theorem closeAll_eq_ok_iff {opens : List (Nat × List Char)} :
    closeAll opens = .ok () ↔ opens = [] := by
  rw [closeAll, ← List.getLast?_eq_none_iff]
  cases opens.getLast? <;> simp

/-- Where a source is tokenized, every block in it is closed. -/
theorem followAll_of_forest (hscan : scan a = .ok segments) (h : t.forest a = .ok ts) :
    t.followAll [] segments = .ok [] := by
  have hverdict : t.verdict segments = .ok () := by
    rw [← map_forest hscan, h]
    rfl
  obtain ⟨opens, hfollow, hclose⟩ := bind_eq_ok_iff.mp hverdict
  rw [hfollow, closeAll_eq_ok_iff.mp hclose]

/-- Segments that are moved have the verdict they had, with its place moved. -/
theorem verdict_shift (t : Tokenizer) (segments : List Segment) (k : Nat) :
    t.verdict (segments.map (Segment.relocate (· + k))) =
      relocate (· + k) (t.verdict segments) := by
  have hmoved : ∀ s ∈ segments, ∀ o, s.offset ≤ o → (· + k) o = o + k := fun _ _ _ _ => rfl
  rw [verdict, verdict]
  change t.followAll (List.map (moveBlock (· + k)) []) _ >>= closeAll = _
  rw [followAll_relocate hmoved]
  cases t.followAll [] segments with
  | error e => rfl
  | ok opens => exact closeAll_relocate _ opens

/-- Behind a source that is tokenized, what is read from another one decides alone whether it is
refused. -/
theorem verdict_append_of_forest (hscan : scan a = .ok segments) (h : t.forest a = .ok ts)
    (others : List Segment) : t.verdict (segments ++ others) = t.verdict others := by
  rw [verdict_append, followAll_of_forest hscan h]
  rfl

/-- A row of segments behind another one is read as its own items. -/
theorem map_ofSegment_append_shift {items others : List Item} {k : Nat}
    (hitems : segments.map (Item.ofSegment registry) = items.map .ok)
    (hothers : back.map (Item.ofSegment registry) = others.map .ok) :
    (segments ++ back.map (Segment.relocate (· + k))).map (Item.ofSegment registry) =
      (items ++ others).map .ok := by
  have hmoved : (back.map (Segment.relocate (· + k))).map (Item.ofSegment registry) =
      others.map .ok := (map_ofSegment_relocate_iff fun _ _ _ _ => rfl).mpr hothers
  rw [List.map_append, List.map_append, hitems, hmoved]

/-- Behind a source that is tokenized, another source fails as it does alone. -/
theorem forest_append_of_error (ha : t.forest a = .ok ts) (hseam : Seam a b)
    (hb : t.forest b = .error e) :
    t.forest (a ++ b) = .error (e.relocate (· + byteSize a)) := by
  obtain ⟨segments, hscan, _, _⟩ := forest_eq_ok_iff.mp ha
  obtain ⟨hfail, hgoes⟩ := scan_append hscan hseam
  rw [segments_shift, ← scan_eq_segments_pieces] at hfail hgoes
  cases hback : scan b with
  | error d =>
      rw [tokenize_eq_error_iff.mp (tokenize_of_scan_error hback)] at hb
      obtain rfl := Except.error.inj hb
      rw [hback] at hfail
      exact tokenize_eq_error_iff.mp (tokenize_of_scan_error (hfail _ rfl))
  | ok back =>
      rw [hback] at hgoes
      obtain ⟨joined, hjoined, hjoin⟩ := hgoes _ rfl
      rw [forest_eq_error_iff_verdict hjoined, ← verdict_congr hjoin.filter_eq,
        verdict_append_of_forest hscan ha, verdict_shift,
        (forest_eq_error_iff_verdict hback).mp hb]
      rfl

/-- Behind a source that is tokenized, the tokens of another source follow, up to texts that
meet. -/
theorem forest_append_of_ok (ha : t.forest a = .ok ts) (hseam : Seam a b)
    (hb : t.forest b = .ok us) :
    ∃ vs, t.forest (a ++ b) = .ok vs ∧ mergeAll vs = mergeAll (ts ++ us) := by
  obtain ⟨segments, hscan, hts, hread⟩ := forest_eq_ok_iff.mp ha
  obtain ⟨back, hback, hus, hreadback⟩ := forest_eq_ok_iff.mp hb
  obtain ⟨_, hgoes⟩ := scan_append hscan hseam
  rw [segments_shift, ← scan_eq_segments_pieces, hback] at hgoes
  obtain ⟨joined, hjoined, hjoin⟩ := hgoes _ rfl
  have hverdict : t.verdict joined = .ok () := by
    rw [← verdict_congr hjoin.filter_eq, verdict_append_of_forest hscan ha, verdict_shift,
      ← map_forest hback, hb]
    rfl
  obtain ⟨vs, hvs, hfits, hreadjoined⟩ := exists_forest_of_verdict hjoined hverdict
  obtain ⟨others, hothers, hmerge⟩ := hjoin.exists_items hreadjoined
  -- both rows of items are read from the same segments
  rw [map_ofSegment_append_shift hread hreadback] at hothers
  obtain rfl := eq_of_map_ok hothers
  refine ⟨vs, hvs, mergeAll_eq_of_mergeRow_eq hfits ((fitsAll_append ts us).mpr ⟨hts, hus⟩) ?_⟩
  rw [itemsAll_append, hmerge]

/-- Where the first of two sources in succession is tokenized, they fail exactly if the other fails
alone, with its error at a place that is moved by the first. Otherwise their tokens are those of
both forests, one behind the other, when texts that follow one another are joined, or none if both
forests are blank. -/
theorem tokenize_append (ha : t.tokenize a = .ok ts) (hseam : ¬ (a.getLast? = some '{' ∧
    (b.head? = some '{' ∨ b.head? = some '%' ∨ b.head? = some '#'))) :
    ((∃ e, t.tokenize (a ++ b) = .error e) ↔ ∃ e, t.tokenize b = .error e) ∧
      (∀ e, t.tokenize b = .error e →
        t.tokenize (a ++ b) = .error (e.relocate (· + byteSize a)) ∧
          (e.relocate (· + byteSize a)).offset = e.offset + byteSize a) ∧
      ∀ us, t.tokenize b = .ok us → ∃ as bs vs, t.forest a = .ok as ∧ t.forest b = .ok bs ∧
        t.tokenize (a ++ b) = .ok vs ∧ ((as ++ bs).all isBlank = true → vs = []) ∧
          ((as ++ bs).all isBlank = false → mergeAll vs = mergeAll (as ++ bs)) := by
  obtain ⟨as, has, _⟩ := tokenize_eq_ok_iff.mp ha
  have hjoint := seam_of_not_opener hseam
  have hfails : ∀ e, t.tokenize b = .error e →
      t.tokenize (a ++ b) = .error (e.relocate (· + byteSize a)) := fun e he =>
    tokenize_eq_error_iff.mpr (forest_append_of_error has hjoint (tokenize_eq_error_iff.mp he))
  have hgoes : ∀ us, t.tokenize b = .ok us → ∃ bs vs, t.forest b = .ok bs ∧
      t.forest (a ++ b) = .ok vs ∧ mergeAll vs = mergeAll (as ++ bs) := by
    intro us hus
    obtain ⟨bs, hbs, _⟩ := tokenize_eq_ok_iff.mp hus
    obtain ⟨vs, hvs, hmerge⟩ := forest_append_of_ok has hjoint hbs
    exact ⟨bs, vs, hbs, hvs, hmerge⟩
  refine ⟨⟨?_, fun ⟨e, he⟩ => ⟨_, hfails e he⟩⟩, fun e he => ⟨hfails e he, ?_⟩, fun us hus => ?_⟩
  · rintro ⟨e, he⟩
    cases hb : t.tokenize b with
    | error d => exact ⟨d, rfl⟩
    | ok us =>
        obtain ⟨_, vs, _, hvs, _⟩ := hgoes us hb
        rw [tokenize_eq_error_iff, hvs] at he
        cases he
  · have hpoints := pointsInto_of_error he
    cases e with
    | grammar fault => exact hpoints.elim
    | _ => rfl
  · obtain ⟨bs, vs, hbs, hvs, hmerge⟩ := hgoes us hus
    have hblank : vs.all isBlank = (as ++ bs).all isBlank := by
      rw [← all_isBlank_mergeAll, hmerge, all_isBlank_mergeAll]
    refine ⟨as, bs, _, has, hbs, tokenize_eq_ok_iff.mpr ⟨vs, hvs, rfl⟩, fun hall => ?_,
      fun hall => ?_⟩
    · simp [clearBlank, hblank, hall]
    · simp [clearBlank, hblank, hall, hmerge]

/-- Two texts that meet before a variable, and a closing tag behind a character of two bytes. -/
theorem tokenize_append_to_text :
    (∃ vs, (⟨.empty, 0⟩ : Tokenizer).tokenize (['é'] ++ ['y', '{', '{', 'v', '}', '}']) = .ok vs ∧
      mergeAll vs = [.text ['é', 'y'], .var ⟨['v'], [], false, none⟩]) ∧
      (⟨.empty, 0⟩ : Tokenizer).tokenize (['é'] ++ displayWords [closerName ['o']]) =
        .error (.unbalancedClose ['o'] none 2) := by
  have ha : (⟨.empty, 0⟩ : Tokenizer).tokenize ['é'] = .ok [.text ['é']] := by rfl
  have hforest : (⟨.empty, 0⟩ : Tokenizer).forest ['é'] = .ok [.text ['é']] := by rfl
  have hb : (⟨.empty, 0⟩ : Tokenizer).forest ['y', '{', '{', 'v', '}', '}'] =
      .ok [.text ['y'], .var ⟨['v'], [], false, none⟩] := by rfl
  have hfail : (⟨.empty, 0⟩ : Tokenizer).tokenize (displayWords [closerName ['o']]) =
      .error (.unbalancedClose ['o'] none 0) := by rfl
  obtain ⟨_, _, hgoes⟩ := tokenize_append (b := ['y', '{', '{', 'v', '}', '}']) ha (by decide)
  obtain ⟨_, herror, _⟩ := tokenize_append (b := displayWords [closerName ['o']]) ha (by decide)
  obtain ⟨as, bs, vs, has, hbs, hvs, _, hmerge⟩ := hgoes _ (tokenize_eq_ok_iff.mpr ⟨_, hb, rfl⟩)
  rw [hforest] at has
  rw [hb] at hbs
  cases has
  cases hbs
  exact ⟨⟨vs, hvs, hmerge rfl⟩, (herror _ hfail).1⟩

end Tokenizer

end TemplateMarkup
