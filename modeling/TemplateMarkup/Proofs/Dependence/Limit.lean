import TemplateMarkup.Proofs.Failure.Outline
import TemplateMarkup.Proofs.Failure.Places
import TemplateMarkup.Proofs.Forest.Height

/-! # The limit on open blocks

Two runs with different limits go the same way up to the first opening tag that
finds as many blocks open as the lower limit admits. There the run with the
lower limit stops. If a source has tokens under some limit, their height decides
which other limits give the same tokens.
-/

namespace TemplateMarkup

open Outcome Token

theorem Nesting.place_eq_of_room {limit maxDepth offset : Nat} {n : Nesting} {item : Item}
    (h : limit ≤ maxDepth) (hroom : ∀ name args, item = .opening name args → n.depth < limit) :
    n.place limit offset item = n.place maxDepth offset item := by
  cases item with
  | text s => rfl
  | var v => rfl
  | inline name args => rfl
  | opening name args =>
      have hlt := hroom name args rfl
      rw [place, place, if_neg (Nat.not_le_of_lt hlt),
        if_neg (Nat.not_le_of_lt (Nat.lt_of_lt_of_le hlt h))]
  | closing name => rfl

namespace Tokenizer

/-- The tokenizer with another limit on the number of open blocks. -/
def withMaxDepth (t : Tokenizer) (limit : Nat) : Tokenizer :=
  { t with maxDepth := limit }

@[simp] theorem registry_withMaxDepth (t : Tokenizer) (limit : Nat) :
    (t.withMaxDepth limit).registry = t.registry := rfl

@[simp] theorem maxDepth_withMaxDepth (t : Tokenizer) (limit : Nat) :
    (t.withMaxDepth limit).maxDepth = limit := rfl

/-- Whether a run that takes in a row of segments comes to the opening tag of a block, given by
its name and offset, and finds a number of blocks open there. -/
inductive MeetsOpening (t : Tokenizer) :
    Nesting → List Segment → List Char → Nat → Nat → Prop
  | here {n : Nesting} {s : Segment} {segments : List Segment} {name : List Char}
      {args : List (List Char)} (read : Item.ofSegment t.registry s = .ok (.opening name args)) :
      MeetsOpening t n (s :: segments) name s.offset n.depth
  | later {n next : Nesting} {s : Segment} {segments : List Segment} {name : List Char}
      {offset depth : Nat} (taken : t.step n s = .ok next)
      (meets : MeetsOpening t next segments name offset depth) :
      MeetsOpening t n (s :: segments) name offset depth

/-- Whether the run over a source comes to the opening tag of a block while at least as many
blocks are open as a limit admits. -/
def OpensBeyond (t : Tokenizer) (limit : Nat) (source : List Char) (name : List Char)
    (offset : Nat) : Prop :=
  ∃ segments depth, scan source = .ok segments ∧
    t.MeetsOpening .empty segments name offset depth ∧ limit ≤ depth

variable {t : Tokenizer} {n : Nesting} {s : Segment} {segments : List Segment}
  {source name : List Char} {limit offset depth : Nat}

theorem MeetsOpening.exists_mem (h : t.MeetsOpening n segments name offset depth) :
    ∃ s ∈ segments, s.offset = offset := by
  induction h with
  | here read => exact ⟨_, List.mem_cons_self .., rfl⟩
  | later _ _ ih =>
      obtain ⟨s, hs, hoffset⟩ := ih
      exact ⟨s, List.mem_cons_of_mem _ hs, hoffset⟩

/-- A step runs into the limit exactly at an opening tag that finds the limit reached. -/
theorem step_eq_nestingTooDeep_iff {maxDepth : Nat} :
    t.step n s = .error (.nestingTooDeep name maxDepth offset) ↔
      (∃ args, Item.ofSegment t.registry s = .ok (.opening name args)) ∧ t.maxDepth ≤ n.depth ∧
        maxDepth = t.maxDepth ∧ offset = s.offset := by
  constructor
  · intro h
    rcases bind_eq_error_iff.mp h with hread | ⟨item, hread, hplace⟩
    · cases Item.isNesting_of_ofSegment_error hread
    · rcases Nesting.place_eq_error_iff.mp hplace with
        ⟨_, args, rfl, hdepth, he⟩ | ⟨_, _, _, he⟩
      · cases he
        exact ⟨⟨args, hread⟩, hdepth, rfl, rfl⟩
      · cases he
  · rintro ⟨⟨args, hread⟩, hdepth, rfl, rfl⟩
    refine bind_eq_error_iff.mpr (Or.inr ⟨_, hread, ?_⟩)
    exact Nesting.place_eq_error_iff.mpr (Or.inl ⟨name, args, rfl, hdepth, rfl⟩)

theorem step_withMaxDepth (h : limit ≤ t.maxDepth)
    (hroom : ∀ name args, Item.ofSegment t.registry s = .ok (.opening name args) →
      n.depth < limit) :
    (t.withMaxDepth limit).step n s = t.step n s := by
  rw [step, step, registry_withMaxDepth, maxDepth_withMaxDepth]
  cases hread : Item.ofSegment t.registry s with
  | error e => rfl
  | ok item =>
      refine Nesting.place_eq_of_room h fun name args hitem => hroom name args ?_
      rw [hread, hitem]

/-- A run that ends at the limit comes to an opening tag that finds the limit reached. -/
theorem meetsOpening_of_nest_error {maxDepth : Nat}
    (h : t.nest n segments = .error (.nestingTooDeep name maxDepth offset)) :
    ∃ depth, t.MeetsOpening n segments name offset depth ∧ t.maxDepth ≤ depth := by
  induction segments generalizing n with
  | nil => cases h
  | cons s segments ih =>
      rw [nest_cons] at h
      rcases bind_eq_error_iff.mp h with hstep | ⟨next, hstep, hrest⟩
      · obtain ⟨⟨args, hread⟩, hdepth, _, rfl⟩ := step_eq_nestingTooDeep_iff.mp hstep
        exact ⟨n.depth, .here hread, hdepth⟩
      · obtain ⟨depth, hmeets, hdepth⟩ := ih hrest
        exact ⟨depth, .later hstep hmeets, hdepth⟩

/-- With a lower limit a run goes the same way, unless it comes to an opening tag that finds the
lower limit reached; then it ends at the first such tag. -/
theorem nest_withMaxDepth (h : limit ≤ t.maxDepth) (n : Nesting)
    (hordered : segments.Pairwise fun s u => s.offset < u.offset) :
    ((t.withMaxDepth limit).nest n segments = t.nest n segments ∧
      ∀ name offset depth, t.MeetsOpening n segments name offset depth → depth < limit) ∨
    ∃ name offset depth, (t.withMaxDepth limit).nest n segments =
        .error (.nestingTooDeep name limit offset) ∧
      (t.MeetsOpening n segments name offset depth ∧ limit ≤ depth) ∧
        ∀ other start below, t.MeetsOpening n segments other start below → limit ≤ below →
          offset ≤ start := by
  induction segments generalizing n with
  | nil => exact Or.inl ⟨rfl, fun _ _ _ hmeets => nomatch hmeets⟩
  | cons s segments ih =>
      obtain ⟨hs, hsegments⟩ := List.pairwise_cons.mp hordered
      rw [nest_cons, nest_cons]
      by_cases hfull : ∃ name args,
          Item.ofSegment t.registry s = .ok (.opening name args) ∧ limit ≤ n.depth
      · obtain ⟨name, args, hread, hdepth⟩ := hfull
        have hstep : (t.withMaxDepth limit).step n s =
            .error (.nestingTooDeep name limit s.offset) :=
          step_eq_nestingTooDeep_iff.mpr ⟨⟨args, hread⟩, hdepth, rfl, rfl⟩
        refine Or.inr ⟨name, s.offset, n.depth, by rw [hstep]; rfl, ⟨.here hread, hdepth⟩, ?_⟩
        intro other start below hmeets _
        obtain ⟨u, hu, rfl⟩ := hmeets.exists_mem
        rcases List.mem_cons.mp hu with rfl | hu
        · exact Nat.le_refl _
        · exact Nat.le_of_lt (hs u hu)
      · have hroom : ∀ name args, Item.ofSegment t.registry s = .ok (.opening name args) →
            n.depth < limit :=
          fun name args hread => Nat.lt_of_not_le fun hdepth => hfull ⟨name, args, hread, hdepth⟩
        rw [step_withMaxDepth h hroom]
        cases hstep : t.step n s with
        | error e =>
            refine Or.inl ⟨rfl, fun name offset depth hmeets => ?_⟩
            cases hmeets with
            | here read => exact hroom _ _ read
            | later taken _ => cases hstep.symm.trans taken
        | ok next =>
            rcases ih next hsegments with ⟨hnest, hbelow⟩ |
              ⟨name, offset, depth, hnest, ⟨hmeets, hdepth⟩, hfirst⟩
            · refine Or.inl ⟨hnest, fun name offset depth hmeets => ?_⟩
              cases hmeets with
              | here read => exact hroom _ _ read
              | later taken meets =>
                  cases hstep.symm.trans taken
                  exact hbelow _ _ _ meets
            · refine Or.inr ⟨name, offset, depth, hnest, ⟨.later hstep hmeets, hdepth⟩, ?_⟩
              intro other start below hother hbelow
              cases hother with
              | here read => exact absurd (hroom _ _ read) (Nat.not_lt_of_le hbelow)
              | later taken meets =>
                  cases hstep.symm.trans taken
                  exact hfirst _ _ _ meets hbelow

theorem tokenize_of_scan (hscan : scan source = .ok segments) :
    t.tokenize source = (t.nest .empty segments >>= Nesting.finish).map clearBlank := by
  rw [tokenize, forest_of_scan hscan]

/-- Only placing the segments can run into the limit. -/
theorem tokenize_eq_nestingTooDeep_iff {maxDepth : Nat} :
    t.tokenize source = .error (.nestingTooDeep name maxDepth offset) ↔
      ∃ segments, scan source = .ok segments ∧
        t.nest .empty segments = .error (.nestingTooDeep name maxDepth offset) := by
  cases hscan : scan source with
  | error e =>
      obtain ⟨_, d, _, _, _, rfl⟩ := exists_opener_of_scan_error hscan
      simp [tokenize_of_scan_error hscan]
  | ok segments =>
      rw [tokenize_of_scan hscan, map_eq_error_iff, bind_eq_error_iff]
      simp [Nesting.finish_eq_error_iff]

theorem opensBeyond_of_tokenize {maxDepth : Nat} (h : limit ≤ t.maxDepth)
    (htokenize : t.tokenize source = .error (.nestingTooDeep name maxDepth offset)) :
    t.OpensBeyond limit source name offset := by
  obtain ⟨segments, hscan, hnest⟩ := tokenize_eq_nestingTooDeep_iff.mp htokenize
  obtain ⟨depth, hmeets, hdepth⟩ := meetsOpening_of_nest_error hnest
  exact ⟨segments, depth, hscan, hmeets, Nat.le_trans h hdepth⟩

/-- Either no opening tag finds the lower limit reached, and the outcome is the same, or the first
that does is the error. -/
theorem tokenize_withMaxDepth_cases (h : limit ≤ t.maxDepth) (source : List Char) :
    ((t.withMaxDepth limit).tokenize source = t.tokenize source ∧
      ∀ name offset, ¬ t.OpensBeyond limit source name offset) ∨
    ∃ name offset, (t.withMaxDepth limit).tokenize source =
        .error (.nestingTooDeep name limit offset) ∧ t.OpensBeyond limit source name offset ∧
      ∀ other start, t.OpensBeyond limit source other start → offset ≤ start := by
  cases hscan : scan source with
  | error e =>
      refine Or.inl ⟨?_, ?_⟩
      · rw [tokenize_of_scan_error hscan, tokenize_of_scan_error hscan]
      · rintro name offset ⟨segments, _, hfound, _⟩
        cases hscan.symm.trans hfound
  | ok segments =>
      rcases nest_withMaxDepth h .empty (pairwise_offset_of_scan hscan) with
        ⟨hnest, hbelow⟩ | ⟨name, offset, depth, hnest, ⟨hmeets, hdepth⟩, hfirst⟩
      · refine Or.inl ⟨?_, ?_⟩
        · rw [tokenize_of_scan hscan, tokenize_of_scan hscan, hnest]
        · rintro name offset ⟨_, depth, hfound, hmeets, hdepth⟩
          cases hscan.symm.trans hfound
          exact Nat.not_lt_of_le hdepth (hbelow _ _ _ hmeets)
      · refine Or.inr ⟨name, offset, ?_, ⟨segments, depth, hscan, hmeets, hdepth⟩, ?_⟩
        · exact tokenize_eq_nestingTooDeep_iff.mpr ⟨segments, hscan, hnest⟩
        · rintro other start ⟨_, below, hfound, hother, hbelow⟩
          cases hscan.symm.trans hfound
          exact hfirst _ _ _ hother hbelow

theorem heightAll_clearBlank (ts : List Token) : heightAll (clearBlank ts) = heightAll ts :=
  apply_clearBlank heightAll (fun _ hblank => heightAll_of_blank hblank) ts

theorem heightAll_le_of_tokenize {ts : List Token} (h : t.tokenize source = .ok ts) :
    heightAll ts ≤ t.maxDepth := by
  obtain ⟨us, hforest, rfl⟩ := tokenize_eq_ok_iff.mp h
  obtain ⟨_, _, hfits, _⟩ := forest_eq_ok_iff.mp hforest
  rw [heightAll_clearBlank]
  exact (fitsAll_nil_iff_heightAll_le _ hfits).mp hfits

theorem tokenize_withMaxDepth_of_height {ts : List Token} (h : t.tokenize source = .ok ts)
    (hheight : heightAll ts ≤ limit) : (t.withMaxDepth limit).tokenize source = .ok ts := by
  obtain ⟨us, hforest, rfl⟩ := tokenize_eq_ok_iff.mp h
  obtain ⟨segments, hscan, hfits, hread⟩ := forest_eq_ok_iff.mp hforest
  rw [heightAll_clearBlank] at hheight
  refine tokenize_eq_ok_iff.mpr ⟨us, forest_eq_ok_iff.mpr ⟨segments, hscan, ?_, hread⟩, rfl⟩
  exact (fitsAll_nil_iff_heightAll_le limit hfits).mpr hheight

/-- A lower limit changes nothing, or the outcome is that a tag is nested too deep. The latter
happens exactly if the run with the higher limit comes to an opening tag that finds as many blocks
open as the lower limit admits, and it is the first of these tags that is blamed. Tokens that a
source has under one limit it has under another exactly if their height does not exceed that. -/
theorem tokenize_withMaxDepth {t : Tokenizer} {limit : Nat} (h : limit ≤ t.maxDepth)
    (source : List Char) :
    ((t.withMaxDepth limit).tokenize source = t.tokenize source ∨
      ∃ name offset, (t.withMaxDepth limit).tokenize source =
        .error (.nestingTooDeep name limit offset)) ∧
    ((∃ name offset, (t.withMaxDepth limit).tokenize source =
        .error (.nestingTooDeep name limit offset)) ↔
      ∃ name offset, t.OpensBeyond limit source name offset) ∧
    (∀ name offset, (t.withMaxDepth limit).tokenize source =
        .error (.nestingTooDeep name limit offset) →
      t.OpensBeyond limit source name offset ∧
        ∀ other start, t.OpensBeyond limit source other start → offset ≤ start) ∧
    ∀ ts, t.tokenize source = .ok ts → ∀ other,
      ((t.withMaxDepth other).tokenize source = .ok ts ↔ heightAll ts ≤ other) := by
  have hheight : ∀ ts, t.tokenize source = .ok ts → ∀ other,
      ((t.withMaxDepth other).tokenize source = .ok ts ↔ heightAll ts ≤ other) :=
    fun ts hts other => ⟨heightAll_le_of_tokenize, tokenize_withMaxDepth_of_height hts⟩
  rcases tokenize_withMaxDepth_cases h source with
    ⟨hsame, hnone⟩ | ⟨name, offset, herror, hbeyond, hfirst⟩
  · -- an error of this kind would be that of the higher limit as well
    have hother : ∀ name offset, (t.withMaxDepth limit).tokenize source ≠
        .error (.nestingTooDeep name limit offset) := fun name offset he =>
      hnone name offset (opensBeyond_of_tokenize h (hsame.symm.trans he))
    refine ⟨Or.inl hsame, ⟨?_, ?_⟩, fun name offset he => absurd he (hother name offset), hheight⟩
    · rintro ⟨name, offset, he⟩
      exact absurd he (hother name offset)
    · rintro ⟨name, offset, hbeyond⟩
      exact absurd hbeyond (hnone name offset)
  · refine ⟨Or.inr ⟨name, offset, herror⟩, ?_, ?_, hheight⟩
    · exact ⟨fun _ => ⟨name, offset, hbeyond⟩, fun _ => ⟨name, offset, herror⟩⟩
    · intro other start he
      cases herror.symm.trans he
      exact ⟨hbeyond, hfirst⟩

/-- A block in a block, with a limit of one. -/
theorem tokenize_withMaxDepth_of_block_in_block :
    1 ≤ 2 ∧ ∃ name offset,
      ((⟨.ofList [(['a'], .block)], 2⟩ : Tokenizer).withMaxDepth 1).tokenize
        (displayWords [['a']] ++ displayWords [['a']] ++ displayWords [closerName ['a']] ++
          displayWords [closerName ['a']]) = .error (.nestingTooDeep name 1 offset) := by
  have hread : (⟨.ofList [(['a'], .block)], 2⟩ : Tokenizer).tokenize
      (displayWords [['a']] ++ displayWords [['a']] ++ displayWords [closerName ['a']] ++
        displayWords [closerName ['a']]) =
      .ok [.block ⟨['a'], [], .block, []⟩ [.block ⟨['a'], [], .block, [['a']]⟩ []]] := by rfl
  refine ⟨by decide, ?_⟩
  have hlimit : 1 ≤ (⟨.ofList [(['a'], .block)], 2⟩ : Tokenizer).maxDepth := by decide
  obtain ⟨hsame | herror, _, _, hheight⟩ := tokenize_withMaxDepth hlimit
    (displayWords [['a']] ++ displayWords [['a']] ++ displayWords [closerName ['a']] ++
      displayWords [closerName ['a']])
  · exact absurd ((hheight _ hread 1).mp (hsame.trans hread)) (by decide)
  · exact herror

end Tokenizer

end TemplateMarkup
