import Mathlib.Data.List.Forall2
import TemplateMarkup.Proofs.Interior.Calls

/-! # Variables by their stages

What a variable is read as depends on its stages alone. It is read if each of
them spells a call, and these calls give the variable. Otherwise the first
stage that spells none is at fault: the error points at its open quote if it
has one, and else reports the whole variable as malformed.
-/

namespace TemplateMarkup

open Grammar Recogniser Text Outcome

namespace Variable

variable {malformed e : TemplateError} {base offset : Nat} {interior s : List Char}
  {ss : List (List Char)} {c : Call} {calls : List Call} {escape : Bool} {v : Variable}

/-- The call that a stage spells, given the text of the stage and where it stands in an interior
that begins at `base`. -/
def readText (malformed : TemplateError) (base : Nat) (stage : Nat × List Char) :
    Except TemplateError Call :=
  lexemeAt (base + stage.1) stage.2 >>= fun text =>
    match Call.ofText? text with
    | none => .error malformed
    | some call => .ok call

/-- The error of a stage that spells no call and begins at an offset. -/
def stageError (malformed : TemplateError) (offset : Nat) (s : List Char) : TemplateError :=
  match openQuoteAt? s with
  | none => malformed
  | some i => .unterminatedQuote (offset + i)

theorem readStage_of_verbatim {stage : Nat × ParseTree Rule} (h : Verbatim stage.2) :
    readStage malformed base stage = readText malformed base (stage.1, stage.2.text) := by
  unfold readStage readText
  exact congrArg (fun r => r >>= _) (h base stage.1)

theorem readText_eq_ok_iff : readText malformed base (offset, s) = .ok c ↔ c.SpelledBy s := by
  rw [← Call.ofText?_eq_some_iff, readText, lexemeAt]
  cases hquote : openQuoteAt? s with
  | none => cases hcall : Call.ofText? s <;> simp [hcall, bind, Except.bind]
  | some i =>
      have hopen : Call.ofText? s ≠ some c := by
        intro hcall
        rw [openQuoteAt?_of_closed (Call.ofText?_eq_some_iff.mp hcall).closed] at hquote
        cases hquote
      simp [hopen, bind, Except.bind]

theorem readText_eq_error_iff : readText malformed base (offset, s) = .error e ↔
    (∀ c : Call, ¬ c.SpelledBy s) ∧ e = stageError malformed (base + offset) s := by
  have hspelled : (∀ c : Call, ¬ c.SpelledBy s) ↔
      ∀ c, readText malformed base (offset, s) ≠ .ok c :=
    forall_congr' fun c => not_congr readText_eq_ok_iff.symm
  rw [hspelled, readText, lexemeAt, stageError]
  cases openQuoteAt? s with
  | none => cases hcall : Call.ofText? s <;> simp [hcall, bind, Except.bind, eq_comm]
  | some i => simp [bind, Except.bind, eq_comm]

/-- Reading a variable is reading its stages one after the other. -/
theorem read_eq (interior : List Char) (escape : Bool) (offset : Nat) :
    read interior escape offset =
      ((placedStages 0 (stages interior)).mapM (readText (.malformedVariable (trim interior) offset)
        (interiorOffset escape offset)) >>= fun calls =>
          match ofCalls? escape calls with
          | none => .error (.malformedVariable (trim interior) offset)
          | some v => .ok v) := by
  obtain ⟨ts, hrow, hplaced, hverbatim⟩ := exists_stageRow (staged_stages interior)
  have hend : ParseTree.nodesOf Rule.stage (0 + byteSize (ParseTree.textAll ts))
      [.node .endOfText []] = [] := rfl
  have hread : ∀ entry ∈ ParseTree.nodesOf .stage 0 ts,
      readStage (.malformedVariable (trim interior) offset) (interiorOffset escape offset) entry =
        readText (.malformedVariable (trim interior) offset) (interiorOffset escape offset)
          (entry.1, entry.2.text) := fun entry hentry =>
    readStage_of_verbatim (hverbatim _ (ParseTree.mem_filter_of_mem_nodesOf hentry))
  simp only [read, parts?_pipeline hrow, ParseTree.nodesOf_append, hend, List.append_nil]
  apply congrArg fun calls => calls >>= _
  calc (ParseTree.nodesOf .stage 0 ts).mapM (readStage _ _)
      = ((ParseTree.nodesOf .stage 0 ts).map fun entry => (entry.1, entry.2.text)).mapM
          (readText _ _) := mapM_eq_mapM_map hread
    _ = (placedStages 0 (stages interior)).mapM (readText _ _) := by rw [hplaced]

theorem mapM_readText_eq_ok_iff {start : Nat} :
    (placedStages start ss).mapM (readText malformed base) = .ok calls ↔
      List.Forall₂ Call.SpelledBy calls ss := by
  rw [mapM_eq_ok_iff]
  induction ss generalizing start calls with
  | nil => cases calls <;> simp [placedStages]
  | cons s ss ih => cases calls <;> simp [placedStages, readText_eq_ok_iff, ih]

/-- The first stage that spells no call decides the error. -/
theorem mapM_readText_eq_error_iff {start : Nat} :
    (placedStages start ss).mapM (readText malformed base) = .error e ↔
      ∃ before s after, ss = before ++ s :: after ∧ (∀ t ∈ before, ∃ c : Call, c.SpelledBy t) ∧
        (∀ c : Call, ¬ c.SpelledBy s) ∧
          e = stageError malformed (base + (start + byteSize (before.flatMap (· ++ ['|'])))) s := by
  -- a stage that stands first moves the places of the others by its own length
  have hplace (before : List (List Char)) (s : List Char) (start : Nat) :
      start + byteSize (s ++ ['|']) + byteSize (before.flatMap (· ++ ['|'])) =
        start + byteSize ((s :: before).flatMap (· ++ ['|'])) := by
    rw [List.flatMap_cons, byteSize_append (s ++ ['|']), Nat.add_assoc]
  induction ss generalizing start with
  | nil =>
      constructor
      · intro h
        cases h
      · rintro ⟨before, s, after, h, _⟩
        cases before <;> cases h
  | cons s ss ih =>
      rw [placedStages, List.mapM_cons, bind_eq_error_iff]
      constructor
      · rintro (hs | ⟨c, hs, h⟩)
        · obtain ⟨hnone, he⟩ := readText_eq_error_iff.mp hs
          exact ⟨[], s, ss, rfl, List.forall_mem_nil _, hnone, he⟩
        · rcases bind_eq_error_iff.mp h with h | ⟨_, _, h⟩
          · obtain ⟨before, t, after, rfl, hbefore, hnone, he⟩ := ih.mp h
            rw [hplace] at he
            have hcalls := List.forall_mem_cons.mpr ⟨⟨c, readText_eq_ok_iff.mp hs⟩, hbefore⟩
            exact ⟨s :: before, t, after, rfl, hcalls, hnone, he⟩
          · cases h
      · rintro ⟨before, t, after, hsplit, hbefore, hnone, he⟩
        cases before with
        | nil =>
            cases hsplit
            exact Or.inl (readText_eq_error_iff.mpr ⟨hnone, he⟩)
        | cons b before =>
            cases hsplit
            obtain ⟨⟨c, hc⟩, hbefore⟩ := List.forall_mem_cons.mp hbefore
            rw [← hplace] at he
            have hrest := ih.mpr ⟨before, t, after, rfl, hbefore, hnone, he⟩
            exact Or.inr ⟨c, readText_eq_ok_iff.mpr hc, bind_eq_error_iff.mpr (Or.inl hrest)⟩

/-- A variable is read exactly if its stages spell the calls that it is made of. -/
theorem read_eq_ok_iff : read interior escape offset = .ok v ↔
    ∃ calls, List.Forall₂ Call.SpelledBy calls (stages interior) ∧
      ofCalls? escape calls = some v := by
  rw [read_eq, bind_eq_ok_iff]
  apply exists_congr
  intro calls
  rw [mapM_readText_eq_ok_iff]
  apply and_congr_right
  intro _
  cases ofCalls? escape calls <;> simp

theorem ofCalls?_ne_none (h : calls ≠ []) : ofCalls? escape calls ≠ none := by
  cases calls with
  | nil => exact absurd rfl h
  | cons c calls => exact Option.some_ne_none _

/-- A variable is refused for the first of its stages that spells no call. -/
theorem read_eq_error_iff : read interior escape offset = .error e ↔
    ∃ before s after, stages interior = before ++ s :: after ∧
      (∀ t ∈ before, ∃ c : Call, c.SpelledBy t) ∧ (∀ c : Call, ¬ c.SpelledBy s) ∧
        e = stageError (.malformedVariable (trim interior) offset)
          (interiorOffset escape offset + byteSize (before.flatMap (· ++ ['|']))) s := by
  rw [read_eq, bind_eq_error_iff]
  constructor
  · rintro (h | ⟨calls, hcalls, h⟩)
    · simpa using mapM_readText_eq_error_iff.mp h
    · have hstages := mapM_readText_eq_ok_iff.mp hcalls
      have hne : calls ≠ [] := by
        rintro rfl
        exact (staged_stages interior).ne_nil (List.forall₂_nil_left_iff.mp hstages)
      cases hv : ofCalls? escape calls with
      | none => exact absurd hv (ofCalls?_ne_none hne)
      | some v => simp [hv] at h
  · intro h
    exact Or.inl (mapM_readText_eq_error_iff.mpr (by simpa using h))

/-- A variable fails as malformed, or at an open quote. -/
theorem error_of_read (h : read interior escape offset = .error e) :
    e = .malformedVariable (trim interior) offset ∨
      ∃ w q, interior = w ++ q ∧ Closed w ∧ OpenQuote q ∧
        e = .unterminatedQuote (interiorOffset escape offset + byteSize w) := by
  obtain ⟨before, s, after, hsplit, _, _, rfl⟩ := read_eq_error_iff.mp h
  cases hquote : openQuoteAt? s with
  | none =>
      left
      rw [stageError, hquote]
  | some i =>
      have hstaged := staged_stages interior
      rw [hsplit] at hstaged
      obtain ⟨w, q, hinterior, hw, hq, hsize⟩ := hstaged.exists_openQuote hquote
      refine Or.inr ⟨w, q, hinterior, hw, hq, ?_⟩
      rw [stageError, hquote, hsize, ← Nat.add_assoc]

/-- A variable is read exactly if each of its stages spells a call. The first call gives the path
and its arguments, and every further one a filter. Otherwise the first stage that spells no call
decides the error. -/
theorem read_of_stages (interior : List Char) (escape : Bool) (offset : Nat) :
    (∀ v, read interior escape offset = .ok v ↔
      ∃ head rest, List.Forall₂ Call.SpelledBy (head :: rest) (stages interior) ∧
        v = ⟨head.name, rest.map fun c => ⟨c.name, c.args.getD []⟩, escape, head.args⟩) ∧
    ∀ e, read interior escape offset = .error e ↔
      ∃ before s after, stages interior = before ++ s :: after ∧
        (∀ t ∈ before, ∃ c : Call, c.SpelledBy t) ∧ (∀ c : Call, ¬ c.SpelledBy s) ∧
          e = match openQuoteAt? s with
            | none => .malformedVariable (trim interior) offset
            | some i => .unterminatedQuote (offset + 2 + (if escape then 1 else 0) +
                byteSize (before.flatMap (· ++ ['|'])) + i) := by
  refine ⟨fun v => ?_, fun e => read_eq_error_iff⟩
  rw [read_eq_ok_iff]
  constructor
  · rintro ⟨calls, hstages, hv⟩
    cases calls with
    | nil => cases hv
    | cons head rest => exact ⟨head, rest, hstages, (Option.some.inj hv).symm⟩
  · rintro ⟨head, rest, hstages, rfl⟩
    exact ⟨head :: rest, hstages, rfl⟩

end Variable

end TemplateMarkup
