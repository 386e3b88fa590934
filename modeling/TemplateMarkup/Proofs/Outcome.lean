import TemplateMarkup.Error

/-! # Outcomes

A computation that may fail has an outcome, a value or the error that stopped
it. When a computation is put together from others, it succeeds exactly if all
of them do, and otherwise fails with the error of the first that fails.
-/

namespace TemplateMarkup.Outcome

variable {α β : Type} {r : Except TemplateError α}

theorem bind_eq_ok_iff {f : α → Except TemplateError β} {b : β} :
    (r >>= f) = .ok b ↔ ∃ a, r = .ok a ∧ f a = .ok b := by
  cases r with
  | error e => simp [bind, Except.bind]
  | ok a => simp [bind, Except.bind]

theorem map_eq_ok_iff {f : α → β} {b : β} : r.map f = .ok b ↔ ∃ a, r = .ok a ∧ f a = b := by
  cases r with
  | error e => simp [Except.map]
  | ok a => simp [Except.map]

theorem eq_of_map_ok {xs ys : List α}
    (h : xs.map (Except.ok (ε := TemplateError)) = ys.map .ok) : xs = ys :=
  (List.map_inj_right fun _ _ => Except.ok.inj).mp h

/-- A row of computations succeeds with a row of values exactly if each succeeds with its own. -/
theorem mapM_eq_ok_iff {f : α → Except TemplateError β} {xs : List α} {ys : List β} :
    xs.mapM f = .ok ys ↔ xs.map f = ys.map .ok := by
  induction xs generalizing ys with
  | nil =>
      constructor
      · intro h
        cases h
        rfl
      · intro h
        obtain rfl := List.map_eq_nil_iff.mp h.symm
        rfl
  | cons x xs ih =>
      rw [List.mapM_cons, bind_eq_ok_iff]
      constructor
      · rintro ⟨y, hy, h⟩
        obtain ⟨tail, htail, h⟩ := bind_eq_ok_iff.mp h
        cases h
        rw [List.map_cons, List.map_cons, hy, ih.mp htail]
      · intro h
        obtain ⟨y, tail, rfl, hy, htail⟩ := List.map_eq_cons_iff.mp h.symm
        refine ⟨y, hy.symm, bind_eq_ok_iff.mpr ⟨tail, ih.mpr htail.symm, rfl⟩⟩

theorem mapM_eq_mapM_map {γ : Type} {f : α → Except TemplateError β} {g : α → γ}
    {h : γ → Except TemplateError β} {xs : List α} (hfg : ∀ x ∈ xs, f x = h (g x)) :
    xs.mapM f = (xs.map g).mapM h := by
  induction xs with
  | nil => rfl
  | cons x xs ih =>
      obtain ⟨hx, hxs⟩ := List.forall_mem_cons.mp hfg
      rw [List.map_cons, List.mapM_cons, List.mapM_cons, hx, ih hxs]

variable {e : TemplateError}

theorem bind_eq_error_iff {f : α → Except TemplateError β} :
    (r >>= f) = .error e ↔ r = .error e ∨ ∃ a, r = .ok a ∧ f a = .error e := by
  cases r with
  | error e => simp [bind, Except.bind]
  | ok a => simp [bind, Except.bind]

theorem map_eq_error_iff {f : α → β} : r.map f = .error e ↔ r = .error e := by
  cases r <;> simp [Except.map]

/-- A row of computations fails with the error of one of them. -/
theorem exists_of_mapM_eq_error {f : α → Except TemplateError β} {xs : List α}
    (h : xs.mapM f = .error e) : ∃ x ∈ xs, f x = .error e := by
  induction xs with
  | nil => cases h
  | cons x xs ih =>
      rw [List.mapM_cons] at h
      rcases bind_eq_error_iff.mp h with hx | ⟨y, _, h⟩
      · exact ⟨x, List.mem_cons_self .., hx⟩
      · rcases bind_eq_error_iff.mp h with htail | ⟨ys, _, h⟩
        · obtain ⟨z, hz, hfz⟩ := ih htail
          exact ⟨z, List.mem_cons_of_mem x hz, hfz⟩
        · cases h

/-- A run over a row fails at one of its members, after a run over those before it. -/
theorem exists_of_foldlM_eq_error {f : β → α → Except TemplateError β} {xs : List α} {b : β}
    (h : xs.foldlM f b = .error e) :
    ∃ before x after c, xs = before ++ x :: after ∧ before.foldlM f b = .ok c ∧
      f c x = .error e := by
  induction xs generalizing b with
  | nil => cases h
  | cons x xs ih =>
      rw [List.foldlM_cons] at h
      rcases bind_eq_error_iff.mp h with hx | ⟨c, hc, h⟩
      · exact ⟨[], x, xs, b, rfl, rfl, hx⟩
      · obtain ⟨before, y, after, d, rfl, hbefore, hy⟩ := ih h
        refine ⟨x :: before, y, after, d, rfl, ?_, hy⟩
        rw [List.foldlM_cons, hc]
        exact hbefore

end TemplateMarkup.Outcome
