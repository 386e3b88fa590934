/-! # Cutting a text before a place

A text is cut right before the first place whose continuation satisfies a
test. The cut is known from three facts: the two parts make up the text, the
second part is empty or passes the test, and no earlier continuation does.
-/

namespace TemplateMarkup.Text

/-- Cut a text before the first place whose continuation passes a test. -/
def cutBefore (stop : List Char → Bool) : List Char → List Char × List Char
  | [] => ([], [])
  | c :: s =>
      if stop (c :: s) then ([], c :: s)
      else (c :: (cutBefore stop s).1, (cutBefore stop s).2)

variable {stop : List Char → Bool} {s : List Char}

theorem cutBefore_append (stop : List Char → Bool) (s : List Char) :
    (cutBefore stop s).1 ++ (cutBefore stop s).2 = s := by
  induction s with
  | nil => rfl
  | cons c s ih =>
      unfold cutBefore
      split
      · rfl
      · simp [ih]

theorem stop_cutBefore_snd (h : (cutBefore stop s).2 ≠ []) : stop (cutBefore stop s).2 = true := by
  induction s with
  | nil => exact absurd rfl h
  | cons c s ih =>
      unfold cutBefore at h ⊢
      split
      · assumption
      · rename_i hc
        rw [if_neg hc] at h
        exact ih h

/-- No continuation that begins inside the first part passes the test. -/
theorem not_stop_of_cutBefore_fst {u v : List Char} (h : (cutBefore stop s).1 = u ++ v)
    (hv : v ≠ []) : stop (v ++ (cutBefore stop s).2) = false := by
  induction s generalizing u with
  | nil => exact absurd (List.append_eq_nil_iff.mp h.symm).2 hv
  | cons c s ih =>
      unfold cutBefore at h ⊢
      split at h
      · exact absurd (List.append_eq_nil_iff.mp h.symm).2 hv
      · rename_i hc
        rw [if_neg hc]
        cases u with
        | nil =>
            obtain rfl : c :: (cutBefore stop s).1 = v := h
            rw [List.cons_append, cutBefore_append]
            simpa using hc
        | cons b u => exact ih (List.cons.inj h).2

/-- The three facts determine the cut. -/
theorem cutBefore_eq {w rest : List Char}
    (inside : ∀ u v, w = u ++ v → v ≠ [] → stop (v ++ rest) = false)
    (boundary : rest ≠ [] → stop rest = true) : cutBefore stop (w ++ rest) = (w, rest) := by
  induction w with
  | nil =>
      cases rest with
      | nil => rfl
      | cons c rest => simp [cutBefore, boundary (List.cons_ne_nil c rest)]
  | cons c w ih =>
      have hc : stop (c :: (w ++ rest)) = false := by
        simpa using inside [] (c :: w) rfl (List.cons_ne_nil c w)
      have hw := ih fun u v h hv => inside (c :: u) v (by rw [h, List.cons_append]) hv
      simp [cutBefore, hc, hw]

end TemplateMarkup.Text
