import TemplateMarkup.Proofs.Interior.StageReading
import TemplateMarkup.Proofs.Text.Containment

/-! # Variables

A variable whose names and arguments are proper is read back from the interior
it is written with, and every variable that is read is of this kind.
-/

namespace TemplateMarkup

open Grammar Recogniser Text Outcome

/-- A filter as a call. Without arguments it has no parentheses. -/
def Filter.call (f : Filter) : Call :=
  ⟨f.name, if f.args = [] then none else some f.args⟩

theorem Filter.written_call (f : Filter) : f.call.written = f.display := by
  obtain ⟨name, args⟩ := f
  cases args <;> rfl

theorem Filter.toFilter_call (f : Filter) : f.call.toFilter = f := by
  obtain ⟨name, args⟩ := f
  cases args <;> rfl

namespace Variable

/-- The path and the names of the filters. -/
def names (v : Variable) : List (List Char) :=
  v.path :: v.filters.map Filter.name

/-- The arguments of the path and of the filters. -/
def arguments (v : Variable) : List (List Char) :=
  v.args.getD [] ++ v.filters.flatMap Filter.args

/-- Whether all names and arguments of a variable are proper ones, no pipe stands in an argument
outside quotes, and the closer of a variable in none of them. -/
structure Clean (v : Variable) : Prop where
  names : ∀ w ∈ v.names, Name w
  arguments : ∀ a ∈ v.arguments, Argument a ∧ Unpiped a
  no_closer : ∀ w ∈ v.names ++ v.arguments, ¬ Delimiter.var.closer <:+: w

/-- The call that gives the path. -/
def call (v : Variable) : Call :=
  ⟨v.path, v.args⟩

/-- The calls that give the path and the filters. -/
def calls (v : Variable) : List Call :=
  v.call :: v.filters.map Filter.call

/-- What a variable is written as between its delimiters, the mark left out. -/
def interior (v : Variable) : List Char :=
  ' ' :: (v.call.written ++ (v.filters.flatMap fun f => '|' :: f.display) ++ [' '])

theorem display_eq (v : Variable) : v.display = Delimiter.var.opener ++
    ((if v.escape then ['!'] else []) ++ v.interior) ++ Delimiter.var.closer := by
  simp [display, interior, call, Call.written]

variable {v : Variable}

theorem ofCalls?_calls (v : Variable) : ofCalls? v.escape v.calls = some v := by
  simp [ofCalls?, calls, call, Function.comp_def, Filter.toFilter_call]

section OfCalls

variable {escape : Bool} {cs : List Call} (h : ofCalls? escape cs = some v)
include h

theorem escape_of_ofCalls? : v.escape = escape := by
  cases cs with
  | nil => cases h
  | cons c cs =>
      cases h
      rfl

/-- The names of a variable are those of the calls it is made of. -/
theorem mem_names_iff {w : List Char} : w ∈ v.names ↔ ∃ c ∈ cs, c.name = w := by
  cases cs with
  | nil => cases h
  | cons c cs =>
      cases h
      simp [names, Call.toFilter, eq_comm]

/-- The arguments of a variable are those of the calls it is made of. -/
theorem mem_arguments_iff {a : List Char} :
    a ∈ v.arguments ↔ ∃ c ∈ cs, ∃ args, c.args = some args ∧ a ∈ args := by
  have hcalls : v.arguments = cs.flatMap fun c => c.args.getD [] := by
    cases cs with
    | nil => cases h
    | cons c cs =>
        cases h
        simp [arguments, Call.toFilter, List.flatMap_map]
  rw [hcalls, List.mem_flatMap]
  refine exists_congr fun c => and_congr_right fun _ => ?_
  cases c.args <;> simp

end OfCalls

theorem Clean.calls (h : v.Clean) : ∀ c ∈ v.calls, c.Clean := by
  intro c hc
  refine ⟨h.names _ ((mem_names_iff v.ofCalls?_calls).mpr ⟨c, hc, rfl⟩), ?_⟩
  intro args hargs a ha
  exact h.arguments a ((mem_arguments_iff v.ofCalls?_calls).mpr ⟨c, hc, args, hargs, ha⟩)

end Variable

namespace Text

theorem Name.unpiped {w : List Char} (h : Name w) : Unpiped w := by
  have hmark : ∀ c ∈ w, isMark c = false := fun c hc => isMark_of_isNameChar (h.2 c hc)
  refine ⟨h.closed, ?_⟩
  rw [bare_of_forall hmark]
  exact fun hmem => absurd (h.2 _ hmem) (by decide)

theorem argumentList_cons (a : List Char) (as : List (List Char)) :
    argumentList (a :: as) = '(' :: (a ++ ((as.flatMap fun a => ',' :: ' ' :: a) ++ [')'])) := by
  suffices h : [',', ' '].intercalate (a :: as) = a ++ as.flatMap fun a => ',' :: ' ' :: a by
    simp [argumentList, h]
  induction as generalizing a with
  | nil => simp
  | cons b as ih => rw [List.intercalate_cons_cons, ih, List.flatMap_cons]; simp

theorem unpiped_argumentList {args : List (List Char)} (h : ∀ a ∈ args, Unpiped a) :
    Unpiped (argumentList args) := by
  have hnext : ∀ as : List (List Char), (∀ a ∈ as, Unpiped a) →
      Unpiped ((as.flatMap fun a => ',' :: ' ' :: a) ++ [')']) := by
    intro as has
    induction as with
    | nil => exact unpiped_nil.cons rfl (by decide)
    | cons a as ih =>
        obtain ⟨ha, has⟩ := List.forall_mem_cons.mp has
        rw [List.flatMap_cons, List.append_assoc]
        exact ((ha.cons rfl (by decide)).cons rfl (by decide)).append (ih has)
  cases args with
  | nil => exact (unpiped_nil.cons rfl (by decide)).cons rfl (by decide)
  | cons a as =>
      obtain ⟨ha, has⟩ := List.forall_mem_cons.mp h
      rw [argumentList_cons]
      exact (ha.append (hnext as has)).cons rfl (by decide)

end Text

theorem Call.Clean.unpiped {c : Call} (h : c.Clean) : Unpiped c.written := by
  obtain ⟨name, args⟩ := c
  cases args with
  | none =>
      rw [Call.written, Option.elim_none, List.append_nil]
      exact Name.unpiped h.1
  | some args =>
      exact (Name.unpiped h.1).append (unpiped_argumentList fun a ha => (h.2 args rfl a ha).2)

/-- Calls with a pipe between them, and a space at the end, are spelled by the stages of a
variable. -/
theorem exists_staged_written {g : List Char} {c : Call} {calls : List Call}
    (hg : ∀ d ∈ g, isGap d = true) (hc : c.Clean) (hcalls : ∀ d ∈ calls, d.Clean) :
    ∃ ss, Staged (g ++ (c.written ++ (calls.flatMap fun d => '|' :: d.written) ++ [' '])) ss ∧
      List.Forall₂ Call.SpelledBy (c :: calls) ss := by
  have hspace : ∀ d ∈ [' '], isGap d = true := List.forall_mem_singleton.mpr rfl
  induction calls generalizing g c with
  | nil =>
      have hunpiped : Unpiped (g ++ (c.written ++ [' '])) :=
        (unpiped_gaps hg).append (hc.unpiped.append (unpiped_gaps hspace))
      refine ⟨[g ++ (c.written ++ [' '])], ?_, .cons (hc.spelledBy hg hspace) .nil⟩
      simpa using Staged.closed hunpiped
  | cons d calls ih =>
      obtain ⟨hd, hcalls⟩ := List.forall_mem_cons.mp hcalls
      obtain ⟨ss, hstaged, hspelled⟩ := ih (g := []) (List.forall_mem_nil _) hd hcalls
      have hunpiped : Unpiped (g ++ (c.written ++ [])) :=
        (unpiped_gaps hg).append (hc.unpiped.append unpiped_nil)
      have hfirst : c.SpelledBy (g ++ (c.written ++ [])) := hc.spelledBy hg (List.forall_mem_nil _)
      refine ⟨_ :: ss, ?_, .cons hfirst hspelled⟩
      simpa using Staged.cons hunpiped hstaged

namespace Variable

variable {v : Variable}

/-- A variable is read back from its interior. -/
theorem read_interior (h : v.Clean) (offset : Nat) :
    read v.interior v.escape offset = .ok v := by
  obtain ⟨hcall, hfilters⟩ := List.forall_mem_cons.mp h.calls
  obtain ⟨ss, hstaged, hspelled⟩ :=
    exists_staged_written (g := [' ']) (List.forall_mem_singleton.mpr rfl) hcall hfilters
  have hinterior : Staged v.interior ss := by
    simpa [interior, List.flatMap_map, Filter.written_call] using hstaged
  rw [read_eq_ok_iff, ← hinterior.eq_stages]
  exact ⟨v.calls, hspelled, v.ofCalls?_calls⟩

/-- Each of the calls has its stage. -/
theorem exists_stage_of_mem {ss : List (List Char)} {calls : List Call}
    (h : List.Forall₂ Call.SpelledBy calls ss) {c : Call} (hc : c ∈ calls) :
    ∃ s ∈ ss, c.SpelledBy s := by
  induction h with
  | nil => cases hc
  | @cons d s _ _ hspelled _ ih =>
      rcases List.mem_cons.mp hc with rfl | hc
      · exact ⟨s, List.mem_cons_self .., hspelled⟩
      · obtain ⟨t, ht, hct⟩ := ih hc
        exact ⟨t, List.mem_cons_of_mem s ht, hct⟩

/-- The calls that the stages of an interior spell are proper ones, and parts of the interior. -/
theorem clean_of_spelledBy {inner : List Char} {calls : List Call}
    (h : List.Forall₂ Call.SpelledBy calls (stages inner)) :
    ∀ c ∈ calls, c.Clean ∧ c.Within inner := by
  intro c hc
  obtain ⟨s, hs, hspelled⟩ := exists_stage_of_mem h hc
  have hstaged := staged_stages inner
  obtain ⟨hname, hargs⟩ := hspelled.within
  refine ⟨hspelled.clean (hstaged.unpiped hs hspelled.closed), ?_, ?_⟩
  · exact hname.trans (hstaged.isInfix hs)
  · exact fun args h a ha => (hargs args h a ha).trans (hstaged.isInfix hs)

/-- Every variable that is read has proper names and arguments. -/
theorem clean_of_read {inner : List Char} {escape : Bool} {offset : Nat}
    (hinner : ¬ Delimiter.var.closer <:+: inner) (h : read inner escape offset = .ok v) :
    v.Clean ∧ v.escape = escape := by
  obtain ⟨cs, hcs, hv⟩ := read_eq_ok_iff.mp h
  have hcall : ∀ c ∈ cs, c.Clean ∧ c.Within inner := clean_of_spelledBy hcs
  refine ⟨⟨?_, ?_, ?_⟩, escape_of_ofCalls? hv⟩
  · intro w hw
    obtain ⟨c, hc, rfl⟩ := (mem_names_iff hv).mp hw
    exact (hcall c hc).1.1
  · intro a ha
    obtain ⟨c, hc, args, hargs, hac⟩ := (mem_arguments_iff hv).mp ha
    exact (hcall c hc).1.2 args hargs a hac
  · intro w hw hcloser
    rcases List.mem_append.mp hw with hw | hw
    · obtain ⟨c, hc, rfl⟩ := (mem_names_iff hv).mp hw
      exact hinner (hcloser.trans (hcall c hc).2.1)
    · obtain ⟨c, hc, args, hargs, hac⟩ := (mem_arguments_iff hv).mp hw
      exact hinner (hcloser.trans ((hcall c hc).2.2 args hargs w hac))

end Variable

theorem exists_argumentList_eq {args : List (List Char)}
    (h : ∀ a ∈ args, ¬ Delimiter.var.closer <:+: a) :
    ∃ tail, argumentList args = '(' :: tail ∧ ¬ Delimiter.var.closer <:+: tail := by
  have hne : Delimiter.var.closer ≠ [] := List.cons_ne_nil _ _
  cases args with
  | nil => exact ⟨[')'], rfl, by decide⟩
  | cons a as =>
      obtain ⟨ha, has⟩ := List.forall_mem_cons.mp h
      refine ⟨_, argumentList_cons a as, ?_⟩
      rw [← List.append_assoc]
      refine not_infix_concat hne (by decide) (not_infix_append_flatMap (by decide) ha ?_)
      exact fun b hb => not_infix_cons hne (by decide) (has b hb)

theorem Call.not_closer_written {c : Call} (hname : ¬ Delimiter.var.closer <:+: c.name)
    (hargs : ∀ args, c.args = some args → ∀ a ∈ args, ¬ Delimiter.var.closer <:+: a) :
    ¬ Delimiter.var.closer <:+: c.written := by
  obtain ⟨name, args⟩ := c
  cases args with
  | none => simpa [written] using hname
  | some args =>
      obtain ⟨tail, htail, hfree⟩ := exists_argumentList_eq (hargs args rfl)
      rw [written, Option.elim_some, htail]
      exact not_infix_append_cons (by decide) hname hfree

/-- The closer of a variable does not stand in its interior. -/
theorem Variable.not_closer_interior {v : Variable} (h : v.Clean) :
    ¬ Delimiter.var.closer <:+: v.interior := by
  have hne : Delimiter.var.closer ≠ [] := List.cons_ne_nil _ _
  have hcalls : ∀ c ∈ v.calls, ¬ Delimiter.var.closer <:+: c.written := by
    intro c hc
    refine Call.not_closer_written (h.no_closer _ (List.mem_append_left _ ?_))
      fun args hargs a ha => h.no_closer a (List.mem_append_right _ ?_)
    · exact (mem_names_iff v.ofCalls?_calls).mpr ⟨c, hc, rfl⟩
    · exact (mem_arguments_iff v.ofCalls?_calls).mpr ⟨c, hc, args, hargs, ha⟩
  obtain ⟨hpath, hfilters⟩ := List.forall_mem_cons.mp hcalls
  have hdisplay : ∀ f ∈ v.filters, ¬ Delimiter.var.closer <:+: f.display := by
    intro f hf
    rw [← f.written_call]
    exact hfilters f.call (List.mem_map_of_mem hf)
  exact not_infix_cons hne (by decide)
    (not_infix_concat hne (by decide) (not_infix_append_flatMap (by decide) hpath hdisplay))

end TemplateMarkup
