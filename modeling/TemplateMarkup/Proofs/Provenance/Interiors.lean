import TemplateMarkup.Proofs.Interior.OpenQuotes
import TemplateMarkup.Proofs.Interior.Variables
import TemplateMarkup.Proofs.Provenance.Layout

/-! # Lexemes of interiors

The words of a tag, and the names and arguments of a variable, stand in the
interior in the order in which they are kept. What stands between the words of
a tag are gaps, and between names and arguments there are parentheses, commas
and pipes as well.
-/

namespace TemplateMarkup

open Text

namespace Text

/-- Whether a text consists of the given words and of separators between them. -/
def Scattered (isSeparator : Char → Bool) (s : List Char) (words : List (List Char)) : Prop :=
  ∀ before behind, Layout (fun _ c _ => isSeparator c = true) behind before s words

/-- What may stand between the names and arguments of a variable. -/
def isSeparator (c : Char) : Bool :=
  isGap c || decide (c = '(') || decide (c = ')') || decide (c = ',') || decide (c = '|')

theorem isSeparator_of_isGap {c : Char} (h : isGap c = true) : isSeparator c = true := by
  simp [isSeparator, h]

variable {f : Char → Bool} {s t w : List Char} {words others : List (List Char)}

theorem scattered_word (h : w ≠ []) : Scattered f w [w] :=
  fun _ _ => .word h

theorem scattered_separators (h : ∀ c ∈ s, f c = true) : Scattered f s [] := by
  refine fun before behind => .skipAll fun u c v hs => h c ?_
  rw [hs]
  exact List.mem_append_right u (List.mem_cons_self ..)

theorem scattered_char {c : Char} (h : f c = true) : Scattered f [c] [] :=
  scattered_separators (List.forall_mem_singleton.mpr h)

theorem scattered_gaps (h : ∀ c ∈ s, isGap c = true) : Scattered isSeparator s [] :=
  scattered_separators fun c hc => isSeparator_of_isGap (h c hc)

theorem Scattered.append (hs : Scattered f s words) (ht : Scattered f t others) :
    Scattered f (s ++ t) (words ++ others) :=
  fun before behind => (hs before (t ++ behind)).append (ht (before ++ s) behind)

/-- Between other texts, a text of words and separators is a layout where separators may be left
out. -/
theorem Scattered.layout {omits : List Char → Char → List Char → Prop} {before behind : List Char}
    (h : Scattered f s words) (homits : ∀ u c v, f c = true → omits u c v) :
    Layout omits behind before s words :=
  (h [] []).move fun _ c _ _ hc => homits _ c _ hc

theorem Spaced.scattered (h : Spaced s words) : Scattered isGap s words := by
  induction h with
  | nil => exact scattered_separators (List.forall_mem_nil _)
  | cons word gaps _ _ ih =>
      exact (scattered_word word.ne_nil).append ((scattered_separators gaps).append ih)

end Text

/-- The words of a tag stand in its interior between gaps. -/
theorem scattered_of_tagWords {interior : List Char} {offset : Nat} {words : List (List Char)}
    (h : tagWords interior offset = .ok words) : Scattered isGap interior words := by
  obtain ⟨g, s, rfl, hg, hs⟩ := tagWords_eq_ok_iff_spaced.mp h
  exact (scattered_separators hg).append hs.scattered

variable {s : List Char}

/-- The name of a call and its arguments. -/
def Call.lexemes (c : Call) : List (List Char) :=
  c.name :: c.args.getD []

/-- The arguments of a list stand in it between separators. -/
theorem Text.Listed.scattered {args : List (List Char)} (hs : Listed s args) :
    Scattered isSeparator s args := by
  induction hs with
  | last hg ha hh =>
      have hback := (scattered_word ha.ne_nil).append (scattered_gaps hh)
      exact (scattered_gaps hg).append hback
  | @cons g a h s args hg ha hh _ ih =>
      have hcomma : Scattered isSeparator [','] [] := scattered_char rfl
      have hback := (scattered_gaps hh).append (hcomma.append ih)
      exact (scattered_gaps hg).append ((scattered_word ha.ne_nil).append hback)

theorem Text.ArgumentsIn.scattered {args : List (List Char)} (hs : ArgumentsIn s args) :
    Scattered isSeparator s args := by
  rcases argumentsIn_iff.mp hs with ⟨hgaps, rfl⟩ | hlisted
  · exact scattered_gaps hgaps
  · exact hlisted.scattered

/-- Name and arguments of a call stand between separators in the stage that spells it. -/
theorem Call.SpelledBy.scattered {c : Call} (h : c.SpelledBy s) :
    Scattered isSeparator s c.lexemes := by
  cases h with
  | plain hpre hname hpost =>
      have hback := (scattered_word hname.1).append (scattered_gaps hpost)
      exact (scattered_gaps hpre).append hback
  | applied hpre hname hmid hinner hpost =>
      have hopening : Scattered isSeparator ['('] [] := scattered_char rfl
      have hclosing : Scattered isSeparator [')'] [] := scattered_char rfl
      have hbehind := hclosing.append (scattered_gaps hpost)
      have hlist := (scattered_gaps hmid).append (hopening.append (hinner.scattered.append hbehind))
      have hcall := (scattered_gaps hpre).append ((scattered_word hname.1).append hlist)
      simpa [lexemes] using hcall

/-- The lexemes of the calls that the stages of a text spell stand in the text between
separators. -/
theorem Text.Staged.scattered {ss : List (List Char)} (hs : Staged s ss) {calls : List Call}
    (hcalls : List.Forall₂ Call.SpelledBy calls ss) :
    Scattered isSeparator s (calls.flatMap Call.lexemes) := by
  induction hs generalizing calls with
  | closed _ =>
      obtain ⟨c, _, hspelled, hnil, rfl⟩ := List.forall₂_cons_right_iff.mp hcalls
      obtain rfl := List.forall₂_nil_right_iff.mp hnil
      simpa using hspelled.scattered
  | broken _ _ =>
      obtain ⟨c, _, hspelled, hnil, rfl⟩ := List.forall₂_cons_right_iff.mp hcalls
      obtain rfl := List.forall₂_nil_right_iff.mp hnil
      simpa using hspelled.scattered
  | cons _ _ ih =>
      obtain ⟨c, cs, hspelled, hcs, rfl⟩ := List.forall₂_cons_right_iff.mp hcalls
      have hpipe : Scattered isSeparator ['|'] [] := scattered_char rfl
      simpa using hspelled.scattered.append (hpipe.append (ih hcs))

namespace Variable

/-- Path, names of filters and arguments of a variable, as they are written one behind the other. -/
def lexemes (v : Variable) : List (List Char) :=
  v.path :: (v.args.getD [] ++ v.filters.flatMap fun f => f.name :: f.args)

theorem lexemes_of_ofCalls? {escape : Bool} {calls : List Call} {v : Variable}
    (h : ofCalls? escape calls = some v) : v.lexemes = calls.flatMap Call.lexemes := by
  cases calls with
  | nil => cases h
  | cons c calls =>
      cases h
      rw [lexemes, List.flatMap_map, List.flatMap_cons]
      rfl

/-- Path, names and arguments of a variable stand between separators in its interior. -/
theorem scattered_of_read {inner : List Char} {escape : Bool} {offset : Nat} {v : Variable}
    (h : read inner escape offset = .ok v) : Scattered isSeparator inner v.lexemes := by
  obtain ⟨calls, hcalls, hv⟩ := read_eq_ok_iff.mp h
  rw [lexemes_of_ofCalls? hv]
  exact (staged_stages inner).scattered hcalls

end Variable

end TemplateMarkup
