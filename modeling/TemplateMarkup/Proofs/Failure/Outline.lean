import TemplateMarkup.Proofs.Failure.Causes

/-! # Outline of a run

Whether an item has a place depends on the offsets and names of the open blocks
and on nothing else of a nesting. A run may therefore be followed with these
alone: it fails exactly where the whole run fails, and with the same error.
Texts, variables and inline tags leave no trace in it.
-/

namespace TemplateMarkup

open Outcome

/-- Offsets and names of the open blocks, outermost first, after one more item. -/
def Item.track (maxDepth : Nat) (opens : List (Nat × List Char)) (offset : Nat) :
    Item → Except TemplateError (List (Nat × List Char))
  | text _ => .ok opens
  | var _ => .ok opens
  | inline _ _ => .ok opens
  | opening name _ =>
      if maxDepth ≤ opens.length then .error (.nestingTooDeep name maxDepth offset)
      else .ok (opens ++ [(offset, name)])
  | closing name =>
      if opens.getLast?.map Prod.snd = some name then .ok opens.dropLast
      else .error (.unbalancedClose name (opens.getLast?.map Prod.snd) offset)

/-- An item keeps or drops open blocks and at most adds one at the end. -/
theorem Item.exists_sublist_of_track {maxDepth offset : Nat} {opens next : List (Nat × List Char)}
    {item : Item} (h : item.track maxDepth opens offset = .ok next) :
    ∃ name, List.Sublist next (opens ++ [(offset, name)]) := by
  cases item with
  | opening name args =>
      rw [track] at h
      split at h
      · cases h
      · cases h
        exact ⟨name, List.Sublist.refl _⟩
  | closing name =>
      rw [track] at h
      split at h
      · cases h
        exact ⟨name, (List.dropLast_sublist opens).trans (List.sublist_append_left ..)⟩
      · cases h
  | _ =>
      cases h
      exact ⟨[], List.sublist_append_left ..⟩

namespace Nesting

variable {maxDepth offset : Nat} {n : Nesting}

theorem opened_append (n : Nesting) (t : Token) : (n.append t).opened = n.opened := by
  obtain ⟨top, blocks⟩ := n
  cases blocks <;> rfl

theorem opened_push (n : Nesting) (tag : Tag) (offset : Nat) :
    (n.push tag offset).opened = n.opened ++ [(offset, tag.name)] := by
  simp [opened, push]

/-- Placing an item in a nesting is following it among the open blocks. -/
theorem map_opened_place (maxDepth offset : Nat) (n : Nesting) (item : Item) :
    (n.place maxDepth offset item).map opened = item.track maxDepth n.opened offset := by
  cases item with
  | text s => exact congrArg Except.ok (opened_append n _)
  | var v => exact congrArg Except.ok (opened_append n _)
  | inline name args => exact congrArg Except.ok (opened_append n _)
  | opening name args =>
      rw [place, Item.track, length_opened]
      by_cases hdepth : maxDepth ≤ n.depth
      · rw [if_pos hdepth, if_pos hdepth]
        rfl
      · rw [if_neg hdepth, if_neg hdepth]
        exact congrArg Except.ok (opened_push n _ _)
  | closing name =>
      rw [Item.track, getLast?_opened]
      obtain ⟨top, blocks⟩ := n
      cases blocks with
      | nil => rfl
      | cons b bs =>
          by_cases hname : b.tag.name = name
          · have hdrop : (⟨top, b :: bs⟩ : Nesting).opened.dropLast = (⟨top, bs⟩ : Nesting).opened := by
              simp [opened]
            simp [place, hname, Except.map, hdrop, opened_append]
          · simp [place, hname, Except.map]

end Nesting

namespace Tokenizer

variable {t : Tokenizer} {opens : List (Nat × List Char)} {segments : List Segment}
  {source : List Char} {e : TemplateError}

/-- Follow one segment. -/
def follow (t : Tokenizer) (opens : List (Nat × List Char)) (s : Segment) :
    Except TemplateError (List (Nat × List Char)) :=
  Item.ofSegment t.registry s >>= Item.track t.maxDepth opens s.offset

/-- Follow a row of segments. -/
def followAll (t : Tokenizer) (opens : List (Nat × List Char)) (segments : List Segment) :
    Except TemplateError (List (Nat × List Char)) :=
  segments.foldlM t.follow opens

/-- At the end no block may be open. -/
def closeAll (opens : List (Nat × List Char)) : Except TemplateError Unit :=
  match opens.getLast? with
  | none => .ok ()
  | some (start, name) => .error (.missingClose name start)

/-- The error of a row of segments, or success. -/
def verdict (t : Tokenizer) (segments : List Segment) : Except TemplateError Unit :=
  t.followAll [] segments >>= closeAll

theorem followAll_cons (t : Tokenizer) (opens : List (Nat × List Char)) (s : Segment)
    (segments : List Segment) : t.followAll opens (s :: segments) =
      t.follow opens s >>= fun next => t.followAll next segments :=
  List.foldlM_cons

theorem followAll_append (t : Tokenizer) (opens : List (Nat × List Char))
    (segments others : List Segment) : t.followAll opens (segments ++ others) =
      t.followAll opens segments >>= fun next => t.followAll next others :=
  List.foldlM_append

theorem verdict_append (t : Tokenizer) (segments others : List Segment) :
    t.verdict (segments ++ others) =
      t.followAll [] segments >>= fun opens => t.followAll opens others >>= closeAll := by
  rw [verdict, followAll_append, bind_assoc]

theorem map_opened_step (t : Tokenizer) (n : Nesting) (s : Segment) :
    (t.step n s).map Nesting.opened = t.follow n.opened s := by
  rw [step, follow]
  cases Item.ofSegment t.registry s with
  | error e => rfl
  | ok item => exact Nesting.map_opened_place t.maxDepth s.offset n item

/-- Taking in segments is following them among the open blocks. -/
theorem map_opened_nest (t : Tokenizer) (n : Nesting) (segments : List Segment) :
    (t.nest n segments).map Nesting.opened = t.followAll n.opened segments := by
  induction segments generalizing n with
  | nil => rfl
  | cons s segments ih =>
      rw [nest_cons, followAll_cons, ← map_opened_step]
      cases t.step n s with
      | error e => rfl
      | ok next => exact ih next

theorem map_finish (n : Nesting) : n.finish.map (fun _ => ()) = closeAll n.opened := by
  rw [closeAll, Nesting.getLast?_opened]
  obtain ⟨top, blocks⟩ := n
  cases blocks <;> rfl

/-- A run over scanned segments ends as its outline does. -/
theorem map_forest (hscan : scan source = .ok segments) :
    (t.forest source).map (fun _ => ()) = t.verdict segments := by
  have hnest : (t.nest .empty segments).map Nesting.opened = t.followAll [] segments :=
    map_opened_nest t .empty segments
  rw [forest_of_scan hscan, verdict, ← hnest]
  cases t.nest .empty segments with
  | error e => rfl
  | ok n => exact map_finish n

theorem forest_eq_error_iff_verdict (hscan : scan source = .ok segments) :
    t.forest source = .error e ↔ t.verdict segments = .error e := by
  rw [← map_forest hscan, map_eq_error_iff]

theorem tokenize_eq_error_iff : t.tokenize source = .error e ↔ t.forest source = .error e :=
  map_eq_error_iff

theorem tokenize_of_scan_error (h : scan source = .error e) :
    t.tokenize source = .error e := by
  rw [tokenize_eq_error_iff, forest, h]
  rfl

theorem tokenize_of_verdict_error (hscan : scan source = .ok segments)
    (h : t.verdict segments = .error e) : t.tokenize source = .error e :=
  tokenize_eq_error_iff.mpr ((forest_eq_error_iff_verdict hscan).mpr h)

theorem exists_forest_of_verdict (hscan : scan source = .ok segments)
    (h : t.verdict segments = .ok ()) :
    ∃ ts, t.forest source = .ok ts ∧ Token.FitsAll t.registry t.maxDepth [] ts ∧
      segments.map (Item.ofSegment t.registry) = (Token.itemsAll ts).map .ok := by
  rw [← map_forest hscan] at h
  obtain ⟨ts, hts, _⟩ := map_eq_ok_iff.mp h
  obtain ⟨found, hfound, hfits, hread⟩ := forest_eq_ok_iff.mp hts
  rw [hscan] at hfound
  cases hfound
  exact ⟨ts, hts, hfits, hread⟩

end Tokenizer

/-- Whether a segment is a stretch of text. -/
def Segment.isText : Segment → Bool
  | text _ _ => true
  | _ => false

/-- Texts do not count. -/
theorem Tokenizer.followAll_filter (t : Tokenizer) (opens : List (Nat × List Char))
    (segments : List Segment) :
    t.followAll opens (segments.filter fun s => !s.isText) = t.followAll opens segments := by
  induction segments generalizing opens with
  | nil => rfl
  | cons s segments ih =>
      cases s with
      | text text offset => exact ih opens
      | tag interior offset =>
          rw [List.filter_cons_of_pos rfl, followAll_cons, followAll_cons]
          exact congrArg _ (funext ih)
      | var interior escape offset =>
          rw [List.filter_cons_of_pos rfl, followAll_cons, followAll_cons]
          exact congrArg _ (funext ih)

/-- Rows of segments with the same tags and variables have the same verdict. -/
theorem Tokenizer.verdict_congr {t : Tokenizer} {segments others : List Segment}
    (h : (segments.filter fun s => !s.isText) = others.filter fun s => !s.isText) :
    t.verdict segments = t.verdict others := by
  rw [verdict, verdict, ← followAll_filter, h, followAll_filter]

end TemplateMarkup
