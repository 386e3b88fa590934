import TemplateMarkup.Proofs.Composition.Relocation
import TemplateMarkup.Proofs.Failure.Outline

/-! # Displaced outlines

When something is put into a source, all that stands behind it moves by one
distance. The open blocks are followed as before, those opened behind the place
at their new offsets, and an error moves exactly if it points behind the place.
-/

namespace TemplateMarkup

open Outcome

/-- Where an offset is found once something of a certain length is put in at a place. -/
def makeRoom (place length offset : Nat) : Nat :=
  if place ≤ offset then offset + length else offset

theorem makeRoom_of_le {place length offset : Nat} (h : place ≤ offset) :
    makeRoom place length offset = offset + length :=
  if_pos h

theorem makeRoom_of_lt {place length offset : Nat} (h : offset < place) :
    makeRoom place length offset = offset :=
  if_neg (Nat.not_le_of_lt h)

variable {f : Nat → Nat} {k offset maxDepth : Nat} {opens : List (Nat × List Char)}
  {segments back : List Segment} {t : Tokenizer} {e : TemplateError}

theorem TemplateError.relocate_eq_self (h : f e.offset = e.offset) : e.relocate f = e := by
  cases e <;> simp only [TemplateError.offset] at h <;> simp only [TemplateError.relocate, h]

/-- An open block whose opening is at another place. -/
def moveBlock (f : Nat → Nat) (b : Nat × List Char) : Nat × List Char :=
  (f b.1, b.2)

theorem map_snd_getLast?_moveBlock (f : Nat → Nat) (opens : List (Nat × List Char)) :
    (opens.map (moveBlock f)).getLast?.map Prod.snd = opens.getLast?.map Prod.snd := by
  rw [List.getLast?_map, Option.map_map]
  rfl

theorem Item.track_relocate (item : Item) :
    item.track maxDepth (opens.map (moveBlock f)) (f offset) =
      (relocate f (item.track maxDepth opens offset)).map (List.map (moveBlock f)) := by
  cases item with
  | text s => rfl
  | var v => rfl
  | inline name args => rfl
  | opening name args =>
      simp only [track, List.length_map]
      split
      · rfl
      · simp [Except.map, moveBlock]
  | closing name =>
      simp only [track, map_snd_getLast?_moveBlock]
      split
      · simp [Except.map]
      · rfl

namespace Tokenizer

theorem follow_relocate {s : Segment} (hf : ∀ o, s.offset ≤ o → f o = o + k) :
    t.follow (opens.map (moveBlock f)) (s.relocate f) =
      (relocate f (t.follow opens s)).map (List.map (moveBlock f)) := by
  rw [follow, follow, Item.ofSegment_relocate hf, Segment.offset_relocate]
  cases Item.ofSegment t.registry s with
  | error e => rfl
  | ok item => exact Item.track_relocate item

/-- Segments that are moved, with the open blocks, are followed as before. -/
theorem followAll_relocate (hf : ∀ s ∈ segments, ∀ o, s.offset ≤ o → f o = o + k) :
    t.followAll (opens.map (moveBlock f)) (segments.map (Segment.relocate f)) =
      (relocate f (t.followAll opens segments)).map (List.map (moveBlock f)) := by
  induction segments generalizing opens with
  | nil => rfl
  | cons s segments ih =>
      obtain ⟨hs, hsegments⟩ := List.forall_mem_cons.mp hf
      rw [List.map_cons, followAll_cons, followAll_cons, follow_relocate hs]
      cases t.follow opens s with
      | error e => rfl
      | ok next => exact ih hsegments

theorem closeAll_relocate (f : Nat → Nat) (opens : List (Nat × List Char)) :
    closeAll (opens.map (moveBlock f)) = relocate f (closeAll opens) := by
  rw [closeAll, closeAll, List.getLast?_map]
  cases opens.getLast? <;> rfl

theorem offset_of_mem_track {item : Item} {next : List (Nat × List Char)}
    (h : item.track maxDepth opens offset = .ok next) :
    ∀ block ∈ next, block ∈ opens ∨ block.1 = offset := by
  intro block hblock
  cases item with
  | text s =>
      cases h
      exact Or.inl hblock
  | var v =>
      cases h
      exact Or.inl hblock
  | inline name args =>
      cases h
      exact Or.inl hblock
  | opening name args =>
      simp only [Item.track] at h
      split at h
      · cases h
      · cases h
        rcases List.mem_append.mp hblock with hblock | hblock
        · exact Or.inl hblock
        · rw [List.mem_singleton.mp hblock]
          exact Or.inr rfl
  | closing name =>
      simp only [Item.track] at h
      split at h
      · cases h
        exact Or.inl (List.dropLast_subset opens hblock)
      · cases h

/-- Every open block was open before or stands at one of the segments. -/
theorem offset_of_mem_followAll {next : List (Nat × List Char)}
    (h : t.followAll opens segments = .ok next) :
    ∀ block ∈ next, block ∈ opens ∨ ∃ s ∈ segments, s.offset = block.1 := by
  induction segments generalizing opens with
  | nil =>
      cases h
      exact fun block hblock => Or.inl hblock
  | cons s segments ih =>
      rw [followAll_cons] at h
      obtain ⟨mid, hmid, hrest⟩ := bind_eq_ok_iff.mp h
      obtain ⟨item, _, htrack⟩ := bind_eq_ok_iff.mp hmid
      intro block hblock
      rcases ih hrest block hblock with hblock | ⟨u, hu, hoffset⟩
      · rcases offset_of_mem_track htrack block hblock with hblock | hoffset
        · exact Or.inl hblock
        · exact Or.inr ⟨s, List.mem_cons_self .., hoffset.symm⟩
      · exact Or.inr ⟨u, List.mem_cons_of_mem s hu, hoffset⟩

/-- Moving the segments behind a place moves their verdict. -/
theorem verdict_relocate {place : Nat} (hfront : ∀ s ∈ segments, s.offset < place)
    (herror : ∀ e, t.followAll [] segments = .error e → e.offset < place)
    (hback : ∀ s ∈ back, place ≤ s.offset) :
    t.verdict (segments ++ back.map (Segment.relocate (makeRoom place k))) =
      relocate (makeRoom place k) (t.verdict (segments ++ back)) := by
  rw [verdict_append, verdict_append]
  cases hfollow : t.followAll [] segments with
  | error e =>
      -- an error of the first segments points before the place and stays
      have hkept := TemplateError.relocate_eq_self (f := makeRoom place k)
        (makeRoom_of_lt (herror e hfollow))
      exact congrArg Except.error hkept.symm
  | ok opens =>
      -- so does every block they leave open, and only what follows is moved
      have hopens : opens.map (moveBlock (makeRoom place k)) = opens := by
        refine (List.map_congr_left fun block hblock => ?_).trans (List.map_id opens)
        rcases offset_of_mem_followAll hfollow block hblock with hmem | ⟨s, hs, hoffset⟩
        · cases hmem
        · have hlt := hfront s hs
          rw [hoffset] at hlt
          rw [moveBlock, makeRoom_of_lt hlt]
          rfl
      have hmoved : ∀ s ∈ back, ∀ o, s.offset ≤ o → makeRoom place k o = o + k :=
        fun s hs o ho => makeRoom_of_le (Nat.le_trans (hback s hs) ho)
      have hrest : t.followAll opens (back.map (Segment.relocate (makeRoom place k))) =
          (relocate (makeRoom place k) (t.followAll opens back)).map
            (List.map (moveBlock (makeRoom place k))) := by
        rw [← followAll_relocate hmoved, hopens]
      change t.followAll opens _ >>= closeAll = relocate _ (t.followAll opens back >>= closeAll)
      rw [hrest]
      cases t.followAll opens back with
      | error e => rfl
      | ok last => exact closeAll_relocate _ last

end Tokenizer

end TemplateMarkup
