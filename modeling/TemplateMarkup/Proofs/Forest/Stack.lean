import TemplateMarkup.Proofs.Failure.Outline
import TemplateMarkup.Proofs.Source.Places

/-! # The stack of open blocks

Between two segments the open blocks are a stack, which grows by openings and
shrinks by closings, and everything collected so far is in one of them or at
the top level. Each segment restores what is said of all of these at once: a
closing moves a finished block with all it holds into the block below, where
the blocks around each of its tags are the same as before.
-/

namespace TemplateMarkup

open Token Nesting Outcome

namespace Token

/-- Whether a tag is one of a row of tokens, or is inside the finished blocks among them, of which
a path names those around the tag from the outermost one on. -/
inductive Holds : List Token → List (List Char) → Tag → Prop
  | tag {ts : List Token} {t : Tag} (mem : .tag t ∈ ts) : Holds ts [] t
  | block {ts body : List Token} {t : Tag} (mem : .block t body ∈ ts) : Holds ts [] t
  | inside {ts body : List Token} {path : List (List Char)} {t u : Tag}
      (mem : .block t body ∈ ts) (held : Holds body path u) : Holds ts (t.name :: path) u

variable {registry : Registry} {maxDepth : Nat} {around path : List (List Char)}
  {ts : List Token} {t : Token} {u : Tag}

theorem fits_of_mem (h : FitsAll registry maxDepth around ts) (ht : t ∈ ts) :
    Fits registry maxDepth around t := by
  induction ts with
  | nil => cases ht
  | cons t' ts ih =>
      rcases List.mem_cons.mp ht with rfl | ht
      · exact h.1
      · exact ih h.2 ht

/-- Every tag in a row of tokens that fits names what is around the row and then the blocks
around it in the row. -/
theorem ancestors_of_holds (hu : Holds ts path u) (h : FitsAll registry maxDepth around ts) :
    u.ancestors = around ++ path := by
  induction hu generalizing around with
  | tag mem =>
      rw [List.append_nil]
      exact (fits_of_mem h mem).2.2
  | block mem =>
      rw [List.append_nil]
      exact (fits_of_mem h mem).1.2.2
  | inside mem _ ih =>
      obtain ⟨_, _, hbody⟩ := fits_of_mem h mem
      rw [ih hbody, List.append_assoc, List.singleton_append]

end Token

namespace Nesting

variable {registry : Registry} {maxDepth : Nat} {inner outer : List OpenBlock} {b : OpenBlock}

/-- Blocks are as the blocks outside them demand, also without those inside them. -/
theorem OpenFit.of_append (h : OpenFit registry maxDepth (inner ++ b :: outer)) :
    OpenFit registry maxDepth (b :: outer) := by
  induction inner with
  | nil => exact h
  | cons c inner ih => exact ih h.2.2.2

/-- What holds of a nesting between two segments, with a row of segments still to come: all tokens
are as their surroundings demand, the open blocks begin one behind the other, all of them before
the next segment, and the segments follow one another. -/
structure Settled (registry : Registry) (maxDepth : Nat) (n : Nesting) (rest : List Segment) :
    Prop where
  fit : n.Fit registry maxDepth
  ordered : n.opened.Pairwise fun a b => a.1 < b.1
  below : ∀ a ∈ n.opened, ∀ s ∈ rest, a.1 < s.offset
  ahead : rest.Pairwise fun s t => s.offset < t.offset

theorem settled_empty {rest : List Segment}
    (h : rest.Pairwise fun s t => s.offset < t.offset) : empty.Settled registry maxDepth rest :=
  ⟨fit_empty registry maxDepth, .nil, List.forall_mem_nil _, h⟩

end Nesting

namespace Tokenizer

variable {t : Tokenizer} {source : List Char} {before after rest : List Segment} {s : Segment}
  {n next : Nesting}

/-- Taking in a segment keeps the nesting settled. -/
theorem settled_of_step (h : n.Settled t.registry t.maxDepth (s :: rest))
    (hstep : t.step n s = .ok next) : next.Settled t.registry t.maxDepth rest := by
  obtain ⟨item, hitem, hplace⟩ := bind_eq_ok_iff.mp hstep
  have htrack : item.track t.maxDepth n.opened s.offset = .ok next.opened := by
    rw [← map_opened_place, hplace]
    rfl
  obtain ⟨name, hsub⟩ := Item.exists_sublist_of_track htrack
  obtain ⟨hnext, hahead⟩ := List.pairwise_cons.mp h.ahead
  have hbelow : ∀ a ∈ n.opened, ∀ b ∈ [(s.offset, name)], a.1 < b.1 := by
    intro a ha b hb
    rw [List.mem_singleton.mp hb]
    exact h.below a ha s (List.mem_cons_self ..)
  refine ⟨h.fit.place (Item.registered_of_ofSegment hitem) hplace, ?_, fun a ha u hu => ?_, hahead⟩
  · apply List.Pairwise.sublist hsub
    exact List.pairwise_append.mpr ⟨h.ordered, List.pairwise_singleton .., hbelow⟩
  · rcases List.mem_append.mp (hsub.subset ha) with ha | ha
    · exact h.below a ha u (List.mem_cons_of_mem s hu)
    · rw [List.mem_singleton.mp ha]
      exact hnext u hu

/-- So does taking in a row of segments. -/
theorem settled_of_nest (h : n.Settled t.registry t.maxDepth (before ++ after))
    (hnest : t.nest n before = .ok next) : next.Settled t.registry t.maxDepth after := by
  induction before generalizing n with
  | nil =>
      cases hnest
      exact h
  | cons s before ih =>
      rw [nest_cons] at hnest
      obtain ⟨mid, hstep, hrest⟩ := bind_eq_ok_iff.mp hnest
      exact ih (settled_of_step h hstep) hrest

/-- Before and behind every segment the open blocks are a stack within the limit. They begin one
behind the other from the bottom to the top, and all before the next segment. Each of them has a
tag without a body, which is registered as one that requires a closing and names the blocks below
from the bottom on. Every tag that a block has collected names the blocks up to this one and then
the finished blocks around it inside this one, and a tag at the top level names finished blocks
only. -/
theorem open_block_stack (hscan : scan source = .ok (before ++ after))
    (hnest : t.nest .empty before = .ok n) :
    n.blocks.length ≤ t.maxDepth ∧
    (n.blocks.reverse.map OpenBlock.offset).Pairwise (· < ·) ∧
    (∀ b ∈ n.blocks, ∀ s ∈ after, b.offset < s.offset) ∧
    (∀ inner b outer, n.blocks = inner ++ b :: outer →
      t.registry.get? b.tag.name = some b.tag.kind ∧ b.tag.kind.requiresClose = true ∧
      b.tag.ancestors = openNames outer ∧
      ∀ path u, Holds b.body path u → u.ancestors = openNames outer ++ b.tag.name :: path) ∧
    ∀ path u, Holds n.top path u → u.ancestors = path := by
  have hsettled : n.Settled t.registry t.maxDepth after :=
    settled_of_nest (settled_empty (pairwise_offset_of_scan hscan)) hnest
  refine ⟨hsettled.fit.depth_le, ?_, fun b hb => ?_, fun inner b outer hsplit => ?_,
    fun path u hu => ?_⟩
  · have hordered := hsettled.ordered
    rw [opened, ← List.map_reverse, List.pairwise_map] at hordered
    exact List.pairwise_map.mpr hordered
  · have hopened : (b.offset, b.tag.name) ∈ n.opened :=
      List.mem_reverse.mpr (List.mem_map_of_mem hb)
    exact hsettled.below _ hopened
  · have hblocks := hsettled.fit.blocks
    rw [hsplit] at hblocks
    obtain ⟨⟨hget, hkind, hancestors⟩, _, hbody, _⟩ := hblocks.of_append
    refine ⟨hget, by rw [hkind]; rfl, hancestors, fun path u hu => ?_⟩
    rw [ancestors_of_holds hu hbody, openNames_cons, List.append_assoc, List.singleton_append]
  · exact ancestors_of_holds hu hsettled.fit.top

/-- A block with a finished block in it, before another tag. -/
theorem open_block_stack_before_tag :
    (⟨.ofList [(['i', 'f'], .block), (['f'], .block), (['x'], .inline)], 2⟩ : Tokenizer).nest .empty
        [.tag [' ', 'i', 'f', ' '] 0, .tag [' ', 'f', ' '] 8, .tag [' ', 'x', ' '] 15,
          .tag [' ', 'e', 'n', 'd', 'f', ' '] 22] =
      .ok ⟨[], [⟨⟨['i', 'f'], [], .block, []⟩,
        [.block ⟨['f'], [], .block, [['i', 'f']]⟩ [.tag ⟨['x'], [], .inline, [['i', 'f'], ['f']]⟩]],
        0⟩]⟩ ∧
      ∀ path u, Holds [.block ⟨['f'], [], .block, [['i', 'f']]⟩
        [.tag ⟨['x'], [], .inline, [['i', 'f'], ['f']]⟩]] path u →
          u.ancestors = ['i', 'f'] :: path := by
  have hscan : scan (displayWords [['i', 'f']] ++ displayWords [['f']] ++ displayWords [['x']] ++
      displayWords [closerName ['f']] ++ displayWords [['x']]) =
      .ok ([.tag [' ', 'i', 'f', ' '] 0, .tag [' ', 'f', ' '] 8, .tag [' ', 'x', ' '] 15,
        .tag [' ', 'e', 'n', 'd', 'f', ' '] 22] ++ [.tag [' ', 'x', ' '] 32]) := by rfl
  have hnest : (⟨.ofList [(['i', 'f'], .block), (['f'], .block), (['x'], .inline)], 2⟩ :
      Tokenizer).nest .empty
        [.tag [' ', 'i', 'f', ' '] 0, .tag [' ', 'f', ' '] 8, .tag [' ', 'x', ' '] 15,
          .tag [' ', 'e', 'n', 'd', 'f', ' '] 22] =
      .ok ⟨[], [⟨⟨['i', 'f'], [], .block, []⟩,
        [.block ⟨['f'], [], .block, [['i', 'f']]⟩ [.tag ⟨['x'], [], .inline, [['i', 'f'], ['f']]⟩]],
        0⟩]⟩ := by rfl
  obtain ⟨_, _, _, hblocks, _⟩ := open_block_stack hscan hnest
  obtain ⟨_, _, _, hbody⟩ := hblocks [] _ [] rfl
  exact ⟨hnest, hbody⟩

end Tokenizer

end TemplateMarkup
