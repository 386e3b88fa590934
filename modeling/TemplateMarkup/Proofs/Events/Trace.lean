import TemplateMarkup.Proofs.Events.ScanLog
import TemplateMarkup.Proofs.Events.TagLog
import TemplateMarkup.Proofs.Failure.Outline
import TemplateMarkup.Proofs.Failure.Places

/-! # The trace of a run

The trace of a run is its start, the log of the scan, the log of the tags and
the error, if there is one. From the log of the tags it can be seen which blocks
are open at each moment and, when the run succeeds, which tags the tokens have.
-/

namespace TemplateMarkup.Tokenizer

open Event Outcome Text Token

variable {t : Tokenizer} {source name : List Char} {segments : List Segment} {offset : Nat}

/-- Only at the end of a run a block can be found that is never closed. -/
theorem exists_nest_of_missingClose (h : t.tokenize source = .error (.missingClose name offset)) :
    ∃ segments n, scan source = .ok segments ∧ t.nest .empty segments = .ok n ∧
      n.finish = .error (.missingClose name offset) := by
  rcases cause_of_error h with hscan | ⟨segments, hscan, hcause⟩
  · obtain ⟨_, _, _, _, _, he⟩ := exists_opener_of_scan_error hscan
    cases he
  rcases hcause with ⟨_, _, _, _, _, _, _, hread | ⟨_, _, hplace⟩⟩ | ⟨items, n, hreaches, hfinish⟩
  · cases Item.isNesting_of_ofSegment_error hread
  · rcases Nesting.place_eq_error_iff.mp hplace with ⟨_, _, _, _, he⟩ | ⟨_, _, _, he⟩ <;> cases he
  · exact ⟨segments, n, hscan, nest_empty_eq_ok_iff.mpr ⟨items, hreaches⟩, hfinish⟩

/-- A block that is never closed behind one that is. -/
example :
    (⟨.ofList [(['a'], .block)], 1⟩ : Tokenizer).trace
        (displayWords [['a']] ++ displayWords [closerName ['a']] ++ displayWords [['a']]) =
      [.started 24 1, .tag 0 [' ', 'a', ' '], .tag 7 [' ', 'e', 'n', 'd', 'a', ' '],
        .tag 17 [' ', 'a', ' '], .opened ['a'] 0 0, .closed ['a'] 7 0, .opened ['a'] 17 0,
        .failed (.missingClose ['a'] 17)] := by rfl

end TemplateMarkup.Tokenizer
