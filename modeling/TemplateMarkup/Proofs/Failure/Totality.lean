import TemplateMarkup.Grammar.Production
import TemplateMarkup.Proofs.Failure.Places

/-! # Every text is read

Repetitions are never undone, and still the rules for a whole source, for the
interior of a tag and for that of a variable match every text to its end. The
quotes of an interior are all complete or the last of them runs to the end, and
in both cases what is not a word or a stage is a gap or a pipe. No error can
therefore come from the grammar itself.
-/

namespace TemplateMarkup

open Grammar Recogniser Text Outcome

namespace Grammar.Recogniser

variable {ρ : Type} {p : Recogniser ρ}

/-- A recogniser that reads to the end and finds something has read all of the text. -/
theorem exists_of_parts? (hp : Lossless p) (hend : Exhausts p) {s : List Char}
    (h : ∃ ts, parts? p s = some ts) : ∃ ts, p s = some (ts, []) ∧ ParseTree.textAll ts = s := by
  obtain ⟨_, hparts⟩ := h
  obtain ⟨⟨ts, rest⟩, hread, _⟩ := Option.map_eq_some_iff.mp hparts
  obtain rfl := hend s ts rest hread
  exact ⟨ts, hread, (List.append_nil _).symm.trans (hp s ts [] hread)⟩

end Grammar.Recogniser

namespace Grammar

/-- The interior of a tag is read with complete quotes, and with a quote that never closes. -/
theorem exists_parts?_tagInterior (s : List Char) : ∃ ts, parts? tagInterior s = some ts := by
  rcases closed_or_openQuote s with hclosed | ⟨w, q, rfl, hw, hq⟩
  · obtain ⟨g, s, ws, rfl, hg, hws⟩ := exists_spaced_interior hclosed
    obtain ⟨ts, hparts, _⟩ := exists_parts?_of_spaced hg hws
    exact ⟨ts, hparts⟩
  · obtain ⟨ts, hparts, _⟩ := exists_parts?_of_openQuote hw hq
    exact ⟨ts, hparts⟩

/-- So is the interior of a variable. -/
theorem exists_parts?_pipeline (s : List Char) : ∃ ts, parts? pipeline s = some ts := by
  obtain ⟨ts, hrow, _⟩ := exists_stageRow (staged_stages s)
  exact ⟨_, parts?_pipeline hrow⟩

end Grammar

/-- Every text is matched to its end by the rule for sources and by those for interiors. Scanning
and tokenizing therefore never fail with an error of the grammar, the words of a tag fail at an
open quote only, and a variable at an open quote or as malformed. -/
theorem no_grammar_error :
    (∀ rule ∈ [Rule.template, .tagInterior, .pipeline], ∀ s,
      ∃ ts, rule.recogniser s = some (ts, []) ∧ ParseTree.textAll ts = s) ∧
      (∀ source fault, scan source ≠ .error (.grammar fault)) ∧
      (∀ (t : Tokenizer) source fault, t.tokenize source ≠ .error (.grammar fault)) ∧
      (∀ interior offset e, tagWords interior offset = .error e →
        ∃ place, e = .unterminatedQuote place) ∧
      ∀ interior escape offset e, Variable.read interior escape offset = .error e →
        (∃ place, e = .unterminatedQuote place) ∨ ∃ shown, e = .malformedVariable shown offset := by
  refine ⟨?_, ?_, ?_, ?_, ?_⟩
  · intro rule hrule s
    simp only [List.mem_cons, List.not_mem_nil, or_false] at hrule
    rcases hrule with rfl | rfl | rfl
    · refine ⟨_, template_eq_some s, ?_⟩
      simp [ParseTree.textAll, ParseTree.text, Piece.textAll_map_tree, Piece.writtenAll_pieces]
    · exact exists_of_parts? lossless_tagInterior exhausts_tagInterior (exists_parts?_tagInterior s)
    · exact exists_of_parts? lossless_pipeline exhausts_pipeline (exists_parts?_pipeline s)
  · intro source fault h
    obtain ⟨_, _, _, _, _, heq⟩ := exists_opener_of_scan_error h
    cases heq
  · intro t source fault h
    exact Tokenizer.pointsInto_of_error h
  · intro interior offset e h
    obtain ⟨_, _, _, _, _, rfl⟩ := exists_openQuote_of_tagWords h
    exact ⟨_, rfl⟩
  · intro interior escape offset e h
    rcases Variable.error_of_read h with rfl | ⟨_, _, _, _, _, rfl⟩
    · exact Or.inr ⟨_, rfl⟩
    · exact Or.inl ⟨_, rfl⟩

end TemplateMarkup
