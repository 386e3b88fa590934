import TemplateMarkup.Proofs.Failure.Causes
import TemplateMarkup.Proofs.Interior.OpenQuotes
import TemplateMarkup.Proofs.Interior.StageReading
import TemplateMarkup.Proofs.Source.Places
import TemplateMarkup.Proofs.Text.Trimming

/-! # Places of errors

An error points at the construct at fault: at the opener that is never closed,
at the tag or the variable that is refused, or at the mark of a quote that never
closes inside of one. Such a place is always in front of a character of the
source.
-/

namespace TemplateMarkup

open Text Outcome

/-- Whether a quote begins at an offset, in the interior of a segment with delimiters, that never
closes before the interior ends. -/
def Segment.OpensQuote (source : List Char) (s : Segment) (offset : Nat) : Prop :=
  (∀ text start, s ≠ .text text start) ∧
    ∃ front before mark after rest, s.interior = before ++ mark :: after ∧
      source = front ++ s.opening ++ (before ++ mark :: after) ++ s.closing ++ rest ∧
        byteSize front = s.offset ∧ byteSize (front ++ s.opening ++ before) = offset ∧
          isMark mark = true ∧
            ∀ part, part <+: after → (QuoteState.inside mark).after part ≠ .outside

namespace TemplateError

/-- Whether an error points at the place in a source that its message is about. -/
def PointsInto (source : List Char) : TemplateError → Prop
  | .unterminatedDelimiter d offset =>
      ∃ front rest, source = front ++ d.opener ++ rest ∧ byteSize front = offset ∧
        ¬ d.closer <:+: rest
  | .unterminatedQuote offset =>
      ∃ segments s, scan source = .ok segments ∧ s ∈ segments ∧ s.OpensQuote source offset
  | .malformedVariable interior offset =>
      ∃ segments inner escape, scan source = .ok segments ∧ .var inner escape offset ∈ segments ∧
        Trimmed (fun c => c.toNat ∈ whiteSpace) inner interior
  | .grammar _ => False
  | .unknownTag _ offset | .missingClose _ offset | .unexpectedClose _ offset
  | .unbalancedClose _ _ offset | .argumentsOnClose _ offset | .emptyTag offset
  | .nestingTooDeep _ _ offset =>
      ∃ segments interior, scan source = .ok segments ∧ .tag interior offset ∈ segments

end TemplateError

open TemplateError

variable {source : List Char} {segments : List Segment} {s : Segment} {e : TemplateError}

/-- A segment with delimiters begins with a brace. -/
theorem Segment.exists_opening_eq (h : ∀ text start, s ≠ .text text start) :
    ∃ tail, s.opening = '{' :: tail := by
  cases s with
  | text text start => exact absurd rfl (h text start)
  | tag interior offset => exact ⟨_, rfl⟩
  | var interior escape offset => exact ⟨_, rfl⟩

theorem Segment.StandsIn.exists_char (h : s.StandsIn source)
    (hs : ∀ text start, s ≠ .text text start) :
    ∃ before c after, source = before ++ c :: after ∧ byteSize before = s.offset := by
  obtain ⟨front, rest, hsource, hoffset⟩ := h
  obtain ⟨tail, htail⟩ := exists_opening_eq hs
  refine ⟨front, '{', tail ++ s.interior ++ s.closing ++ rest, ?_, hoffset⟩
  simp [hsource, written, htail]

/-- An error that points into a source points in front of one of its characters. -/
theorem TemplateError.PointsInto.exists_char (h : e.PointsInto source) :
    ∃ before c after, source = before ++ c :: after ∧ byteSize before = e.offset := by
  have of_tag : ∀ offset, (∃ segments interior, scan source = .ok segments ∧
      .tag interior offset ∈ segments) →
      ∃ before c after, source = before ++ c :: after ∧ byteSize before = offset := by
    rintro offset ⟨segments, interior, hscan, hmem⟩
    exact (standsIn_of_mem_scan hscan _ hmem).exists_char fun _ _ => Segment.noConfusion
  cases e with
  | unterminatedDelimiter d offset =>
      obtain ⟨front, rest, rfl, hoffset, _⟩ := h
      obtain ⟨c, hc⟩ := d.exists_opener_eq
      exact ⟨front, '{', c :: rest, by simp [hc], hoffset⟩
  | unterminatedQuote offset =>
      obtain ⟨_, s, _, _, _, front, before, mark, after, rest, _, hsource, _, hoffset, _⟩ := h
      exact ⟨front ++ s.opening ++ before, mark, after ++ s.closing ++ rest, by simp [hsource],
        hoffset⟩
  | malformedVariable interior offset =>
      obtain ⟨segments, inner, escape, hscan, hmem, _⟩ := h
      exact (standsIn_of_mem_scan hscan _ hmem).exists_char fun _ _ => Segment.noConfusion
  | grammar fault => exact h.elim
  | unknownTag name offset => exact of_tag offset h
  | missingClose name offset => exact of_tag offset h
  | unexpectedClose name offset => exact of_tag offset h
  | unbalancedClose name expected offset => exact of_tag offset h
  | argumentsOnClose name offset => exact of_tag offset h
  | emptyTag offset => exact of_tag offset h
  | nestingTooDeep name maxDepth offset => exact of_tag offset h

theorem isSome_position?_of_split {before after : List Char} (h : source = before ++ after)
    (hoffset : byteSize before = e.offset) : (e.position? source).isSome = true := by
  rw [position?, Option.isSome_iff_exists]
  exact ⟨_, Position.ofOffset?_eq_some_iff.mpr ⟨before, after, h.symm, hoffset, rfl⟩⟩

/-- An open quote in the interior of a segment opens behind what stands before it. -/
theorem Segment.StandsIn.opensQuote {w q : List Char} (h : s.StandsIn source)
    (hs : ∀ text start, s ≠ .text text start) (hinterior : s.interior = w ++ q)
    (hq : OpenQuote q) : s.OpensQuote source (s.offset + byteSize s.opening + byteSize w) := by
  obtain ⟨front, rest, hsource, hoffset⟩ := h
  obtain ⟨mark, after, rfl, hmark, hunclosed⟩ := hq
  refine ⟨hs, front, w, mark, after, rest, hinterior, ?_, hoffset, ?_, hmark,
    fun _ hpart => hunclosed.after_prefix_ne hpart⟩
  · rw [hsource, written, hinterior]
    simp only [List.append_assoc]
  · rw [byteSize_append, byteSize_append, hoffset]

theorem byteSize_opening_var (interior : List Char) (escape : Bool) (offset : Nat) :
    offset + byteSize (Segment.var interior escape offset).opening =
      Variable.interiorOffset escape offset := by
  cases escape <;> rfl

/-- An error in the words of a tag, or about its item, points at the tag or at a quote in it. -/
theorem pointsInto_of_tag {registry : Registry} {interior : List Char} {offset : Nat}
    (hscan : scan source = .ok segments) (hmem : .tag interior offset ∈ segments)
    (h : tagWords interior offset = .error e ∨
      ∃ words, tagWords interior offset = .ok words ∧
        Item.ofWords registry offset words = .error e) : e.PointsInto source := by
  have htag : ∃ segments interior, scan source = .ok segments ∧ .tag interior offset ∈ segments :=
    ⟨segments, interior, hscan, hmem⟩
  rcases h with h | ⟨words, _, h⟩
  · obtain ⟨w, q, hsplit, _, hq, rfl⟩ := exists_openQuote_of_tagWords h
    exact ⟨segments, _, hscan, hmem, (standsIn_of_mem_scan hscan _ hmem).opensQuote
      (fun _ _ => Segment.noConfusion) hsplit hq⟩
  · rcases Item.ofWords_eq_error_iff.mp h with ⟨_, rfl⟩ | ⟨name, args, _, _, h⟩
    · exact htag
    rcases h with ⟨_, rfl⟩ | ⟨target, _, h⟩
    · exact htag
    rcases Item.ofCloser_eq_error_iff.mp h with ⟨_, rfl⟩ | ⟨_, _, rfl⟩
    · exact htag
    · exact htag

/-- An error in a variable points at the variable or at a quote in it. -/
theorem pointsInto_of_var {interior : List Char} {escape : Bool} {offset : Nat}
    (hscan : scan source = .ok segments) (hmem : .var interior escape offset ∈ segments)
    (h : Variable.read interior escape offset = .error e) : e.PointsInto source := by
  rcases Variable.error_of_read h with rfl | ⟨w, q, hsplit, _, hq, rfl⟩
  · exact ⟨segments, interior, escape, hscan, hmem, trim_eq_iff.mp rfl⟩
  · refine ⟨segments, _, hscan, hmem, ?_⟩
    rw [← byteSize_opening_var interior]
    exact (standsIn_of_mem_scan hscan _ hmem).opensQuote (fun _ _ => Segment.noConfusion) hsplit hq

/-- Whether an error is about the blocks that are open. -/
def TemplateError.isNesting : TemplateError → Bool
  | missingClose .. | unbalancedClose .. | nestingTooDeep .. => true
  | _ => false

/-- Segments are read as items without regard to the open blocks. -/
theorem Item.isNesting_of_ofSegment_error {registry : Registry}
    (h : ofSegment registry s = .error e) : e.isNesting = false := by
  rcases ofSegment_eq_error_iff.mp h with
    ⟨interior, start, rfl, hwords | ⟨words, _, hwords⟩⟩ | ⟨interior, escape, start, rfl, hread⟩
  · obtain ⟨_, _, _, _, _, rfl⟩ := exists_openQuote_of_tagWords hwords
    rfl
  · rcases ofWords_eq_error_iff.mp hwords with ⟨_, rfl⟩ | ⟨_, _, _, _, ⟨_, rfl⟩ | ⟨_, _, hcloser⟩⟩
    · rfl
    · rfl
    · rcases ofCloser_eq_error_iff.mp hcloser with ⟨_, rfl⟩ | ⟨_, _, rfl⟩ <;> rfl
  · rcases Variable.error_of_read hread with rfl | ⟨_, _, _, _, _, rfl⟩ <;> rfl

namespace Tokenizer

variable {t : Tokenizer} {items : List Item} {n : Nesting}

/-- Behind segments that can be taken in, every open block was opened by one of their tags. -/
theorem Reaches.exists_tag_of_opened (h : t.Reaches segments items n) {start : Nat}
    {name : List Char} (hopen : (start, name) ∈ n.opened) :
    ∃ interior args, .tag interior start ∈ segments ∧
      tagWords interior start = .ok (name :: args) ∧ t.registry.get? name = some .block := by
  obtain ⟨before, args, after, hrow, _⟩ := (Nesting.mem_opened_iff h.placed).mp hopen
  have hmem : (start, .opening name args) ∈ placedItems segments items := by simp [hrow]
  obtain ⟨s, hs, hoffset, hitem⟩ := exists_segment_of_mem_placedItems h.read hmem
  obtain ⟨interior, words, htag, hwords, hopening⟩ :=
    Item.exists_tag_of_ofSegment hitem (Or.inl ⟨name, args, rfl⟩)
  obtain ⟨rfl, hget⟩ := Item.ofWords_eq_opening_iff.mp hopening
  simp only at hoffset
  rw [hoffset] at htag hwords
  exact ⟨interior, args, htag ▸ hs, hwords, hget⟩

/-- Every error points at the place its message is about. -/
theorem pointsInto_of_error (h : t.tokenize source = .error e) : e.PointsInto source := by
  rcases cause_of_error h with hscan | ⟨segments, hscan, hcause⟩
  · obtain ⟨front, d, rest, hsource, hcloser, rfl⟩ := exists_opener_of_scan_error hscan
    exact ⟨front, rest, hsource, rfl, hcloser⟩
  rcases hcause with ⟨before, s, after, items, n, rfl, hreaches, hstep⟩ |
    ⟨items, n, hreaches, hfinish⟩
  · have hmem : s ∈ before ++ s :: after := by simp
    rcases hstep with hread | ⟨item, hitem, hplace⟩
    · rcases Item.ofSegment_eq_error_iff.mp hread with
        ⟨interior, offset, rfl, h⟩ | ⟨interior, escape, offset, rfl, h⟩
      · exact pointsInto_of_tag hscan hmem h
      · exact pointsInto_of_var hscan hmem h
    · rcases Nesting.place_eq_error_iff.mp hplace with
        ⟨name, args, rfl, _, rfl⟩ | ⟨name, rfl, _, rfl⟩
      · obtain ⟨interior, _, htag, _⟩ :=
          Item.exists_tag_of_ofSegment hitem (Or.inl ⟨name, args, rfl⟩)
        exact ⟨_, interior, hscan, htag ▸ hmem⟩
      · obtain ⟨interior, _, htag, _⟩ := Item.exists_tag_of_ofSegment hitem (Or.inr ⟨name, rfl⟩)
        exact ⟨_, interior, hscan, htag ▸ hmem⟩
  · obtain ⟨start, name, hlast, rfl⟩ := Nesting.finish_eq_error_iff.mp hfinish
    obtain ⟨interior, _, hmem, _⟩ := hreaches.exists_tag_of_opened (List.mem_of_getLast? hlast)
    exact ⟨segments, interior, hscan, hmem⟩

/-- Every error points into the source, in front of one of its characters and so at a position of
its own, and at the place its message is about. -/
theorem pointsInto_of_tokenize (h : t.tokenize source = .error e) :
    (∃ before c after, source = before ++ c :: after ∧ byteSize before = e.offset) ∧
      (e.position? source).isSome = true ∧ e.PointsInto source := by
  have hpoints := pointsInto_of_error h
  obtain ⟨before, c, after, hsource, hoffset⟩ := hpoints.exists_char
  exact ⟨⟨before, c, after, hsource, hoffset⟩, isSome_position?_of_split hsource hoffset, hpoints⟩

/-- A quote in an argument of a marked variable, and a variable of two words between white space
that is no gap, both behind a character of two bytes. -/
theorem pointsInto_open_quote_and_words :
    ((⟨.empty, 0⟩ : Tokenizer).tokenize
        ['é', '{', '{', '!', 'a', '|', 'f', '(', '\'', 'b', '}', '}'] =
      .error (.unterminatedQuote 9) ∧
      (TemplateError.unterminatedQuote 9).PointsInto
        ['é', '{', '{', '!', 'a', '|', 'f', '(', '\'', 'b', '}', '}']) ∧
    (⟨.empty, 0⟩ : Tokenizer).tokenize
        ['é', '{', '{', '\u3000', 'a', ' ', 'b', '\u00a0', '}', '}'] =
      .error (.malformedVariable ['a', ' ', 'b'] 2) ∧
      (TemplateError.malformedVariable ['a', ' ', 'b'] 2).PointsInto
        ['é', '{', '{', '\u3000', 'a', ' ', 'b', '\u00a0', '}', '}'] := by
  have hquote : (⟨.empty, 0⟩ : Tokenizer).tokenize
      ['é', '{', '{', '!', 'a', '|', 'f', '(', '\'', 'b', '}', '}'] =
      .error (.unterminatedQuote 9) := by rfl
  have hwords : (⟨.empty, 0⟩ : Tokenizer).tokenize
      ['é', '{', '{', '\u3000', 'a', ' ', 'b', '\u00a0', '}', '}'] =
      .error (.malformedVariable ['a', ' ', 'b'] 2) := by rfl
  exact ⟨⟨hquote, (pointsInto_of_tokenize hquote).2.2⟩,
    hwords, (pointsInto_of_tokenize hwords).2.2⟩

end Tokenizer

end TemplateMarkup
