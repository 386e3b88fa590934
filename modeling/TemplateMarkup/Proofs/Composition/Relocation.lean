import TemplateMarkup.Proofs.Outcome
import TemplateMarkup.Proofs.Source.Segments
import TemplateMarkup.Tokenizer

/-! # Relocation

Where a text stands in a source matters to nothing but the offsets of its
segments and of the errors in them. When all that a segment covers is moved by
one distance, what is read from the segment stays the same, and an error in it
is moved by that distance.
-/

namespace TemplateMarkup

open Text Outcome Grammar

/-- An error at another place. -/
def TemplateError.relocate (f : Nat → Nat) : TemplateError → TemplateError
  | unknownTag name offset => unknownTag name (f offset)
  | missingClose name offset => missingClose name (f offset)
  | unexpectedClose name offset => unexpectedClose name (f offset)
  | unbalancedClose name expected offset => unbalancedClose name expected (f offset)
  | argumentsOnClose name offset => argumentsOnClose name (f offset)
  | unterminatedDelimiter delimiter offset => unterminatedDelimiter delimiter (f offset)
  | unterminatedQuote offset => unterminatedQuote (f offset)
  | malformedVariable interior offset => malformedVariable interior (f offset)
  | emptyTag offset => emptyTag (f offset)
  | nestingTooDeep name maxDepth offset => nestingTooDeep name maxDepth (f offset)
  | grammar fault => grammar fault

/-- A segment at another place. -/
def Segment.relocate (f : Nat → Nat) : Segment → Segment
  | text s offset => text s (f offset)
  | tag interior offset => tag interior (f offset)
  | var interior escape offset => var interior escape (f offset)

@[simp] theorem Segment.offset_relocate (f : Nat → Nat) (s : Segment) :
    (s.relocate f).offset = f s.offset := by
  cases s <;> rfl

namespace Outcome

variable {α β : Type} {f : Nat → Nat}

/-- An outcome with its error, if it has one, at another place. -/
def relocate (f : Nat → Nat) : Except TemplateError α → Except TemplateError α
  | .ok a => .ok a
  | .error e => .error (e.relocate f)

@[simp] theorem relocate_ok (a : α) : relocate f (.ok a) = .ok a := rfl

@[simp] theorem relocate_error (e : TemplateError) :
    relocate f (.error e : Except TemplateError α) = .error (e.relocate f) := rfl

theorem relocate_eq_ok_iff {r : Except TemplateError α} {a : α} :
    relocate f r = .ok a ↔ r = .ok a := by
  cases r <;> simp

theorem relocate_bind (r : Except TemplateError α) (g : α → Except TemplateError β) :
    relocate f (r >>= g) = relocate f r >>= fun a => relocate f (g a) := by
  cases r <;> rfl

theorem relocate_map (r : Except TemplateError α) (g : α → β) :
    relocate f (r.map g) = (relocate f r).map g := by
  cases r <;> rfl

theorem relocate_mapM (g : α → Except TemplateError β) (xs : List α) :
    relocate f (xs.mapM g) = xs.mapM fun x => relocate f (g x) := by
  induction xs with
  | nil => rfl
  | cons x xs ih =>
      rw [List.mapM_cons, List.mapM_cons, relocate_bind]
      congr 1
      funext y
      rw [relocate_bind, ih]
      rfl

end Outcome

variable {f : Nat → Nat} {k offset : Nat}

theorem lexeme_relocate {base : Nat} (hf : ∀ o, base ≤ o → f o = o + k) (start : Nat)
    (t : ParseTree Rule) : lexeme (base + k) start t = relocate f (lexeme base start t) := by
  unfold lexeme
  split
  · rfl
  · rename_i place _ _ _
    rw [relocate_error, TemplateError.relocate, hf (base + place) (Nat.le_add_right base place),
      Nat.add_right_comm]

theorem tagWords_relocate (hf : ∀ o, offset ≤ o → f o = o + k) (interior : List Char) :
    tagWords interior (f offset) = relocate f (tagWords interior offset) := by
  unfold tagWords
  split
  · rfl
  · rw [relocate_mapM, hf offset (Nat.le_refl offset), Nat.add_right_comm]
    congr 1
    funext word
    exact lexeme_relocate (fun o ho => hf o (Nat.le_of_add_right_le ho)) word.1 word.2

namespace Variable

theorem readStage_relocate {base : Nat} (hf : ∀ o, base ≤ o → f o = o + k)
    (malformed : TemplateError) (stage : Nat × ParseTree Rule) :
    readStage (malformed.relocate f) (base + k) stage =
      relocate f (readStage malformed base stage) := by
  rw [readStage, readStage, relocate_bind, lexeme_relocate hf]
  congr 1
  funext text
  split <;> rfl

theorem read_relocate (hf : ∀ o, offset ≤ o → f o = o + k) (interior : List Char)
    (escape : Bool) :
    read interior escape (f offset) = relocate f (read interior escape offset) := by
  have hmalformed : TemplateError.malformedVariable (trim interior) (f offset) =
      (TemplateError.malformedVariable (trim interior) offset).relocate f := rfl
  have hbase : interiorOffset escape (f offset) = interiorOffset escape offset + k := by
    simp only [interiorOffset, hf offset (Nat.le_refl offset)]
    omega
  have hle : ∀ o, interiorOffset escape offset ≤ o → f o = o + k := by
    intro o ho
    simp only [interiorOffset] at ho
    exact hf o (by omega)
  simp only [read, hmalformed, hbase]
  split
  · rfl
  · rw [relocate_bind, relocate_mapM]
    congr 1
    · congr 1
      funext stage
      exact readStage_relocate hle _ stage
    · funext calls
      split <;> rfl

end Variable

namespace Item

variable {registry : Registry}

theorem ofWords_relocate (words : List (List Char)) :
    ofWords registry (f offset) words = relocate f (ofWords registry offset words) := by
  unfold ofWords ofCloser
  split
  · rfl
  · split
    · rfl
    · rfl
    · split
      · rfl
      · split
        · rfl
        · split <;> rfl

/-- What is read from a segment does not depend on where it stands. -/
theorem ofSegment_relocate {s : Segment} (hf : ∀ o, s.offset ≤ o → f o = o + k) :
    ofSegment registry (s.relocate f) = relocate f (ofSegment registry s) := by
  cases s with
  | text s offset => rfl
  | tag interior offset =>
      have hwords : tagWords interior (f offset) = relocate f (tagWords interior offset) :=
        tagWords_relocate hf interior
      simp only [Segment.relocate, ofSegment, hwords, relocate_bind, ← ofWords_relocate]
  | var interior escape offset =>
      have hread : Variable.read interior escape (f offset) =
          relocate f (Variable.read interior escape offset) :=
        Variable.read_relocate hf interior escape
      simp only [Segment.relocate, ofSegment, hread, relocate_map]

end Item

namespace Piece

theorem segment?_relocate (p : Piece) :
    p.segment? (f offset) = (p.segment? offset).map (Segment.relocate f) := by
  cases p with
  | text s => rfl
  | unterminated d rest => rfl
  | closed d inner =>
      cases d with
      | tag => rfl
      | comment => rfl
      | var =>
          simp only [segment?, varSegment]
          split <;> rfl

/-- The segments of a row of pieces are moved with the row. -/
theorem segments_relocate (hf : ∀ o, offset ≤ o → f o = o + k) (ps : List Piece) :
    segments (f offset) ps =
      (relocate f (segments offset ps)).map (List.map (Segment.relocate f)) := by
  induction ps generalizing offset with
  | nil => rfl
  | cons p ps ih =>
      by_cases hp : ∃ d rest, p = unterminated d rest
      · obtain ⟨d, rest, rfl⟩ := hp
        rfl
      · have hterm : ∀ d rest, p ≠ unterminated d rest := fun d rest heq => hp ⟨d, rest, heq⟩
        have hle : ∀ o, offset + byteSize p.written ≤ o → f o = o + k :=
          fun o ho => hf o (Nat.le_of_add_right_le ho)
        have hnext : f offset + byteSize p.written = f (offset + byteSize p.written) := by
          rw [hf offset (Nat.le_refl offset), hle _ (Nat.le_refl _), Nat.add_right_comm]
        rw [segments_cons hterm, segments_cons hterm, hnext, ih hle, segment?_relocate]
        cases segments (offset + byteSize p.written) ps with
        | error e => rfl
        | ok segs => cases p.segment? offset <;> rfl

/-- A row of pieces has the same segments wherever it begins, each as far behind the start. -/
theorem segments_shift (offset : Nat) (ps : List Piece) :
    segments offset ps = (relocate (· + offset) (segments 0 ps)).map
      (List.map (Segment.relocate (· + offset))) := by
  have hzero : ∀ o, 0 ≤ o → (· + offset) o = o + offset := fun _ _ => rfl
  rw [← segments_relocate hzero, Nat.zero_add]

end Piece

end TemplateMarkup
