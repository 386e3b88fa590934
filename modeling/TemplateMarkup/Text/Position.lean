import TemplateMarkup.Text.Offset

/-! # Lines and columns

Positions count from one. A line feed ends a line, a carriage return directly
before it belongs to the same line end, and every other character is one
column wide.
-/

namespace TemplateMarkup

structure Position where
  line : Nat
  column : Nat
  deriving DecidableEq

namespace Position

def start : Position := ⟨1, 1⟩

def nextLine (p : Position) : Position := ⟨p.line + 1, 1⟩

def nextColumn (p : Position) : Position := ⟨p.line, p.column + 1⟩

/-- Move a position over a text. -/
def advance (p : Position) : List Char → Position
  | [] => p
  | '\r' :: '\n' :: s => advance p.nextLine s
  | '\n' :: s => advance p.nextLine s
  | _ :: s => advance p.nextColumn s

/-- Position right after a text that begins at the start. -/
def after (s : List Char) : Position := start.advance s

/-- Position of a byte offset in a source, unless the offset is not between two characters. -/
def ofOffset? (source : List Char) (offset : Nat) : Option Position :=
  (Text.splitAtByte? source offset).map fun cut => after cut.1

theorem ofOffset?_eq_some_iff {source : List Char} {offset : Nat} {p : Position} :
    ofOffset? source offset = some p ↔
      ∃ s t, s ++ t = source ∧ Text.byteSize s = offset ∧ p = after s := by
  simp only [ofOffset?, Option.map_eq_some_iff, Prod.exists, Text.splitAtByte?_eq_some_iff]
  constructor
  · rintro ⟨s, t, ⟨h, ho⟩, rfl⟩
    exact ⟨s, t, h, ho, rfl⟩
  · rintro ⟨s, t, h, ho, rfl⟩
    exact ⟨s, t, ⟨h, ho⟩, rfl⟩

example : ofOffset? ['a', '\r', '\n', 'é', 'b'] 5 = some ⟨2, 2⟩ := by decide

example : ofOffset? ['a', '\r', '\n', 'é', 'b'] 4 = none := by decide

end Position

end TemplateMarkup
