import TemplateMarkup.Lexeme
import TemplateMarkup.Segment
import TemplateMarkup.Token
import TemplateMarkup.Variable.Reading

/-! # Items

An item is what one segment contributes to the token forest: a text, a
variable, an inline tag, the opening of a block or the closing of one. Which
item a segment is depends on the registry alone, never on the blocks that
happen to be open.
-/

namespace TemplateMarkup

inductive Item where
  | text (text : List Char)
  | var (v : Variable)
  | inline (name : List Char) (args : List (List Char))
  | opening (name : List Char) (args : List (List Char))
  | closing (name : List Char)
  deriving DecidableEq

namespace Item

/-- The closing tag of a block takes no arguments, and inline tags have none. -/
def ofCloser (registry : Registry) (target : List Char) (args : List (List Char))
    (offset : Nat) : Except TemplateError Item :=
  if args ≠ [] then .error (.argumentsOnClose target offset)
  else if registry.get? target = some .inline then .error (.unexpectedClose target offset)
  else .ok (closing target)

/-- What a tag with the given words means. A registered name is never a closing tag. -/
def ofWords (registry : Registry) (offset : Nat) : List (List Char) → Except TemplateError Item
  | [] => .error (.emptyTag offset)
  | name :: args =>
      match registry.get? name with
      | some .inline => .ok (inline name args)
      | some .block => .ok (opening name args)
      | none =>
          match closerTarget? name with
          | none => .error (.unknownTag name offset)
          | some target => ofCloser registry target args offset

def ofSegment (registry : Registry) : Segment → Except TemplateError Item
  | .text s _ => .ok (text s)
  | .tag interior offset => tagWords interior offset >>= ofWords registry offset
  | .var interior escape offset => (Variable.read interior escape offset).map var

end Item

end TemplateMarkup
