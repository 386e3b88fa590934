import TemplateMarkup.Nesting

/-! # Events

A run can be followed as a row of events: its start, the constructs found in
the source, the tags as they are nested, and the error it ends with. An event
has a level, a title and named details.
-/

namespace TemplateMarkup

inductive Event where
  | started (length registered : Nat)
  | text (offset length : Nat)
  | comment (offset : Nat)
  | tag (offset : Nat) (interior : List Char)
  | var (offset : Nat) (interior : List Char) (escape : Bool)
  | inline (name : List Char) (offset : Nat)
  | opened (name : List Char) (offset depth : Nat)
  | closed (name : List Char) (offset depth : Nat)
  | failed (error : TemplateError)
  deriving DecidableEq

namespace Event

inductive Level where
  | debug
  | trace
  deriving DecidableEq

def Level.label : Level → String
  | debug => "DEBUG"
  | trace => "TRACE"

inductive Detail where
  | number (n : Nat)
  | flag (b : Bool)
  | text (s : String)
  deriving DecidableEq

/-- The start of a run covers all that follows it; every other event is a moment. -/
def isSpan : Event → Bool
  | started .. => true
  | _ => false

def level : Event → Level
  | started .. | failed .. => .debug
  | _ => .trace

def title : Event → String
  | started .. => "tokenize"
  | text .. => "text"
  | comment .. => "skipping comment"
  | tag .. => "tag"
  | var .. => "variable"
  | inline .. => "inline tag"
  | opened .. => "opening block tag"
  | closed .. => "closing block tag"
  | failed .. => "tokenizing failed"

def details : Event → List (String × Detail)
  | started length registered => [("len", .number length), ("tags", .number registered)]
  | text offset length => [("offset", .number offset), ("len", .number length)]
  | comment offset => [("offset", .number offset)]
  | tag offset interior =>
      [("offset", .number offset), ("interior", .text (String.ofList interior))]
  | var offset interior escape =>
      [("offset", .number offset), ("interior", .text (String.ofList interior)),
        ("escape", .flag escape)]
  | inline name offset => [("tag", .text (String.ofList name)), ("offset", .number offset)]
  | opened name offset depth | closed name offset depth =>
      [("tag", .text (String.ofList name)), ("offset", .number offset), ("depth", .number depth)]
  | failed error => [("err", .text error.message)]

def ofSegment : Segment → Event
  | .text s offset => text offset (Text.byteSize s)
  | .tag interior offset => tag offset interior
  | .var interior escape offset => var offset interior escape

/-- One event for each construct up to the first opener without a closer. -/
def ofConstructs : List Construct → List Event
  | [] => []
  | .segment s :: cs => ofSegment s :: ofConstructs cs
  | .comment offset :: cs => comment offset :: ofConstructs cs
  | .unterminated .. :: _ => []

/-- The event of an item that finds its place in a nesting; only tags have one. -/
def ofItem? (n : Nesting) (offset : Nat) : Item → Option Event
  | .text _ | .var _ => none
  | .inline name _ => some (inline name offset)
  | .opening name _ => some (opened name offset n.depth)
  | .closing name => some (closed name offset (n.depth - 1))

end Event

end TemplateMarkup
