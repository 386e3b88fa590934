import TemplateMarkup.Delimiter
import TemplateMarkup.Text.Position

/-! # Errors

Each cause of a failure is a case of its own and carries what its message
names. Offsets are byte offsets into the source and point at the start of the
construct at fault, or at the quote itself when a quote never closes.
-/

namespace TemplateMarkup

/-- A place in a text, given by what stands before and after it, that a rule cannot get past. -/
structure GrammarFault where
  note : String
  before : List Char
  after : List Char
  deriving DecidableEq

namespace GrammarFault

/-- The fault of a text that a rule does not match from its start. -/
def expected (rule : String) (s : List Char) : GrammarFault :=
  ⟨"expected " ++ rule, [], s⟩

/-- The fault at a byte offset, unless the offset is not between two characters. -/
def ofOffset? (note : String) (source : List Char) (offset : Nat) : Option GrammarFault :=
  (Text.splitAtByte? source offset).map fun cut => ⟨note, cut.1, cut.2⟩

def offset (fault : GrammarFault) : Nat :=
  Text.byteSize fault.before

def position (fault : GrammarFault) : Position :=
  Position.after fault.before

/-- The line around the fault, without carriage returns. -/
def line (fault : GrammarFault) : List Char :=
  ((fault.before.reverse.takeWhile (· ≠ '\n')).reverse ++ fault.after.takeWhile (· ≠ '\n')).filter
    (· ≠ '\r')

/-- Spaces under the characters left of the fault; a tab stays a tab. -/
def indent (fault : GrammarFault) : List Char :=
  (fault.line.take (fault.position.column - 1)).map fun c => if c = '\t' then '\t' else ' '

/-- The line around the fault with its number, a mark under the fault, and the note. -/
def report (fault : GrammarFault) : String :=
  let number := toString fault.position.line
  let margin := String.ofList (List.replicate number.length ' ')
  String.intercalate "\n"
    [margin ++ "--> " ++ number ++ ":" ++ toString fault.position.column,
      margin ++ " |",
      number ++ " | " ++ String.ofList fault.line,
      margin ++ " | " ++ String.ofList fault.indent ++ "^---",
      margin ++ " |",
      margin ++ " = " ++ fault.note]

end GrammarFault

inductive TemplateError where
  | unknownTag (name : List Char) (offset : Nat)
  | missingClose (name : List Char) (offset : Nat)
  | unexpectedClose (name : List Char) (offset : Nat)
  | unbalancedClose (name : List Char) (expected : Option (List Char)) (offset : Nat)
  | argumentsOnClose (name : List Char) (offset : Nat)
  | unterminatedDelimiter (delimiter : Delimiter) (offset : Nat)
  | unterminatedQuote (offset : Nat)
  | malformedVariable (interior : List Char) (offset : Nat)
  | emptyTag (offset : Nat)
  | nestingTooDeep (name : List Char) (maxDepth : Nat) (offset : Nat)
  | grammar (fault : GrammarFault)
  deriving DecidableEq

namespace TemplateError

/-- Byte offset of the error in the source. -/
def offset : TemplateError → Nat
  | unknownTag _ offset => offset
  | missingClose _ offset => offset
  | unexpectedClose _ offset => offset
  | unbalancedClose _ _ offset => offset
  | argumentsOnClose _ offset => offset
  | unterminatedDelimiter _ offset => offset
  | unterminatedQuote offset => offset
  | malformedVariable _ offset => offset
  | emptyTag offset => offset
  | nestingTooDeep _ _ offset => offset
  | grammar fault => fault.offset

/-- Position of the error in a source. -/
def position? (e : TemplateError) (source : List Char) : Option Position :=
  Position.ofOffset? source e.offset

def quotedName (name : List Char) : String :=
  "`" ++ String.ofList name ++ "`"

def quotedCloser (name : List Char) : String :=
  "`end" ++ String.ofList name ++ "`"

def atByte (offset : Nat) : String :=
  " at byte " ++ toString offset

def message : TemplateError → String
  | unknownTag name offset => "unknown tag " ++ quotedName name ++ atByte offset
  | missingClose name offset =>
      "tag " ++ quotedName name ++ " opened" ++ atByte offset ++ " is never closed by " ++
        quotedCloser name
  | unexpectedClose name offset =>
      quotedCloser name ++ atByte offset ++ " closes " ++ quotedName name ++
        ", which does not take a closing tag"
  | unbalancedClose name expected offset =>
      quotedCloser name ++ atByte offset ++ " does not close the innermost open tag " ++
        expected.elim "(no tag is open)" quotedName
  | argumentsOnClose name offset => quotedCloser name ++ atByte offset ++ " takes no arguments"
  | unterminatedDelimiter delimiter offset =>
      "unterminated " ++ quotedName delimiter.opener ++ atByte offset ++ ", expected " ++
        quotedName delimiter.closer
  | unterminatedQuote offset => "unterminated quote" ++ atByte offset
  | malformedVariable interior offset =>
      "malformed variable " ++ quotedName interior ++ atByte offset
  | emptyTag offset => "tag" ++ atByte offset ++ " has no name"
  | nestingTooDeep name maxDepth offset =>
      "tag " ++ quotedName name ++ atByte offset ++ " exceeds the maximum nesting depth of " ++
        toString maxDepth
  | grammar fault => "template grammar error: " ++ fault.report

end TemplateError

end TemplateMarkup
