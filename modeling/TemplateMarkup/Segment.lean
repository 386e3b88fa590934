import TemplateMarkup.Error
import TemplateMarkup.Grammar.Construct

/-! # Segments of a source

A source is read as a row of constructs. Its segments are the texts, tags and
variables among them, each with its byte offset; comments leave no segment. An
opener without a closer is an error, whatever stands before it.
-/

namespace TemplateMarkup

open Grammar

inductive Segment where
  | text (text : List Char) (offset : Nat)
  | tag (interior : List Char) (offset : Nat)
  | var (interior : List Char) (escape : Bool) (offset : Nat)
  deriving DecidableEq

def Segment.offset : Segment → Nat
  | text _ offset => offset
  | tag _ offset => offset
  | var _ _ offset => offset

/-- What a source consists of: its segments, its comments and at most one unterminated opener. -/
inductive Construct where
  | segment (s : Segment)
  | comment (offset : Nat)
  | unterminated (delimiter : Delimiter) (offset : Nat)
  deriving DecidableEq

namespace Construct

/-- The text of the first node of a rule that stands directly in a row. -/
def partText (rule : Rule) (ts : List (ParseTree Rule)) : List Char :=
  ((ts.find? (ParseTree.isNode rule)).map ParseTree.text).getD []

/-- The construct that a tree at an offset stands for; the end of the source is none. -/
def ofTree? (offset : Nat) : ParseTree Rule → Option Construct
  | .node .text ts => some (segment (.text (ParseTree.textAll ts) offset))
  | .node .comment _ => some (comment offset)
  | .node .tag ts => some (segment (.tag (partText .tagBody ts) offset))
  | .node .var ts =>
      some (segment (.var (partText .varBody ts) (ts.any (ParseTree.isNode .escapeMarker)) offset))
  | .node .unterminatedTag _ => some (unterminated .tag offset)
  | .node .unterminatedVar _ => some (unterminated .var offset)
  | .node .unterminatedComment _ => some (unterminated .comment offset)
  | _ => none

/-- The constructs of a source from left to right. -/
def ofSource? (source : List Char) : Option (List Construct) :=
  (Recogniser.parts? Grammar.template source).map fun ts =>
    (ParseTree.placed 0 ts).filterMap fun found => ofTree? found.1 found.2

/-- The segments among a row of constructs. -/
def segments : List Construct → Except TemplateError (List Segment)
  | [] => .ok []
  | segment s :: cs => (segments cs).map (s :: ·)
  | comment _ :: cs => segments cs
  | unterminated delimiter offset :: _ => .error (.unterminatedDelimiter delimiter offset)

end Construct

/-- The segments of a source from left to right. -/
def scan (source : List Char) : Except TemplateError (List Segment) :=
  match Construct.ofSource? source with
  | none => .error (.grammar (.expected Rule.template.label source))
  | some cs => Construct.segments cs

end TemplateMarkup
