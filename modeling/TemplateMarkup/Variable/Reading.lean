import TemplateMarkup.Lexeme
import TemplateMarkup.Variable

/-! # Reading a variable

The interior of a variable is cut at the pipes outside quotes. The first stage
gives the path and its arguments, every further stage a filter. Stages are
judged from left to right, and the first one at fault decides the error.
-/

namespace TemplateMarkup

open Grammar

/-- A name with the arguments written after it, if it has parentheses. -/
structure Call where
  name : List Char
  args : Option (List (List Char))
  deriving DecidableEq

namespace Call

/-- The call that a stage spells, gaps around its parts left out. -/
def ofText? (stage : List Char) : Option Call :=
  match Recogniser.parts? Grammar.call stage with
  | none => none
  | some ts =>
      (ts.find? (ParseTree.isNode .name)).map fun name =>
        ⟨name.text, (ts.find? (ParseTree.isNode .callArgs)).map fun args =>
          (args.children.filter (ParseTree.isNode .callArg)).map ParseTree.text⟩

/-- A filter keeps no difference between absent and empty parentheses. -/
def toFilter (c : Call) : Filter :=
  ⟨c.name, c.args.getD []⟩

end Call

namespace Variable

/-- Where the interior of a variable begins that begins at an offset itself. -/
def interiorOffset (escape : Bool) (offset : Nat) : Nat :=
  offset + Text.byteSize Delimiter.var.opener + if escape then 1 else 0

/-- The call that a stage spells, where `base` is the offset of the interior that holds it. -/
def readStage (malformed : TemplateError) (base : Nat) (stage : Nat × ParseTree Rule) :
    Except TemplateError Call :=
  lexeme base stage.1 stage.2 >>= fun text =>
    match Call.ofText? text with
    | none => .error malformed
    | some call => .ok call

/-- The first call is the path, the others are its filters. -/
def ofCalls? (escape : Bool) : List Call → Option Variable
  | [] => none
  | head :: rest => some ⟨head.name, rest.map Call.toFilter, escape, head.args⟩

/-- The variable with the given interior that begins at an offset. -/
def read (interior : List Char) (escape : Bool) (offset : Nat) : Except TemplateError Variable :=
  let malformed := .malformedVariable (Text.trim interior) offset
  match Recogniser.parts? Grammar.pipeline interior with
  | none => .error malformed
  | some ts => do
      let calls ← (ParseTree.nodesOf .stage 0 ts).mapM
        (readStage malformed (interiorOffset escape offset))
      match ofCalls? escape calls with
      | none => .error malformed
      | some v => .ok v

end Variable

end TemplateMarkup
