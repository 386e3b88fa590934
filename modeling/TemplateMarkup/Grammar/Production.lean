import TemplateMarkup.Grammar.Construct
import TemplateMarkup.Grammar.Interior

/-! # What each rule matches

Every rule of the grammar has its recogniser, so that a text can be read by
any rule from its start, and the nodes on the matching path can be listed with
their places.
-/

namespace TemplateMarkup.Grammar.Rule

def recogniser : Rule → Recogniser Rule
  | template => Grammar.template
  | opener => Grammar.opener
  | text => Grammar.text
  | comment => Grammar.comment
  | var => Grammar.var
  | escapeMarker => Grammar.escapeMarker
  | varBody => Grammar.varBody
  | tag => Grammar.tag
  | tagBody => Grammar.tagBody
  | unterminatedTag => Grammar.unterminatedTag
  | unterminatedVar => Grammar.unterminatedVar
  | unterminatedComment => Grammar.unterminatedComment
  | gap => Grammar.gap
  | quote => Grammar.quote
  | quoted => Grammar.quoted
  | openQuote => Grammar.openQuote
  | tagInterior => Grammar.tagInterior
  | tagWord => Grammar.tagWord
  | pipeline => Grammar.pipeline
  | stage => Grammar.stage
  | call => Grammar.call
  | name => Grammar.name
  | callArgs => Grammar.callArgs
  | callArg => Grammar.callArg
  | argPiece => Grammar.argPiece
  | nested => Grammar.nested
  | endOfText => Recogniser.endNode .endOfText

/-- The nodes that a rule finds when it reads a text from its start. -/
def spans? (rule : Rule) (s : List Char) : Option (List (Span Rule)) :=
  (rule.recogniser s).map fun found => ParseTree.spansAll 0 found.1

end TemplateMarkup.Grammar.Rule
