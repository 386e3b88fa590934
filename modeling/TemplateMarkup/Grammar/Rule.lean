/-! # Rules

The rules of the template grammar by name. Silent rules match without leaving
a node of their own; they can still be asked for by name.
-/

namespace TemplateMarkup.Grammar

inductive Rule where
  | template
  | opener
  | text
  | comment
  | var
  | escapeMarker
  | varBody
  | tag
  | tagBody
  | unterminatedTag
  | unterminatedVar
  | unterminatedComment
  | gap
  | quote
  | quoted
  | openQuote
  | tagInterior
  | tagWord
  | pipeline
  | stage
  | call
  | name
  | callArgs
  | callArg
  | argPiece
  | nested
  | endOfText
  deriving DecidableEq

namespace Rule

/-- The name under which the grammar knows a rule. -/
def label : Rule → String
  | template => "template"
  | opener => "opener"
  | text => "text"
  | comment => "comment"
  | var => "variable"
  | escapeMarker => "escape_marker"
  | varBody => "variable_body"
  | tag => "tag"
  | tagBody => "tag_body"
  | unterminatedTag => "unterminated_tag"
  | unterminatedVar => "unterminated_variable"
  | unterminatedComment => "unterminated_comment"
  | gap => "WS"
  | quote => "quote"
  | quoted => "quoted"
  | openQuote => "open_quote"
  | tagInterior => "tag_interior"
  | tagWord => "tag_word"
  | pipeline => "pipeline"
  | stage => "stage"
  | call => "call"
  | name => "name"
  | callArgs => "call_args"
  | callArg => "call_arg"
  | argPiece => "arg_piece"
  | nested => "nested"
  | endOfText => "EOI"

def all : List Rule :=
  [template, opener, text, comment, var, escapeMarker, varBody, tag, tagBody, unterminatedTag,
    unterminatedVar, unterminatedComment, gap, quote, quoted, openQuote, tagInterior, tagWord,
    pipeline, stage, call, name, callArgs, callArg, argPiece, nested, endOfText]

def ofLabel? (label : String) : Option Rule :=
  all.find? fun rule => rule.label = label

/-- Every rule is found under its own name. -/
theorem ofLabel?_label (rule : Rule) : ofLabel? rule.label = some rule := by
  cases rule <;> rfl

end Rule

end TemplateMarkup.Grammar
