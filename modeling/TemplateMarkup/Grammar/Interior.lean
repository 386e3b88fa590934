import TemplateMarkup.Grammar.Recogniser
import TemplateMarkup.Grammar.Rule
import TemplateMarkup.Text.Blank

/-! # Interiors of tags and variables

A tag holds words separated by gaps. A variable holds stages separated by
pipes, and each stage is a name with an optional list of arguments. Separators
count only outside quotes, and commas only outside parentheses as well. A
quote that never closes runs to the end and leaves a node of its own.
-/

namespace TemplateMarkup.Grammar

open Recogniser

def gap : Recogniser Rule := charIn Text.isGap

def gaps : Recogniser Rule := many gap

def quote : Recogniser Rule := firstOf [literal ['"'], literal ['\'']]

/-- A piece between two equal quote characters, where a backslash protects the next character. -/
def quotedBy (mark : Char) : Recogniser Rule :=
  inOrder [literal [mark],
    many (firstOf [inOrder [literal ['\\'], anyChar], charBut (literal [mark])]),
    literal [mark]]

def quoted : Recogniser Rule := firstOf [quotedBy '"', quotedBy '\'']

def openQuote : Recogniser Rule := node .openQuote (inOrder [quote, many anyChar])

def tagWord : Recogniser Rule :=
  node .tagWord (many1 (firstOf [quoted, openQuote, charBut (firstOf [gap, quote])]))

def tagInterior : Recogniser Rule :=
  node .tagInterior (inOrder [gaps,
    maybe (inOrder [tagWord, many (inOrder [many1 gap, tagWord])]),
    gaps, endNode .endOfText])

def stage : Recogniser Rule :=
  node .stage (many (firstOf [quoted, openQuote, charBut (literal ['|'])]))

def pipeline : Recogniser Rule :=
  node .pipeline (inOrder [stage, many (inOrder [literal ['|'], stage]), endNode .endOfText])

/-- Characters that no name and no unquoted argument holds. -/
def reserved : List (Recogniser Rule) :=
  [gap, quote, literal ['('], literal [')'], literal [',']]

def name : Recogniser Rule :=
  node .name (many1 (charBut (firstOf (reserved ++ [literal ['|']]))))

/-- What may stand between parentheses, given what counts as a pair of them inside. -/
def nestedPiece (inner : Recogniser Rule) : Recogniser Rule :=
  firstOf [quoted, inner, charBut (firstOf [quote, literal ['('], literal [')']])]

/-- A pair of parentheses, given what counts as a pair of them inside. -/
def parenthesised (inner : Recogniser Rule) : Recogniser Rule :=
  inOrder [literal ['('], many (nestedPiece inner), literal [')']]

/-- Balanced parentheses with at most a number of levels. -/
def nestedWithin : Nat → Recogniser Rule
  | 0, _ => none
  | levels + 1, s => parenthesised (nestedWithin levels) s

/-- Balanced parentheses. Each level reads a parenthesis, so that the length of the text
bounds the number of levels. -/
def nested : Recogniser Rule := fun s => nestedWithin s.length s

def argPiece : Recogniser Rule :=
  many1 (firstOf [quoted, nested, charBut (firstOf reserved)])

def callArg : Recogniser Rule :=
  node .callArg (inOrder [argPiece, many (inOrder [many1 gap, argPiece])])

def callArgs : Recogniser Rule :=
  node .callArgs (inOrder [literal ['('], gaps,
    maybe (inOrder [callArg, gaps, many (inOrder [literal [','], gaps, callArg, gaps])]),
    literal [')']])

def call : Recogniser Rule :=
  node .call (inOrder [gaps, name, gaps, maybe callArgs, gaps, endNode .endOfText])

end TemplateMarkup.Grammar
