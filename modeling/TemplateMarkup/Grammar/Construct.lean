import TemplateMarkup.Delimiter
import TemplateMarkup.Grammar.Recogniser
import TemplateMarkup.Grammar.Rule

/-! # Constructs in a source

A source is text interleaved with comments, variables and tags. A construct
ends at the first closer of its family, whatever stands in between; an opener
without a closer takes the rest of the source.
-/

namespace TemplateMarkup.Grammar

open Recogniser

def opener : Recogniser Rule :=
  firstOf [literal Delimiter.tag.opener, literal Delimiter.var.opener,
    literal Delimiter.comment.opener]

/-- Read up to the closer of a family or the end of the text. -/
def upToCloser (d : Delimiter) : Recogniser Rule :=
  many (charBut (literal d.closer))

def text : Recogniser Rule :=
  node .text (many1 (charBut opener))

def comment : Recogniser Rule :=
  node .comment (inOrder [literal Delimiter.comment.opener, upToCloser .comment,
    literal Delimiter.comment.closer])

def escapeMarker : Recogniser Rule :=
  node .escapeMarker (literal ['!'])

def varBody : Recogniser Rule :=
  node .varBody (upToCloser .var)

def var : Recogniser Rule :=
  node .var (inOrder [literal Delimiter.var.opener, maybe escapeMarker, varBody,
    literal Delimiter.var.closer])

def tagBody : Recogniser Rule :=
  node .tagBody (upToCloser .tag)

def tag : Recogniser Rule :=
  node .tag (inOrder [literal Delimiter.tag.opener, tagBody, literal Delimiter.tag.closer])

/-- An opener and all that follows it. -/
def unterminated (rule : Rule) (d : Delimiter) : Recogniser Rule :=
  node rule (inOrder [literal d.opener, many anyChar])

def unterminatedTag : Recogniser Rule := unterminated .unterminatedTag .tag

def unterminatedVar : Recogniser Rule := unterminated .unterminatedVar .var

def unterminatedComment : Recogniser Rule := unterminated .unterminatedComment .comment

def template : Recogniser Rule :=
  node .template (inOrder [many (firstOf [comment, var, tag, unterminatedComment,
    unterminatedVar, unterminatedTag, text]), endNode .endOfText])

end TemplateMarkup.Grammar
