import TemplateMarkup.Error
import TemplateMarkup.Grammar.Interior

/-! # Lexemes of an interior

A word of a tag and a stage of a variable are kept verbatim, provided that all
their quotes close. An error about a quote points at the quote in the source,
so that the place where the interior begins has to be known.
-/

namespace TemplateMarkup

open Grammar

/-- The text of a tree that stands at an offset of an interior which begins at `base`. -/
def lexeme (base offset : Nat) (t : ParseTree Rule) : Except TemplateError (List Char) :=
  match ParseTree.nodesOf .openQuote offset t.children with
  | [] => .ok t.text
  | (start, _) :: _ => .error (.unterminatedQuote (base + start))

/-- The words of the interior of a tag that begins at an offset. -/
def tagWords (interior : List Char) (offset : Nat) : Except TemplateError (List (List Char)) :=
  match Recogniser.parts? Grammar.tagInterior interior with
  | none => .error (.grammar (.expected Rule.tagInterior.label interior))
  | some ts =>
      (ParseTree.nodesOf .tagWord 0 ts).mapM fun word =>
        lexeme (offset + Text.byteSize Delimiter.tag.opener) word.1 word.2

end TemplateMarkup
