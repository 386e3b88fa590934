/-! # Delimiters

The three families of constructs: tags, variables and comments. Each family
has a two-character opener that begins with a brace and a two-character closer
that ends with one.
-/

namespace TemplateMarkup

inductive Delimiter where
  | tag
  | var
  | comment
  deriving DecidableEq

namespace Delimiter

def opener : Delimiter → List Char
  | tag => ['{', '%']
  | var => ['{', '{']
  | comment => ['{', '#']

def closer : Delimiter → List Char
  | tag => ['%', '}']
  | var => ['}', '}']
  | comment => ['#', '}']

/-- The opener and the closer with a space between them. -/
def display (d : Delimiter) : List Char :=
  d.opener ++ ' ' :: d.closer

theorem length_opener (d : Delimiter) : d.opener.length = 2 := by cases d <;> rfl

end Delimiter

end TemplateMarkup
