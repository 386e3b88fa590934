import TemplateMarkup.Delimiter

/-! # Variables

A variable prints a path, which may take arguments, after passing it through a
row of filters. Path, names and arguments are kept as they were written.
-/

namespace TemplateMarkup

structure Filter where
  name : List Char
  args : List (List Char)
  deriving DecidableEq

structure Variable where
  path : List Char
  filters : List Filter
  /-- Whether the variable carries the mark that follows its opener. -/
  escape : Bool
  /-- Absent without parentheses, empty for an empty pair of parentheses. -/
  args : Option (List (List Char))
  deriving DecidableEq

/-- Arguments in parentheses, separated by a comma and a space. -/
def argumentList (args : List (List Char)) : List Char :=
  '(' :: [',', ' '].intercalate args ++ [')']

/-- A filter without arguments is written without parentheses. -/
def Filter.display (f : Filter) : List Char :=
  f.name ++ if f.args = [] then [] else argumentList f.args

def Variable.display (v : Variable) : List Char :=
  Delimiter.var.opener ++ (if v.escape then ['!'] else []) ++ ' ' :: v.path ++
    (v.args.elim [] argumentList) ++ (v.filters.flatMap fun f => '|' :: f.display) ++
    ' ' :: Delimiter.var.closer

end TemplateMarkup
