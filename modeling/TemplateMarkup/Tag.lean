import TemplateMarkup.Delimiter
import TemplateMarkup.Registry

/-! # Tags

A tag is a name with arguments. It is written with single spaces around and
between its words. The closing tag of a block is named after the block, and
its name is all it says.
-/

namespace TemplateMarkup

structure Tag where
  name : List Char
  /-- The words after the name, quotes and backslashes included. -/
  args : List (List Char)
  kind : TagKind
  /-- Names of the enclosing blocks, outermost first. -/
  ancestors : List (List Char)
  deriving DecidableEq

/-- A tag written from its words. -/
def displayWords (words : List (List Char)) : List Char :=
  Delimiter.tag.opener ++ (words.flatMap fun word => ' ' :: word) ++ ' ' :: Delimiter.tag.closer

def Tag.display (tag : Tag) : List Char :=
  displayWords (tag.name :: tag.args)

/-- The name of the tag that closes a block. -/
def closerName (name : List Char) : List Char :=
  'e' :: 'n' :: 'd' :: name

@[simp] theorem drop_closerName (name : List Char) : (closerName name).drop 3 = name := rfl

/-- The block that a name would close, if it is the name of a closing tag at all. -/
def closerTarget? : List Char → Option (List Char)
  | 'e' :: 'n' :: 'd' :: target => if target = [] then none else some target
  | _ => none

theorem closerTarget?_eq_some_iff {word target : List Char} :
    closerTarget? word = some target ↔ word = closerName target ∧ target ≠ [] := by
  constructor
  · intro h
    unfold closerTarget? at h
    split at h
    · rename_i found
      split at h
      · simp at h
      · obtain rfl : found = target := by simpa using h
        exact ⟨rfl, by assumption⟩
    · simp at h
  · rintro ⟨rfl, h⟩
    simp [closerTarget?, closerName, h]

example : closerTarget? ['e', 'n', 'd'] = none := by decide

end TemplateMarkup
