import TemplateMarkup.Item

/-! # Nesting

While a source is read, some blocks are open. Tokens are collected in the
innermost of them, or at the top level when none is open. Closing a block
moves it, with all it collected, into the block around it.
-/

namespace TemplateMarkup

/-- A block that still collects its body. -/
structure OpenBlock where
  tag : Tag
  body : List Token
  offset : Nat
  deriving DecidableEq

/-- The finished top-level tokens and the open blocks, innermost first. -/
structure Nesting where
  top : List Token
  blocks : List OpenBlock
  deriving DecidableEq

namespace Nesting

def empty : Nesting := ⟨[], []⟩

/-- Number of open blocks. -/
def depth (n : Nesting) : Nat :=
  n.blocks.length

/-- Names of the open blocks, outermost first. -/
def ancestors (n : Nesting) : List (List Char) :=
  (n.blocks.map fun b => b.tag.name).reverse

/-- Collect a token where the innermost open block, or the top level, stands. -/
def append (n : Nesting) (t : Token) : Nesting :=
  match n.blocks with
  | [] => ⟨n.top ++ [t], []⟩
  | b :: bs => ⟨n.top, { b with body := b.body ++ [t] } :: bs⟩

/-- Open a block. -/
def push (n : Nesting) (tag : Tag) (offset : Nat) : Nesting :=
  ⟨n.top, ⟨tag, [], offset⟩ :: n.blocks⟩

@[simp] theorem ancestors_append (n : Nesting) (t : Token) :
    (n.append t).ancestors = n.ancestors := by
  unfold append ancestors
  split <;> simp_all

@[simp] theorem ancestors_push (n : Nesting) (tag : Tag) (offset : Nat) :
    (n.push tag offset).ancestors = n.ancestors ++ [tag.name] := by
  simp [push, ancestors]

/-- Take in an item that begins at an offset, with at most `maxDepth` blocks open at once. -/
def place (maxDepth : Nat) (n : Nesting) (offset : Nat) : Item → Except TemplateError Nesting
  | .text s => .ok (n.append (.text s))
  | .var v => .ok (n.append (.var v))
  | .inline name args => .ok (n.append (.tag ⟨name, args, .inline, n.ancestors⟩))
  | .opening name args =>
      if maxDepth ≤ n.depth then .error (.nestingTooDeep name maxDepth offset)
      else .ok (n.push ⟨name, args, .block, n.ancestors⟩ offset)
  | .closing name =>
      match n.blocks with
      | [] => .error (.unbalancedClose name none offset)
      | b :: bs =>
          if b.tag.name = name then .ok ((⟨n.top, bs⟩ : Nesting).append (.block b.tag b.body))
          else .error (.unbalancedClose name (some b.tag.name) offset)

/-- The forest, once every block is closed. -/
def finish (n : Nesting) : Except TemplateError (List Token) :=
  match n.blocks with
  | [] => .ok n.top
  | b :: _ => .error (.missingClose b.tag.name b.offset)

end Nesting

end TemplateMarkup
