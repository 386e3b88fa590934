import TemplateMarkup.Text.Offset

/-! # Concrete trees

A concrete tree keeps every character of the text it was read from: its leaves
in order are that text. A node names the rule that matched. Where a node
stands is not stored; it follows from the characters to the left of it.
-/

namespace TemplateMarkup.Grammar

inductive ParseTree (ρ : Type) where
  | char (c : Char)
  | node (rule : ρ) (children : List (ParseTree ρ))

/-- A node with its place in the text, from `start` up to `stop`, and the nodes inside it. -/
inductive Span (ρ : Type) where
  | mk (rule : ρ) (start stop : Nat) (inner : List (Span ρ))

namespace ParseTree

variable {ρ : Type}

def children : ParseTree ρ → List (ParseTree ρ)
  | char _ => []
  | node _ ts => ts

mutual

/-- The characters below a tree, in order. -/
def text : ParseTree ρ → List Char
  | char c => [c]
  | node _ ts => textAll ts

/-- The characters below a row of trees, in order. -/
def textAll : List (ParseTree ρ) → List Char
  | [] => []
  | t :: ts => text t ++ textAll ts

end

@[simp] theorem textAll_append (ts us : List (ParseTree ρ)) :
    textAll (ts ++ us) = textAll ts ++ textAll us := by
  induction ts with
  | nil => rfl
  | cons t ts ih => simp [textAll, ih]

@[simp] theorem textAll_map_char (s : List Char) : textAll (s.map (char (ρ := ρ))) = s := by
  induction s with
  | nil => rfl
  | cons c s ih => simp [textAll, text, ih]

mutual

/-- The nodes of a tree that begins at an offset, each with its place. -/
def spans (offset : Nat) : ParseTree ρ → List (Span ρ)
  | char _ => []
  | node rule ts =>
      [.mk rule offset (offset + Text.byteSize (textAll ts)) (spansAll offset ts)]

/-- The nodes of a row of trees that begins at an offset, each with its place. -/
def spansAll (offset : Nat) : List (ParseTree ρ) → List (Span ρ)
  | [] => []
  | t :: ts => spans offset t ++ spansAll (offset + Text.byteSize (text t)) ts

end

/-- The trees of a row that begins at an offset, each with its own offset. -/
def placed (offset : Nat) : List (ParseTree ρ) → List (Nat × ParseTree ρ)
  | [] => []
  | t :: ts => (offset, t) :: placed (offset + Text.byteSize t.text) ts

@[simp] theorem placed_map_snd (offset : Nat) (ts : List (ParseTree ρ)) :
    (placed offset ts).map Prod.snd = ts := by
  induction ts generalizing offset with
  | nil => rfl
  | cons t ts ih => simp [placed, ih]

theorem placed_append (offset : Nat) (ts us : List (ParseTree ρ)) :
    placed offset (ts ++ us) =
      placed offset ts ++ placed (offset + Text.byteSize (textAll ts)) us := by
  induction ts generalizing offset with
  | nil => simp [placed, textAll]
  | cons t ts ih => simp [placed, textAll, ih, Nat.add_assoc]

variable [DecidableEq ρ]

/-- Whether a tree is a node of a given rule. -/
def isNode (rule : ρ) : ParseTree ρ → Bool
  | char _ => false
  | node found _ => found = rule

/-- The nodes of a given rule that stand directly in a row, each with its offset. -/
def nodesOf (rule : ρ) (offset : Nat) (ts : List (ParseTree ρ)) : List (Nat × ParseTree ρ) :=
  (placed offset ts).filter fun found => found.2.isNode rule

end ParseTree

end TemplateMarkup.Grammar
