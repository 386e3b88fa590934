import TemplateMarkup.Grammar.ParseTree

/-! # Recognisers

A recogniser reads the front of a text and answers with the trees it found and
the unread rest, or refuses. Choices are ordered and final: the first
alternative that matches is taken, repetitions take as many rounds as they can,
and neither is ever undone by what follows.
-/

namespace TemplateMarkup.Grammar

abbrev Recogniser (ρ : Type) := List Char → Option (List (ParseTree ρ) × List Char)

namespace Recogniser

variable {ρ : Type}

/-- Match without reading. -/
def nothing : Recogniser ρ := fun s => some ([], s)

/-- Never match. -/
def never : Recogniser ρ := fun _ => none

/-- Read one character of a class. -/
def charIn (allowed : Char → Bool) : Recogniser ρ
  | [] => none
  | c :: s => if allowed c then some ([.char c], s) else none

/-- Read any one character. -/
def anyChar : Recogniser ρ := charIn fun _ => true

/-- Read exactly the given characters. -/
def literal : List Char → Recogniser ρ
  | [], s => some ([], s)
  | _ :: _, [] => none
  | c :: w, d :: s =>
      if c = d then (literal w s).map fun found => (.char c :: found.1, found.2) else none

/-- Match one after the other. -/
def followedBy (p q : Recogniser ρ) : Recogniser ρ := fun s =>
  match p s with
  | none => none
  | some (ts, rest) => (q rest).map fun found => (ts ++ found.1, found.2)

/-- Match the first where it matches, otherwise the second. -/
def orElse (p q : Recogniser ρ) : Recogniser ρ := fun s =>
  match p s with
  | none => q s
  | some found => some found

/-- Match a row of recognisers one after the other. -/
def inOrder : List (Recogniser ρ) → Recogniser ρ
  | [] => nothing
  | p :: ps => p.followedBy (inOrder ps)

/-- Match the first of a row of recognisers that matches. -/
def firstOf : List (Recogniser ρ) → Recogniser ρ
  | [] => never
  | p :: ps => p.orElse (firstOf ps)

/-- Match at most a number of rounds, stopping at the first refusal. -/
def upTo (p : Recogniser ρ) : Nat → Recogniser ρ
  | 0, s => some ([], s)
  | n + 1, s =>
      match p s with
      | none => some ([], s)
      | some (ts, rest) => (upTo p n rest).map fun found => (ts ++ found.1, found.2)

/-- Match as many rounds as possible. No round of these grammars is empty, so that a text
never has more rounds than characters. -/
def many (p : Recogniser ρ) : Recogniser ρ := fun s => upTo p s.length s

/-- Match as many rounds as possible, at least one. -/
def many1 (p : Recogniser ρ) : Recogniser ρ := p.followedBy (many p)

/-- Match where possible, and otherwise read nothing. -/
def maybe (p : Recogniser ρ) : Recogniser ρ := p.orElse nothing

/-- Match, without reading, where another recogniser refuses. -/
def notAhead (p : Recogniser ρ) : Recogniser ρ := fun s =>
  match p s with
  | none => some ([], s)
  | some _ => none

/-- Read one character where another recogniser refuses. -/
def charBut (p : Recogniser ρ) : Recogniser ρ := (notAhead p).followedBy anyChar

/-- Collect what a recogniser finds under a node. -/
def node (rule : ρ) (p : Recogniser ρ) : Recogniser ρ := fun s =>
  (p s).map fun found => ([.node rule found.1], found.2)

/-- Match only at the end of the text, leaving a node without characters. -/
def endNode (rule : ρ) : Recogniser ρ
  | [] => some ([.node rule []], [])
  | _ :: _ => none

/-- What stands directly below the trees found, where the recogniser matches. -/
def parts? (p : Recogniser ρ) (s : List Char) : Option (List (ParseTree ρ)) :=
  (p s).map fun found => found.1.flatMap ParseTree.children

/-- A recogniser is lossless when the trees it finds and the rest make up the text. -/
def Lossless (p : Recogniser ρ) : Prop :=
  ∀ s ts rest, p s = some (ts, rest) → ParseTree.textAll ts ++ rest = s

end Recogniser

end TemplateMarkup.Grammar
