import TemplateMarkup.Event

/-! # Tokenizer

The tokenizer scans a source completely, then takes its segments one by one:
each is read as an item, and the item is placed in the nesting of the blocks
opened before it. The first error in this order is the result. A source with
nothing but blank text has no tokens.
-/

namespace TemplateMarkup

structure Tokenizer where
  registry : Registry
  /-- How many blocks may be open at once. -/
  maxDepth : Nat := 100

namespace Tokenizer

/-- Take in one segment. -/
def step (t : Tokenizer) (n : Nesting) (s : Segment) : Except TemplateError Nesting :=
  Item.ofSegment t.registry s >>= n.place t.maxDepth s.offset

/-- Take in a row of segments. -/
def nest (t : Tokenizer) (n : Nesting) (segments : List Segment) :
    Except TemplateError Nesting :=
  segments.foldlM t.step n

/-- The tokens of a source, blank or not. -/
def forest (t : Tokenizer) (source : List Char) : Except TemplateError (List Token) := do
  let segments ← scan source
  let n ← t.nest .empty segments
  n.finish

/-- A forest of blank texts only counts as empty. -/
def clearBlank (ts : List Token) : List Token :=
  if ts.all Token.isBlank then [] else ts

/-- The tokens of a source. -/
def tokenize (t : Tokenizer) (source : List Char) : Except TemplateError (List Token) :=
  (t.forest source).map clearBlank

/-- The events of the tags that are taken in before the first error. -/
def tagEvents (t : Tokenizer) (n : Nesting) : List Segment → List Event
  | [] => []
  | s :: rest =>
      match Item.ofSegment t.registry s with
      | .error _ => []
      | .ok item =>
          match n.place t.maxDepth s.offset item with
          | .error _ => []
          | .ok next => (Event.ofItem? n s.offset item).toList ++ t.tagEvents next rest

/-- The events of a run in order of occurrence. -/
def trace (t : Tokenizer) (source : List Char) : List Event :=
  .started (Text.byteSize source) t.registry.size ::
    ((Construct.ofSource? source).elim [] Event.ofConstructs ++
      (match scan source with
        | .error _ => []
        | .ok segments => t.tagEvents .empty segments) ++
      match t.tokenize source with
        | .error e => [.failed e]
        | .ok _ => [])

end Tokenizer

end TemplateMarkup
