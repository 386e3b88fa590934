import TemplateMarkup.Proofs.Forest.Reading

/-! # The log of the tags

The events of the tags follow the open blocks: at each moment the openings that
are not taken back by a closing are those of the blocks that are open. What may
come next is therefore known from the events before it.
-/

namespace TemplateMarkup

open Outcome Token

namespace Event

/-- The openings that are not closed yet, outermost first, after one more event. A closing takes
back the last of them. -/
def follow (opens : List Event) : Event → List Event
  | opened name offset depth => opens ++ [opened name offset depth]
  | closed .. => opens.dropLast
  | _ => opens

/-- The openings of a log that are not closed in it, outermost first. -/
def unclosed (log : List Event) : List Event :=
  log.foldl follow []

/-- The name of the tag that is taken in with an event; closing a block takes in none. -/
def tagName? : Event → Option (List Char)
  | inline name _ => some name
  | opened name _ _ => some name
  | _ => none

end Event

open Event

/-- The name of the tag that an item stands for, unless it only closes a block. -/
def Item.tagName? : Item → Option (List Char)
  | inline name _ => some name
  | opening name _ => some name
  | _ => none

namespace Token

mutual

/-- The names of the tags of a token, those of a block before those in its body. -/
def tagNames : Token → List (List Char)
  | text _ => []
  | var _ => []
  | tag t => [t.name]
  | block t ts => t.name :: tagNamesAll ts

/-- The names of the tags of a row of tokens, those of a block before those in its body. -/
def tagNamesAll : List Token → List (List Char)
  | [] => []
  | t :: ts => tagNames t ++ tagNamesAll ts

end

mutual

theorem filterMap_tagName?_items : (t : Token) → t.items.filterMap Item.tagName? = t.tagNames
  | text _ => rfl
  | var _ => rfl
  | tag _ => rfl
  | block t ts => by
      have hts := filterMap_tagName?_itemsAll ts
      simp [items, tagNames, Item.tagName?, hts]

/-- The tags of a forest are opened in the order in which they stand in it. -/
theorem filterMap_tagName?_itemsAll : (ts : List Token) →
    (itemsAll ts).filterMap Item.tagName? = tagNamesAll ts
  | [] => rfl
  | t :: ts => by
      rw [itemsAll, List.filterMap_append, filterMap_tagName?_items t,
        filterMap_tagName?_itemsAll ts, tagNamesAll]

end

end Token

namespace Nesting

variable {maxDepth offset : Nat} {n next : Nesting} {item : Item}

end Nesting

namespace Tokenizer

variable {t : Tokenizer} {n next last : Nesting} {s : Segment} {segments : List Segment}

end Tokenizer

end TemplateMarkup
