import Mathlib.Data.List.Chain
import TemplateMarkup.Proofs.Forest.Linear

/-! # Sequences of a forest

A forest is a sequence of tokens, and so is the body of each block in it. The
items of a forest begin and end with a text exactly where the forest does, so
that what holds of neighbours in every sequence holds of neighbours among the
items.
-/

namespace TemplateMarkup

def Item.isText : Item → Bool
  | text _ => true
  | _ => false

namespace Token

mutual

/-- The bodies inside a token, at all levels. -/
def bodies : Token → List (List Token)
  | block _ ts => ts :: bodiesAll ts
  | _ => []

/-- The bodies inside a row of tokens, at all levels. -/
def bodiesAll : List Token → List (List Token)
  | [] => []
  | t :: ts => bodies t ++ bodiesAll ts

end

/-- All sequences of a forest: the forest itself and every body in it. -/
def sequences (ts : List Token) : List (List Token) :=
  ts :: bodiesAll ts

/-- Whether no two texts follow one another in a sequence. -/
def Apart (ts : List Token) : Prop :=
  ts.IsChain fun t u => ¬ (t.isText = true ∧ u.isText = true)

theorem items_ne_nil (t : Token) : t.items ≠ [] := by
  cases t <;> exact List.cons_ne_nil _ _

theorem isText_of_head?_items {t : Token} {item : Item} (h : t.items.head? = some item) :
    item.isText = t.isText := by
  cases t <;> · cases h; rfl

theorem eq_text_of_getLast?_items {t : Token} {s : List Char}
    (h : t.items.getLast? = some (.text s)) : t = .text s := by
  cases t with
  | text u =>
      cases h
      rfl
  | tag t => cases h
  | var v => cases h
  | block t ts =>
      rw [items, List.getLast?_concat] at h
      cases h

/-- A text at the end of the items is the last token. -/
theorem getLast?_of_getLast?_itemsAll {ts : List Token} {s : List Char}
    (h : (itemsAll ts).getLast? = some (.text s)) : ts.getLast? = some (.text s) := by
  induction ts with
  | nil => cases h
  | cons t ts ih =>
      cases ts with
      | nil =>
          rw [itemsAll, itemsAll, List.append_nil] at h
          rw [eq_text_of_getLast?_items h]
          rfl
      | cons u us =>
          have hne : itemsAll (u :: us) ≠ [] := by
            rw [itemsAll]
            exact fun hnil => items_ne_nil u (List.append_eq_nil_iff.mp hnil).1
          obtain ⟨last, hlast⟩ := Option.isSome_iff_exists.mp (List.getLast?_isSome.mpr hne)
          rw [itemsAll, List.getLast?_append, hlast] at h
          rw [List.getLast?_cons_cons]
          exact ih (hlast.trans h)

theorem isText_of_head?_itemsAll {t : Token} {ts : List Token} {item : Item}
    (h : (itemsAll (t :: ts)).head? = some item) : item.isText = t.isText := by
  obtain ⟨first, hfirst⟩ :=
    Option.isSome_iff_exists.mp (List.isSome_head?.mpr (items_ne_nil t))
  rw [itemsAll, List.head?_append, hfirst] at h
  cases h
  exact isText_of_head?_items hfirst

end Token

end TemplateMarkup
