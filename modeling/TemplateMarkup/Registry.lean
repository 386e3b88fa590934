/-! # Registry of tag names

A registry says which tags exist and whether a tag encloses a body. Each name
has at most one entry; defining a name again replaces the entry.
-/

namespace TemplateMarkup

/-- An inline tag stands alone, a block tag encloses a body up to its closing tag. -/
inductive TagKind where
  | inline
  | block
  deriving DecidableEq

namespace TagKind

def requiresClose : TagKind → Bool
  | inline => false
  | block => true

def ofRequiresClose : Bool → TagKind
  | false => inline
  | true => block

end TagKind

structure Registry where
  entries : List (List Char × TagKind)
  nodup : (entries.map Prod.fst).Nodup

namespace Registry

def empty : Registry := ⟨[], List.nodup_nil⟩

def get? (r : Registry) (name : List Char) : Option TagKind :=
  r.entries.lookup name

def isDefined (r : Registry) (name : List Char) : Bool :=
  (r.get? name).isSome

/-- Number of names defined. -/
def size (r : Registry) : Nat :=
  r.entries.length

def isEmpty (r : Registry) : Bool :=
  r.entries.isEmpty

/-- Give a name its kind, in place of any kind it had. -/
def define (r : Registry) (name : List Char) (kind : TagKind) : Registry where
  entries := (name, kind) :: r.entries.filter fun entry => entry.1 ≠ name
  nodup := by
    have h : ((r.entries.filter fun entry => entry.1 ≠ name).map Prod.fst).Nodup :=
      r.nodup.sublist (List.filter_sublist.map _)
    simpa using h

/-- Define a row of names from left to right; the last entry of a name counts. -/
def ofList (pairs : List (List Char × TagKind)) : Registry :=
  pairs.foldl (fun r entry => r.define entry.1 entry.2) empty

/-- The tags that most templates expect. -/
def builtin : Registry :=
  ofList <|
    (["autoescape", "block", "filter", "for", "if", "macro", "spaceless"].map
      fun name => (name.toList, .block)) ++
    (["elif", "else", "empty", "extends", "import", "include", "parent", "set"].map
      fun name => (name.toList, .inline))

private theorem lookup_filter_ne {name other : List Char} (h : other ≠ name)
    (entries : List (List Char × TagKind)) :
    (entries.filter fun entry => entry.1 ≠ name).lookup other = entries.lookup other := by
  induction entries with
  | nil => rfl
  | cons entry entries ih =>
      obtain ⟨key, kind⟩ := entry
      simp only [ne_eq, decide_not] at ih ⊢
      by_cases hk : key = name
      · subst hk
        simp [ih, List.lookup_cons, beq_false_of_ne h]
      · simp [hk, ih, List.lookup_cons]

theorem get?_define (r : Registry) (name : List Char) (kind : TagKind) (other : List Char) :
    (r.define name kind).get? other = if other = name then some kind else r.get? other := by
  by_cases h : other = name
  · simp [get?, define, h]
  · simpa [get?, define, List.lookup_cons, h, beq_false_of_ne h] using lookup_filter_ne h r.entries

/-- The last entry of a name counts, whatever came before it. -/
theorem get?_ofList_append (pairs : List (List Char × TagKind)) (name : List Char)
    (kind : TagKind) (other : List Char) :
    (ofList (pairs ++ [(name, kind)])).get? other =
      if other = name then some kind else (ofList pairs).get? other := by
  rw [ofList, List.foldl_append]
  exact get?_define (ofList pairs) name kind other

example : (ofList [(['a'], .inline), (['b'], .inline), (['a'], .block)]).get? ['a'] =
    some .block := by decide

end Registry

end TemplateMarkup
