import TemplateMarkup.Tag
import TemplateMarkup.Text.Blank
import TemplateMarkup.Variable

/-! # Tokens

A token is a piece of text, a variable, a tag that stands alone, or a block
with the tokens of its body. Every token has one written form: texts as they
are, and a block as its tag, its body and its closing tag. A forest is written
token by token, with nothing in between.
-/

namespace TemplateMarkup

inductive Token where
  | text (text : List Char)
  | tag (tag : Tag)
  | block (tag : Tag) (body : List Token)
  | var (v : Variable)

namespace Token

def isText : Token → Bool
  | text _ => true
  | _ => false

/-- Whether a token is text without any character but blanks. -/
def isBlank : Token → Bool
  | text s => s.all Text.isBlank
  | _ => false

/-- The tokens enclosed by a token. -/
def body : Token → List Token
  | block _ ts => ts
  | _ => []

mutual

def display : Token → List Char
  | text s => s
  | tag t => t.display
  | block t ts => t.display ++ displayAll ts ++ displayWords [closerName t.name]
  | var v => v.display

def displayAll : List Token → List Char
  | [] => []
  | t :: ts => display t ++ displayAll ts

end

mutual

/-- Whether two tokens agree in every part. -/
def same : Token → Token → Bool
  | text s, text t => s = t
  | tag a, tag b => a = b
  | block a ts, block b us => a = b && sameAll ts us
  | var v, var w => v = w
  | _, _ => false

/-- Whether two rows of tokens agree in every part. -/
def sameAll : List Token → List Token → Bool
  | [], [] => true
  | t :: ts, u :: us => same t u && sameAll ts us
  | _, _ => false

end

mutual

theorem same_iff : (t u : Token) → (same t u = true ↔ t = u)
  | text _, u => by cases u <;> simp [same]
  | tag _, u => by cases u <;> simp [same]
  | block _ ts, u => by cases u <;> simp [same, sameAll_iff ts]
  | var _, u => by cases u <;> simp [same]

theorem sameAll_iff : (ts us : List Token) → (sameAll ts us = true ↔ ts = us)
  | [], us => by cases us <;> simp [sameAll]
  | t :: ts, us => by cases us <;> simp [sameAll, same_iff t, sameAll_iff ts]

end

instance : DecidableEq Token := fun t u => decidable_of_iff _ (same_iff t u)

end Token

end TemplateMarkup
