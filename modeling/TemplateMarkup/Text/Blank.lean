/-! # White space

Two classes are kept apart. Gaps separate the words of a tag and surround the
parts of a variable: space, tab, carriage return and line feed. Blanks are all
characters with the Unicode property `White_Space`; they decide whether a text
counts as empty, and they are cut off a variable that is quoted in a message.
-/

namespace TemplateMarkup.Text

/-- The white space that separates words inside a construct. -/
def isGap (c : Char) : Bool :=
  c = ' ' || c = '\t' || c = '\r' || c = '\n'

/-- The Unicode property `White_Space`. -/
def isBlank (c : Char) : Bool :=
  (0x09 ≤ c.toNat && c.toNat ≤ 0x0D) || c.toNat = 0x20 || c.toNat = 0x85 || c.toNat = 0xA0 ||
    c.toNat = 0x1680 || (0x2000 ≤ c.toNat && c.toNat ≤ 0x200A) || c.toNat = 0x2028 ||
    c.toNat = 0x2029 || c.toNat = 0x202F || c.toNat = 0x205F || c.toNat = 0x3000

/-- A text without its leading and trailing blanks. -/
def trim (s : List Char) : List Char :=
  ((s.dropWhile isBlank).reverse.dropWhile isBlank).reverse

end TemplateMarkup.Text
