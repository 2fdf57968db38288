/-!
# Blanks

Text is handled as lists of characters.  This file has the two classes of blank characters that
the formats of this library use: `isBlank`, the Unicode property White_Space, and `isAsciiBlank`,
the five blanks that separate the words of a source line.  On top of them stand the functions that
cut text at blanks: `trimStart`, `trim` and `words`.
-/

namespace Macc

namespace Text

/-- The Unicode property White_Space. -/
def isBlank (c : Char) : Bool :=
  let n := c.toNat
  (0x09 ≤ n && n ≤ 0x0d) || n == 0x20 || n == 0x85 || n == 0xa0 || n == 0x1680 ||
    (0x2000 ≤ n && n ≤ 0x200a) || n == 0x2028 || n == 0x2029 || n == 0x202f || n == 0x205f ||
    n == 0x3000

/-- Space, tab, line feed, form feed and carriage return. -/
def isAsciiBlank (c : Char) : Bool :=
  c == ' ' || c == '\t' || c == '\n' || c == '\x0c' || c == '\r'

theorem isBlank_of_isAsciiBlank {c : Char} (h : isAsciiBlank c) : isBlank c := by
  simp only [isAsciiBlank, Bool.or_eq_true, beq_iff_eq] at h
  rcases h with (((h | h) | h) | h) | h <;> subst h <;> decide

/-- The text without the blanks it begins with. -/
def trimStart (text : List Char) : List Char := text.dropWhile isBlank

/-- The text without the blanks it begins and ends with. -/
def trim (text : List Char) : List Char :=
  ((trimStart text).reverse.dropWhile isBlank).reverse

/-- The maximal stretches of characters that are not separators. -/
def words (separator : Char → Bool) (text : List Char) : List (List Char) :=
  (text.splitOnP separator).filter (· ≠ [])

end Text

end Macc
