import Macc.Text.Numeral

/-!
# Integer literals

An integer literal is a magnitude with at most one sign in front.  The magnitude is hexadecimal
behind `0x` or `0X`, octal behind another leading zero, and decimal otherwise.  It must be below
`2 ^ 63`, so the least 64-bit integer has no literal.
-/

namespace Macc

namespace Literal

open Text

/-- The digits of a magnitude with their radix. -/
def radixed : List Char → Nat × List Char
  | '0' :: 'x' :: digits => (16, digits)
  | '0' :: 'X' :: digits => (16, digits)
  | '0' :: d :: digits => (8, d :: digits)
  | digits => (10, digits)

/-- A literal without its sign. -/
def magnitude? (text : List Char) : Option Nat :=
  (readNat? (radixed text).1 (radixed text).2).filter (· < 0x8000000000000000)

def value? (text : List Char) : Option Int :=
  match text with
  | '-' :: body => (magnitude? body).map fun n => -(n : Int)
  | '+' :: body => (magnitude? body).map Int.ofNat
  | body => (magnitude? body).map Int.ofNat

theorem magnitude?_lt {text : List Char} {n : Nat} (h : magnitude? text = some n) :
    n < 0x8000000000000000 := by
  simpa using (Option.filter_eq_some_iff.1 h).2

theorem value?_nil : value? [] = none := rfl

end Literal

end Macc
