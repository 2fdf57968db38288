/-!
# Numerals

Reading and writing natural numbers in a radix.  `readNat?` takes digits only, `readBounded?` also
takes one plus sign before them and refuses values that are too large; `hex` writes lower-case
hexadecimal digits padded with zeros to a least width.
-/

namespace Macc

namespace Text

/-! ### Reading -/

/-- The value of a digit, letters of either case standing for ten and up. -/
def digitValue? (c : Char) : Option Nat :=
  if '0' ≤ c ∧ c ≤ '9' then some (c.toNat - '0'.toNat)
  else if 'a' ≤ c ∧ c ≤ 'z' then some (c.toNat - 'a'.toNat + 10)
  else if 'A' ≤ c ∧ c ≤ 'Z' then some (c.toNat - 'A'.toNat + 10)
  else none

/-- The value of a digit of the radix. -/
def digit? (radix : Nat) (c : Char) : Option Nat := (digitValue? c).filter (· < radix)

/-- The number that the digits write after those already read as `n`. -/
def readDigits? (radix n : Nat) (digits : List Char) : Option Nat :=
  digits.foldlM (fun n c => (digit? radix c).map (radix * n + ·)) n

theorem readDigits?_nil (radix n : Nat) : readDigits? radix n [] = some n := rfl

theorem readDigits?_cons (radix n : Nat) (c : Char) (cs : List Char) :
    readDigits? radix n (c :: cs) =
      (digit? radix c).bind fun d => readDigits? radix (radix * n + d) cs := by
  cases h : digit? radix c <;> simp [readDigits?, h]

theorem readDigits?_append (radix n : Nat) (cs ds : List Char) :
    readDigits? radix n (cs ++ ds) =
      (readDigits? radix n cs).bind fun m => readDigits? radix m ds := by
  simp [readDigits?, List.foldlM_append]

/-- A natural number: one or more digits of the radix and nothing else. -/
def readNat? (radix : Nat) (text : List Char) : Option Nat :=
  if text = [] then none else readDigits? radix 0 text

/-- A natural number below the bound, with at most one plus sign in front. -/
def readBounded? (radix bound : Nat) (text : List Char) : Option Nat :=
  (readNat? radix (if text.head? = some '+' then text.tail else text)).filter (· < bound)

/-! ### Writing -/

/-- Hexadecimal digits, with zeros in front up to the width. -/
def hexDigits (width n : Nat) : List Char := List.leftpad width '0' (Nat.toDigits 16 n)

/-- Hexadecimal text, with zeros in front up to the width. -/
def hex (width n : Nat) : String := String.ofList (hexDigits width n)

/-- Text with blanks in front up to the width, counted in characters. -/
def padLeft (width : Nat) (text : String) : String :=
  String.ofList (List.leftpad width ' ' text.toList)

/-- Text with blanks behind it up to the width, counted in characters. -/
def padRight (width : Nat) (text : String) : String :=
  String.ofList (List.rightpad width ' ' text.toList)

theorem toList_hex (width n : Nat) : (hex width n).toList = hexDigits width n := by
  simp [hex]

theorem hexDigits_ne_nil (width n : Nat) : hexDigits width n ≠ [] := by
  simp [hexDigits, List.leftpad, Nat.toDigits_ne_nil]

end Text

end Macc
