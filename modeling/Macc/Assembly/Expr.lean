import Macc.Assembly.Literal

/-!
# Operand expressions

An operand is a sum of terms such as `buf*2+1` or `0x20-end/4`.  `Term.resolve` takes it apart: at
its first sign into two operands, or else at the scaling `*n` or `/n` behind it into an operand and
a number, which goes into the factor or into the divisor.  Reading never fails: what is no literal
counts as the name of a symbol.
-/

namespace Macc

/-- A summand of an operand. -/
inductive Term
  /-- A number, already multiplied by its factors. -/
  | literal (value : Int64)
  /-- The value of a symbol, times a factor, divided by a divisor. -/
  | symbol (name : String) (factor divisor : Int64)
  deriving DecidableEq, Repr

/-! ### Signs -/

def isSign (c : Char) : Bool := c == '+' || c == '-'

/-- The text in front of its first sign, and the text from there on.  A sign that is the first
character does not count. -/
def splitSum? : List Char → Option (List Char × List Char)
  | [] => none
  | c :: cs =>
    match cs.dropWhile (!isSign ·) with
    | [] => none
    | sign :: rest => some (c :: cs.takeWhile (!isSign ·), sign :: rest)

/-- What a text is split into: a part that is not empty and is not split again, and one that begins
with a sign. -/
theorem splitSum?_eq_some {text front back : List Char}
    (h : splitSum? text = some (front, back)) :
    front ++ back = text ∧ front ≠ [] ∧ (∀ c ∈ front.tail, isSign c = false) ∧
      ∃ sign rest, back = sign :: rest ∧ isSign sign := by
  cases text with
  | nil => cases h
  | cons c cs =>
    have passed : ∀ d ∈ cs.takeWhile (!isSign ·), isSign d = false := fun d hd => by
      have := List.all_eq_true.1 List.all_takeWhile d hd
      simpa using this
    have stopped := List.head?_dropWhile_not (!isSign ·) cs
    rw [splitSum?] at h
    split at h
    · cases h
    next back sign rest hb =>
      cases h
      rw [hb] at stopped
      exact ⟨congrArg (c :: ·) (hb ▸ List.takeWhile_append_dropWhile), List.cons_ne_nil _ _,
        passed, sign, rest, rfl, by simpa using stopped⟩

theorem length_lt_of_splitSum? {text front back : List Char}
    (h : splitSum? text = some (front, back)) :
    front.length < text.length ∧ back.length < text.length := by
  obtain ⟨rfl, filled, -, sign, rest, rfl, -⟩ := splitSum?_eq_some h
  have := List.length_pos_iff.2 filled
  rw [List.length_append, List.length_cons]
  omega

/-- The text without the sign at its front, if it has one, and the factor with that sign. -/
def splitSign (text : List Char) (factor : Int64) : List Char × Int64 :=
  match text with
  | '-' :: rest => (rest, -factor)
  | '+' :: rest => (rest, factor)
  | rest => (rest, factor)

theorem length_splitSign_le (text : List Char) (factor : Int64) :
    (splitSign text factor).1.length ≤ text.length := by
  unfold splitSign
  split <;> simp

/-! ### Scalings -/

/-- The scaling at the end of a text, whose characters are gone through backwards: whether it
multiplies, its number and the text in front of it.  `digits` are those passed so far, and the first
character of the text is not looked at. -/
def scaling? (digits : List Char) : List Char → Option (Bool × Nat × List Char)
  | c :: d :: rest =>
    if c.isDigit then scaling? (c :: digits) (d :: rest)
    else if (c = '*' ∨ c = '/') ∧ digits ≠ [] then
      let number := (Text.readNat? 10 digits).filter (· < 0x8000000000000000)
      number.map fun n => (c == '*', n, (d :: rest).reverse)
    else none
  | _ => none

theorem length_lt_of_scaling? {digits reversed front : List Char} {times : Bool} {n : Nat}
    (h : scaling? digits reversed = some (times, n, front)) : front.length < reversed.length := by
  induction reversed generalizing digits with
  | nil => cases h
  | cons c reversed ih =>
    cases reversed with
    | nil => cases h
    | cons d rest =>
      rw [scaling?] at h
      split at h
      · exact Nat.lt_succ_of_lt (ih h)
      · split at h
        · obtain ⟨m, -, hm⟩ := Option.map_eq_some_iff.1 h
          obtain rfl : (d :: rest).reverse = front := congrArg (·.2.2) hm
          rw [List.length_reverse, List.length_cons]
          exact Nat.lt_succ_self _
        · cases h

/-- What is in front of the last scaling of an operand is shorter than the operand. -/
theorem length_lt_of_scaling?_splitSign {text front : List Char} {factor : Int64} {times : Bool}
    {n : Nat} (h : scaling? [] (splitSign text factor).1.reverse = some (times, n, front)) :
    front.length < text.length := by
  have shorter := length_lt_of_scaling? h
  rw [List.length_reverse] at shorter
  exact Nat.lt_of_lt_of_le shorter (length_splitSign_le text factor)

/-! ### Terms -/

namespace Term

/-- The term of a text without signs and scalings.  The divisor of a literal is ignored. -/
def ofText (text : List Char) (factor divisor : Int64) : Term :=
  match Literal.value? text with
  | some v => .literal (Int64.ofInt v * factor)
  | none => .symbol (String.ofList text) factor divisor

/-- Put the terms of an operand behind others. -/
def resolve (text : List Char) (factor divisor : Int64) (terms : Array Term) : Array Term :=
  match _sum : splitSum? text with
  | some (front, back) => resolve back factor divisor (resolve front factor divisor terms)
  | none =>
    let unsigned := splitSign text factor
    match _scaled : scaling? [] unsigned.1.reverse with
    | some (true, n, front) => resolve front (unsigned.2 * Int64.ofNat n) divisor terms
    | some (false, n, front) => resolve front unsigned.2 (divisor * Int64.ofNat n) terms
    | none => terms.push (ofText unsigned.1 unsigned.2 divisor)
termination_by text.length
decreasing_by
  · exact (length_lt_of_splitSum? _sum).1
  · exact (length_lt_of_splitSum? _sum).2
  all_goals exact length_lt_of_scaling?_splitSign _scaled

/-- The terms of an operand. -/
def ofOperand (text : List Char) : List Term := (resolve text 1 1 #[]).toList

end Term

end Macc
