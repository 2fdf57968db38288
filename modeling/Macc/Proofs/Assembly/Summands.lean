import Macc.Assembly.Expr
import Mathlib.Data.List.TakeWhile

/-!
# Summands

The terms of an operand without the recursion that finds them.  `summands` cuts a text before every
sign at once, `unscale` takes all scalings off the end of a summand, and `Term.ofSummand` reads the
sign, the scalings and what remains.  Taking an operand apart comes to the same
(`Term.toList_resolve`): cutting at the first sign only, and once more at the next one, cuts before
every sign, and no sign is left in front of a scaling that has been taken off.
-/

namespace Macc

/-! ### Cutting at all signs -/

/-- Put a character in front of a text that is cut into the part before its first sign and the parts
that begin with a sign. -/
def cutSign (c : Char) : List Char × List (List Char) → List Char × List (List Char)
  | (head, tail) => if isSign c then ([], (c :: head) :: tail) else (c :: head, tail)

/-- The text cut before every sign that is not its first character. -/
def summands (text : List Char) : List (List Char) :=
  match text.foldr cutSign ([], []) with
  | ([], p :: ps) => p :: ps
  | (head, tail) => head :: tail

theorem append_flatten_foldr_cutSign (text : List Char) :
    (text.foldr cutSign ([], [])).1 ++ (text.foldr cutSign ([], [])).2.flatten = text := by
  induction text with
  | nil => rfl
  | cons c cs ih =>
    simp only [List.foldr_cons, cutSign]
    split <;> simp [ih]

/-- Nothing is lost when a text is cut. -/
theorem flatten_summands (text : List Char) : (summands text).flatten = text := by
  have h := append_flatten_foldr_cutSign text
  unfold summands
  split
  · simpa [*] using h
  · simpa [*] using h

/-- A text without signs is not cut. -/
theorem foldr_cutSign_of_unsigned {text head : List Char} {tail : List (List Char)}
    (h : ∀ d ∈ text, isSign d = false) :
    text.foldr cutSign (head, tail) = (text ++ head, tail) := by
  induction text with
  | nil => rfl
  | cons d ds ih =>
    rw [List.forall_mem_cons] at h
    rw [List.foldr_cons, ih h.2, cutSign, if_neg (by simp [h.1]), List.cons_append]

/-- A text with a sign at its front at most is one summand. -/
theorem summands_eq_singleton {text : List Char} (h : ∀ d ∈ text.tail, isSign d = false) :
    summands text = [text] := by
  cases text with
  | nil => rfl
  | cons c cs =>
    rw [List.tail_cons] at h
    rw [summands, List.foldr_cons, foldr_cutSign_of_unsigned h, List.append_nil, cutSign]
    cases isSign c <;> rfl

/-- A text that is not split has no sign behind its first character. -/
theorem unsigned_of_splitSum?_eq_none {text : List Char} (h : splitSum? text = none) :
    ∀ d ∈ text.tail, isSign d = false := by
  cases text with
  | nil => exact List.forall_mem_nil _
  | cons c cs =>
    rw [splitSum?] at h
    split at h
    next passed =>
      intro d hd
      have := List.dropWhile_eq_nil_iff.1 passed d hd
      simpa using this
    next => cases h

/-- The first sign is one of those at which a text is cut. -/
theorem summands_of_splitSum? {text front back : List Char}
    (h : splitSum? text = some (front, back)) :
    summands front = [front] ∧ summands text = front :: summands back := by
  obtain ⟨rfl, filled, unsigned, sign, rest, rfl, hs⟩ := splitSum?_eq_some h
  refine ⟨summands_eq_singleton unsigned, ?_⟩
  obtain ⟨c, cs, rfl⟩ := List.exists_cons_of_ne_nil filled
  rw [List.tail_cons] at unsigned
  generalize hx : rest.foldr cutSign ([], []) = x
  obtain ⟨head, tail⟩ := x
  have behind : (sign :: rest).foldr cutSign ([], []) = ([], (sign :: head) :: tail) := by
    rw [List.foldr_cons, hx, cutSign, if_pos hs]
  rw [summands, summands, List.foldr_append, behind, List.foldr_cons,
    foldr_cutSign_of_unsigned unsigned, List.append_nil, cutSign]
  cases isSign c <;> rfl

/-! ### Taking off all scalings -/

/-- The scaling at the end of a term that is written backwards: whether it multiplies, its number
and the rest of the term, which is not empty. -/
def lastScaling? (reversed : List Char) : Option (Bool × Nat × List Char) :=
  match reversed.dropWhile Char.isDigit with
  | op :: c :: rest =>
    if op = '*' ∨ op = '/' then
      let number := Text.readNat? 10 (reversed.takeWhile Char.isDigit).reverse
      (number.filter (· < 0x8000000000000000)).map fun n => (op == '*', n, c :: rest)
    else none
  | _ => none

/-- An operator at least stands behind what is in front of a scaling. -/
theorem exists_cons_of_lastScaling? {reversed rest : List Char} {times : Bool} {n : Nat}
    (h : lastScaling? reversed = some (times, n, rest)) :
    ∃ op, (op :: rest).Sublist reversed := by
  have sublist := List.dropWhile_sublist Char.isDigit (l := reversed)
  unfold lastScaling? at h
  split at h
  next op c behind hb =>
    split at h
    · obtain ⟨m, -, hm⟩ := Option.map_eq_some_iff.1 h
      obtain rfl : c :: behind = rest := congrArg (·.2.2) hm
      exact ⟨op, hb ▸ sublist⟩
    · cases h
  next => cases h

theorem length_lt_of_lastScaling? {reversed rest : List Char} {times : Bool} {n : Nat}
    (h : lastScaling? reversed = some (times, n, rest)) : rest.length < reversed.length := by
  obtain ⟨op, sublist⟩ := exists_cons_of_lastScaling? h
  exact sublist.length_le

/-- Take all scalings off a term that is written backwards.  What remains is in reading order; the
factor and the divisor are multiplied by the numbers taken off. -/
def unscale (factor divisor : Int64) (reversed : List Char) : List Char × Int64 × Int64 :=
  match _h : lastScaling? reversed with
  | none => (reversed.reverse, factor, divisor)
  | some (true, n, rest) => unscale (factor * Int64.ofNat n) divisor rest
  | some (false, n, rest) => unscale factor (divisor * Int64.ofNat n) rest
termination_by reversed.length
decreasing_by all_goals exact length_lt_of_lastScaling? (by assumption)

theorem unscale_of_eq_none {reversed : List Char} (h : lastScaling? reversed = none)
    (factor divisor : Int64) :
    unscale factor divisor reversed = (reversed.reverse, factor, divisor) := by
  rw [unscale]
  split
  next => rfl
  next hs => cases h.symm.trans hs
  next hs => cases h.symm.trans hs

theorem unscale_of_eq_some {reversed rest : List Char} {times : Bool} {n : Nat}
    (h : lastScaling? reversed = some (times, n, rest)) (factor divisor : Int64) :
    unscale factor divisor reversed =
      unscale (factor * if times then .ofNat n else 1) (divisor * if times then 1 else .ofNat n)
        rest := by
  rw [unscale]
  split
  next hs => cases h.symm.trans hs
  next hs =>
    cases h.symm.trans hs
    rw [if_pos rfl, if_pos rfl, Int64.mul_one]
  next hs =>
    cases h.symm.trans hs
    rw [if_neg Bool.false_ne_true, if_neg Bool.false_ne_true, Int64.mul_one]

/-- Going through a text backwards passes the digits at its end and stops in front of them. -/
theorem scaling?_eq (digits reversed : List Char) :
    scaling? digits reversed =
      match reversed.dropWhile Char.isDigit with
      | op :: c :: rest =>
        if op = '*' ∨ op = '/' then
          let number := Text.readNat? 10 ((reversed.takeWhile Char.isDigit).reverse ++ digits)
          (number.filter (· < 0x8000000000000000)).map
            fun n => (op == '*', n, (c :: rest).reverse)
        else none
      | _ => none := by
  induction reversed generalizing digits with
  | nil => rfl
  | cons c reversed ih =>
    cases reversed with
    | nil => cases h : c.isDigit <;> simp [scaling?, h]
    | cons d rest =>
      rw [scaling?]
      cases h : c.isDigit with
      | true => rw [if_pos rfl, ih, List.dropWhile_cons_of_pos h, List.takeWhile_cons_of_pos h,
          List.reverse_cons, List.append_assoc, List.singleton_append]
      | false =>
        have stop : ¬ c.isDigit = true := Bool.eq_false_iff.1 h
        rw [if_neg Bool.false_ne_true, List.dropWhile_cons_of_neg stop,
          List.takeWhile_cons_of_neg stop, List.reverse_nil, List.nil_append]
        by_cases hd : digits = []
        · -- no digits make no number
          rw [if_neg fun h => h.2 hd, hd]
          dsimp only
          split <;> rfl
        · simp only [and_iff_left hd]

theorem scaling?_nil_eq (reversed : List Char) :
    scaling? [] reversed =
      (lastScaling? reversed).map fun s => (s.1, s.2.1, s.2.2.reverse) := by
  rw [scaling?_eq, lastScaling?]
  split
  · split
    · rw [List.append_nil, Option.map_map]
      rfl
    · rfl
  · rfl

/-! ### Terms -/

namespace Term

/-- The term that a summand writes. -/
def ofSummand (factor divisor : Int64) (text : List Char) : Term :=
  let unsigned := splitSign text factor
  let unscaled := unscale unsigned.2 divisor unsigned.1.reverse
  ofText unscaled.1 unscaled.2.1 unscaled.2.2

theorem splitSign_of_unsigned {text : List Char} (h : ∀ c ∈ text, isSign c = false)
    (factor : Int64) : splitSign text factor = (text, factor) := by
  unfold splitSign
  split
  next rest => exact absurd (h '-' (.head _)) (by decide)
  next rest => exact absurd (h '+' (.head _)) (by decide)
  next => rfl

/-- Without its sign a summand has none. -/
theorem unsigned_splitSign {text : List Char} (h : ∀ c ∈ text.tail, isSign c = false)
    (factor : Int64) : ∀ c ∈ (splitSign text factor).1, isSign c = false := by
  unfold splitSign
  split
  next => exact h
  next => exact h
  next notMinus notPlus =>
    cases text with
    | nil => exact List.forall_mem_nil _
    | cons c cs =>
      refine List.forall_mem_cons.2 ⟨?_, h⟩
      rw [isSign, Bool.or_eq_false_iff, beq_eq_false_iff_ne, beq_eq_false_iff_ne]
      exact ⟨fun e => notPlus cs (e ▸ rfl), fun e => notMinus cs (e ▸ rfl)⟩

/-- A summand with a scaling at its end is the one without it, and what is in front of the scaling
has no sign. -/
theorem ofSummand_of_scaling? {text front : List Char} {factor : Int64} {times : Bool} {n : Nat}
    (unsigned : ∀ c ∈ text.tail, isSign c = false)
    (h : scaling? [] (splitSign text factor).1.reverse = some (times, n, front))
    (divisor : Int64) :
    summands front = [front] ∧ ofSummand factor divisor text =
      ofSummand ((splitSign text factor).2 * if times then .ofNat n else 1)
        (divisor * if times then 1 else .ofNat n) front := by
  rw [scaling?_nil_eq] at h
  obtain ⟨⟨_, _, rest⟩, last, same⟩ := Option.map_eq_some_iff.1 h
  obtain ⟨rfl, rfl, rfl⟩ : _ = times ∧ _ = n ∧ rest.reverse = front := by simpa using same
  have clean : ∀ c ∈ rest.reverse, isSign c = false := fun c hc => by
    obtain ⟨op, sublist⟩ := exists_cons_of_lastScaling? last
    have inside := sublist.subset (.tail op (List.mem_reverse.1 hc))
    exact unsigned_splitSign unsigned factor c (List.mem_reverse.1 inside)
  refine ⟨summands_eq_singleton fun c hc => clean c (List.mem_of_mem_tail hc), ?_⟩
  rw [ofSummand, unscale_of_eq_some last, ofSummand, splitSign_of_unsigned clean,
    List.reverse_reverse]

/-- Taking an operand apart gives a term for each of its summands. -/
theorem toList_resolve (text : List Char) (factor divisor : Int64) (terms : Array Term) :
    (resolve text factor divisor terms).toList =
      terms.toList ++ (summands text).map (ofSummand factor divisor) := by
  fun_induction resolve text factor divisor terms with
  | case1 text factor divisor terms front back hsum ihFront ihBack =>
    obtain ⟨single, cut⟩ := summands_of_splitSum? hsum
    rw [ihBack, ihFront, single, cut, List.append_assoc]
    rfl
  | case2 text factor divisor terms hsum unsigned n front hscaled ih =>
    have clean := unsigned_of_splitSum?_eq_none hsum
    obtain ⟨single, same⟩ := ofSummand_of_scaling? clean hscaled divisor
    rw [if_pos rfl, if_pos rfl, Int64.mul_one] at same
    rw [ih, single, summands_eq_singleton clean, List.map_singleton, List.map_singleton, same]
  | case3 text factor divisor terms hsum unsigned n front hscaled ih =>
    have clean := unsigned_of_splitSum?_eq_none hsum
    obtain ⟨single, same⟩ := ofSummand_of_scaling? clean hscaled divisor
    rw [if_neg Bool.false_ne_true, if_neg Bool.false_ne_true, Int64.mul_one] at same
    rw [ih, single, summands_eq_singleton clean, List.map_singleton, List.map_singleton, same]
  | case4 text factor divisor terms hsum unsigned hscaled =>
    have clean := unsigned_of_splitSum?_eq_none hsum
    rw [scaling?_nil_eq, Option.map_eq_none_iff] at hscaled
    rw [summands_eq_singleton clean, List.map_singleton, ofSummand, unscale_of_eq_none hscaled,
      List.reverse_reverse, Array.toList_push]

/-- An operand has a term for each of its summands. -/
theorem ofOperand_eq (text : List Char) : ofOperand text = (summands text).map (ofSummand 1 1) :=
  toList_resolve text 1 1 #[]

end Term

end Macc
