import Mathlib.Algebra.Group.Nat.Defs
import Mathlib.Data.List.Induction
import Mathlib.Data.List.TakeWhile
import Macc.Proofs.Assembly.Reading

/-!
# Operands, described and read

An operand can be described without saying how it is read.  Cut before its signs, it has pieces
(`IsCut`).  A piece is a sign, which may be left out, a text, and any number of scalings
(`IsScaled`), and it writes one term (`Term.WrittenAs`).  `Term.ofOperand_laws` says that reading an
operand is finding these, so that the terms of two operands in a row are those of both.
-/

namespace Macc

open Text

/-! ### Cutting at signs -/

/-- The text begins with a sign. -/
def BeginsWithSign (text : List Char) : Prop := text.head?.any isSign

instance (text : List Char) : Decidable (BeginsWithSign text) :=
  inferInstanceAs (Decidable (_ = true))

/-- The pieces of a text that is cut before every sign that is not its first character. -/
structure IsCut (text : List Char) (pieces : List (List Char)) : Prop where
  flatten : pieces.flatten = text
  /-- Behind its first character, no piece has a sign. -/
  uncut : ∀ p ∈ pieces, ∀ c ∈ p.tail, isSign c = false
  /-- Every piece but the first begins with a sign. -/
  begins : ∀ p ∈ pieces.tail, BeginsWithSign p
  pieces_ne_nil : pieces ≠ []
  /-- Only the empty text has an empty piece, itself. -/
  ne_nil : text ≠ [] → [] ∉ pieces

theorem BeginsWithSign.exists_cons {text : List Char} (h : BeginsWithSign text) :
    ∃ c cs, text = c :: cs ∧ isSign c := by
  cases text with
  | nil => cases h
  | cons c cs => exact ⟨c, cs, rfl, h⟩

theorem BeginsWithSign.ne_nil {text : List Char} (h : BeginsWithSign text) : text ≠ [] := by
  obtain ⟨c, cs, rfl, -⟩ := h.exists_cons
  exact List.cons_ne_nil c cs

/-- Pieces that all begin with a sign are found again. -/
theorem foldr_cutSign_flatten {pieces : List (List Char)} (begins : ∀ p ∈ pieces, BeginsWithSign p)
    (uncut : ∀ p ∈ pieces, ∀ c ∈ p.tail, isSign c = false) :
    pieces.flatten.foldr cutSign ([], []) = ([], pieces) := by
  induction pieces with
  | nil => rfl
  | cons p ps ih =>
    rw [List.forall_mem_cons] at begins uncut
    obtain ⟨c, cs, rfl, sign⟩ := begins.1.exists_cons
    rw [List.tail_cons] at uncut
    rw [List.flatten_cons, List.foldr_append, ih begins.2 uncut.2, List.foldr_cons,
      foldr_cutSign_of_unsigned uncut.1, cutSign, if_pos sign, List.append_nil]

theorem IsCut.summands_eq {text : List Char} {pieces : List (List Char)} (h : IsCut text pieces) :
    summands text = pieces := by
  obtain ⟨p, ps, rfl⟩ := List.exists_cons_of_ne_nil h.pieces_ne_nil
  have behind : ps.flatten.foldr cutSign ([], []) = ([], ps) :=
    foldr_cutSign_flatten h.begins fun q hq => h.uncut q (.tail p hq)
  rw [summands, ← h.flatten, List.flatten_cons, List.foldr_append, behind]
  cases p with
  | nil =>
    -- the text is empty, so nothing is behind the first piece
    have empty : text = [] := Classical.byContradiction fun ne => h.ne_nil ne (.head _)
    cases ps with
    | nil => rfl
    | cons q qs =>
      have both : q ++ qs.flatten = [] := h.flatten.trans empty
      exact absurd (List.append_eq_nil_iff.1 both).1 (h.begins q (.head _)).ne_nil
  | cons c cs =>
    have clean : ∀ d ∈ cs, isSign d = false := h.uncut _ (.head _)
    rw [List.foldr_cons, foldr_cutSign_of_unsigned clean, List.append_nil, cutSign]
    cases isSign c <;> rfl

theorem foldr_cutSign_uncut (text : List Char) :
    (∀ c ∈ (text.foldr cutSign ([], [])).1, isSign c = false) ∧
      ∀ p ∈ (text.foldr cutSign ([], [])).2, BeginsWithSign p ∧ ∀ c ∈ p.tail, isSign c = false := by
  induction text with
  | nil => exact ⟨List.forall_mem_nil _, List.forall_mem_nil _⟩
  | cons c cs ih =>
    rw [List.foldr_cons, cutSign]
    split
    next sign =>
      have first : BeginsWithSign (c :: (cs.foldr cutSign ([], [])).1) := sign
      exact ⟨List.forall_mem_nil _, List.forall_mem_cons.2 ⟨⟨first, ih.1⟩, ih.2⟩⟩
    next unsigned => exact ⟨List.forall_mem_cons.2 ⟨Bool.eq_false_iff.2 unsigned, ih.1⟩, ih.2⟩

theorem isCut_summands (text : List Char) : IsCut text (summands text) := by
  have flatten := flatten_summands text
  obtain ⟨front, behind⟩ := foldr_cutSign_uncut text
  generalize hx : text.foldr cutSign ([], []) = x at front behind
  obtain ⟨head, tail⟩ := x
  have begins : ∀ p ∈ tail, BeginsWithSign p := fun p hp => (behind p hp).1
  have uncut : ∀ p ∈ tail, ∀ c ∈ p.tail, isSign c = false := fun p hp => (behind p hp).2
  have filled : [] ∉ tail := fun empty => (begins [] empty).ne_nil rfl
  rw [summands, hx] at flatten ⊢
  cases head with
  | nil =>
    cases tail with
    | nil =>
      obtain rfl : [] = text := flatten
      exact ⟨rfl, by simp, List.forall_mem_nil _, List.cons_ne_nil _ _, fun h => absurd rfl h⟩
    | cons p ps =>
      exact ⟨flatten, uncut, fun q hq => begins q (.tail p hq), List.cons_ne_nil _ _,
        fun _ => filled⟩
  | cons c cs =>
    have whole : ∀ p ∈ (c :: cs) :: tail, ∀ d ∈ p.tail, isSign d = false :=
      List.forall_mem_cons.2 ⟨fun d hd => front d (.tail c hd), uncut⟩
    refine ⟨flatten, whole, begins, List.cons_ne_nil _ _, fun _ empty => ?_⟩
    cases empty with
    | tail _ empty => exact filled empty

/-- A text is cut in one way only. -/
theorem isCut_iff {text : List Char} {pieces : List (List Char)} :
    IsCut text pieces ↔ summands text = pieces :=
  ⟨IsCut.summands_eq, fun h => h ▸ isCut_summands text⟩

/-- Two texts in a row are cut where they meet, if the second one begins with a sign. -/
theorem IsCut.append {text rest : List Char} {ps qs : List (List Char)} (h : IsCut text ps)
    (h' : IsCut rest qs) (filled : text ≠ []) (sign : BeginsWithSign rest) :
    IsCut (text ++ rest) (ps ++ qs) := by
  obtain ⟨q, qs, rfl⟩ := List.exists_cons_of_ne_nil h'.pieces_ne_nil
  obtain ⟨p, ps, rfl⟩ := List.exists_cons_of_ne_nil h.pieces_ne_nil
  have filled' : q ≠ [] := fun empty => h'.ne_nil sign.ne_nil (empty ▸ .head _)
  have first : BeginsWithSign q := by
    rwa [BeginsWithSign, ← h'.flatten, List.flatten_cons, List.head?_append_of_ne_nil _ filled']
      at sign
  refine ⟨?_, ?_, ?_, List.cons_ne_nil _ _, fun _ => ?_⟩
  · rw [List.flatten_append, h.flatten, h'.flatten]
  · exact List.forall_mem_append.2 ⟨h.uncut, h'.uncut⟩
  · exact List.forall_mem_append.2 ⟨h.begins, List.forall_mem_cons.2 ⟨first, h'.begins⟩⟩
  · exact List.not_mem_append (h.ne_nil filled) (h'.ne_nil sign.ne_nil)

/-! ### Scalings -/

/-- An operator with a number behind it.  The number fits into a signed double word. -/
structure Scaling where
  times : Bool
  digits : List Char
  digits_ne_nil : digits ≠ []
  isDigit : ∀ d ∈ digits, d.isDigit
  number_le : Nat.ofDigitChars 10 digits 0 ≤ 2 ^ 63 - 1

namespace Scaling

def number (s : Scaling) : Nat := Nat.ofDigitChars 10 s.digits 0

def operator (s : Scaling) : Char := if s.times then '*' else '/'

def text (s : Scaling) : List Char := s.operator :: s.digits

/-- The product of the numbers that multiply, or of those that divide. -/
def product (times : Bool) (scalings : List Scaling) : Nat :=
  ((scalings.filter (·.times = times)).map number).prod

end Scaling

/-- The text is `body` with the scalings behind it, as many as there are. -/
structure IsScaled (text body : List Char) (scalings : List Scaling) : Prop where
  text_eq : text = body ++ scalings.flatMap Scaling.text
  /-- The operator of a scaling is not the first character of the text. -/
  body_ne_nil : scalings ≠ [] → body ≠ []
  unscaled : ∀ front (s : Scaling), front ≠ [] → body ≠ front ++ s.text

theorem digit?_of_isDigit {c : Char} (h : c.isDigit) :
    digit? 10 c = some (c.toNat - '0'.toNat) := by
  have range := Char.isDigit_iff_toNat.1 h
  have within : '0' ≤ c ∧ c ≤ '9' := ⟨(char_le_iff _ _).2 range.1, (char_le_iff _ _).2 range.2⟩
  have small : c.toNat - '0'.toNat < 10 := by
    have nine : '9'.toNat = '0'.toNat + 9 := rfl
    omega
  rw [digit?, digitValue?, if_pos within, Option.filter_some,
    if_pos (decide_eq_true small)]

/-- Decimal digits are read as the number that they write. -/
theorem readDigits?_of_isDigit {digits : List Char} (h : ∀ d ∈ digits, d.isDigit) (n : Nat) :
    readDigits? 10 n digits = some (Nat.ofDigitChars 10 digits n) := by
  induction digits generalizing n with
  | nil => rw [readDigits?_nil, Nat.ofDigitChars_nil]
  | cons c cs ih =>
    rw [List.forall_mem_cons] at h
    rw [readDigits?_cons, digit?_of_isDigit h.1, Option.bind_some, ih h.2, Nat.ofDigitChars_cons]

namespace Scaling

theorem isDigit_operator (s : Scaling) : ¬ s.operator.isDigit := by
  unfold operator
  split <;> decide

theorem operator_eq (s : Scaling) : s.operator = '*' ∨ s.operator = '/' := by
  unfold operator
  split
  · exact .inl rfl
  · exact .inr rfl

theorem operator_beq (s : Scaling) : (s.operator == '*') = s.times := by
  unfold operator
  cases s.times <;> rfl

theorem readNat?_digits (s : Scaling) : readNat? 10 s.digits = some s.number := by
  rw [readNat?, if_neg s.digits_ne_nil, readDigits?_of_isDigit s.isDigit, number]

theorem reverse_append_text (front : List Char) (s : Scaling) :
    (front ++ s.text).reverse = s.digits.reverse ++ s.operator :: front.reverse := by
  rw [text, List.reverse_append, List.reverse_cons, List.append_assoc]
  rfl

/-- An operator and digits that are read as a number make a scaling. -/
theorem exists_of_readNat? {op : Char} {digits : List Char} {n : Nat}
    (isOperator : op = '*' ∨ op = '/') (isDigit : ∀ d ∈ digits, d.isDigit)
    (read : readNat? 10 digits = some n) (small : n < 0x8000000000000000) :
    ∃ s : Scaling, s.operator = op ∧ s.digits = digits := by
  have filled : digits ≠ [] := by
    rintro rfl
    cases read
  rw [readNat?, if_neg filled, readDigits?_of_isDigit isDigit, Option.some.injEq] at read
  refine ⟨⟨op == '*', digits, filled, isDigit, read ▸ Nat.le_of_lt_succ small⟩, ?_, rfl⟩
  rcases isOperator with rfl | rfl <;> rfl

end Scaling

/-- The scaling at the end of a text is found. -/
theorem lastScaling?_append_text {front : List Char} (filled : front ≠ []) (s : Scaling) :
    lastScaling? (front ++ s.text).reverse = some (s.times, s.number, front.reverse) := by
  obtain ⟨c, rest, reversed⟩ := List.exists_cons_of_ne_nil (List.reverse_ne_nil_iff.2 filled)
  have digits : ∀ d ∈ s.digits.reverse, d.isDigit := fun d hd => s.isDigit d (List.mem_reverse.1 hd)
  have small : (some s.number).filter (· < 0x8000000000000000) = some s.number :=
    if_pos (decide_eq_true (Nat.lt_succ_of_le s.number_le))
  rw [lastScaling?, s.reverse_append_text, reversed, List.dropWhile_append_of_pos digits,
    List.dropWhile_cons_of_neg s.isDigit_operator, List.takeWhile_append_of_pos digits,
    List.takeWhile_cons_of_neg s.isDigit_operator, List.append_nil, List.reverse_reverse,
    s.readNat?_digits]
  dsimp only
  rw [if_pos s.operator_eq, small, s.operator_beq, Option.map_some]

/-- What is found is a scaling at the end of the text. -/
theorem exists_of_lastScaling? {text rest : List Char} {times : Bool} {n : Nat}
    (h : lastScaling? text.reverse = some (times, n, rest)) :
    ∃ (front : List Char) (s : Scaling), front ≠ [] ∧ text = front ++ s.text := by
  have isDigit : ∀ d ∈ (text.reverse.takeWhile Char.isDigit).reverse, d.isDigit := fun d hd =>
    List.mem_takeWhile_imp (List.mem_reverse.1 hd)
  unfold lastScaling? at h
  split at h
  next op c behind hb =>
    split at h
    next isOperator =>
      obtain ⟨m, found, -⟩ := Option.map_eq_some_iff.1 h
      obtain ⟨read, small⟩ := Option.filter_eq_some_iff.1 found
      obtain ⟨s, operator, digits⟩ :=
        Scaling.exists_of_readNat? isOperator isDigit read (of_decide_eq_true small)
      refine ⟨(c :: behind).reverse, s, by simp, List.reverse_inj.1 ?_⟩
      rw [s.reverse_append_text, operator, digits, List.reverse_reverse, List.reverse_reverse, ← hb,
        List.takeWhile_append_dropWhile]
    next => cases h
  next => cases h

/-- No scaling is found exactly if there is none behind a text that is not empty. -/
theorem lastScaling?_eq_none_iff {text : List Char} :
    lastScaling? text.reverse = none ↔
      ∀ (front : List Char) (s : Scaling), front ≠ [] → text ≠ front ++ s.text := by
  constructor
  · rintro h front s filled rfl
    rw [lastScaling?_append_text filled s] at h
    cases h
  · intro unscaled
    cases h : lastScaling? text.reverse with
    | none => rfl
    | some found =>
      obtain ⟨times, n, rest⟩ := found
      obtain ⟨front, s, filled, same⟩ := exists_of_lastScaling? h
      exact absurd same (unscaled front s filled)

namespace Scaling

theorem product_append (times : Bool) (scalings : List Scaling) (s : Scaling) :
    product times (scalings ++ [s]) =
      (if s.times = times then s.number else 1) * product times scalings := by
  rw [product, List.filter_append, List.map_append, List.prod_append, Nat.mul_comm]
  congr 1
  by_cases h : s.times = times <;> simp [h]

end Scaling

/-- Scalings are taken off from the last one to the first one. -/
theorem IsScaled.unscale_eq {text body : List Char} {scalings : List Scaling}
    (h : IsScaled text body scalings) (factor divisor : Int64) :
    unscale factor divisor text.reverse =
      (body, factor * .ofNat (Scaling.product true scalings),
        divisor * .ofNat (Scaling.product false scalings)) := by
  obtain ⟨rfl, filled, unscaled⟩ := h
  induction scalings using List.reverseRecOn generalizing factor divisor with
  | nil =>
    have none := lastScaling?_eq_none_iff.2 unscaled
    have one (times : Bool) : Int64.ofNat (Scaling.product times []) = 1 := rfl
    rw [List.flatMap_nil, List.append_nil, unscale_of_eq_none none, List.reverse_reverse, one, one,
      Int64.mul_one, Int64.mul_one]
  | append_singleton scalings s ih =>
    have nonempty : body ++ scalings.flatMap Scaling.text ≠ [] := fun empty =>
      filled (by simp) (List.append_eq_nil_iff.1 empty).1
    have last := lastScaling?_append_text nonempty s
    rw [List.flatMap_append, List.flatMap_singleton, ← List.append_assoc,
      unscale_of_eq_some last, ih _ _ fun _ => filled (by simp), Scaling.product_append,
      Scaling.product_append, Int64.ofNat_mul, Int64.ofNat_mul, Int64.mul_assoc, Int64.mul_assoc]
    cases s.times <;> rfl

theorem exists_isScaled (text : List Char) : ∃ body scalings, IsScaled text body scalings := by
  induction hn : text.length using Nat.strongRecOn generalizing text with
  | ind n ih =>
    by_cases h : ∃ (front : List Char) (s : Scaling), front ≠ [] ∧ text = front ++ s.text
    · obtain ⟨front, s, filled, rfl⟩ := h
      have shorter : front.length < n := by
        rw [← hn, List.length_append, Scaling.text, List.length_cons]
        omega
      obtain ⟨body, scalings, same, filled', unscaled⟩ := ih _ shorter front rfl
      refine ⟨body, scalings ++ [s], ?_, fun _ => ?_, unscaled⟩
      · rw [List.flatMap_append, List.flatMap_singleton, ← List.append_assoc, ← same]
      · rintro rfl
        cases scalings with
        | nil => exact filled same
        | cons s' scalings => exact filled' (List.cons_ne_nil _ _) rfl
    · refine ⟨text, [], (List.append_nil _).symm, fun h => absurd rfl h, ?_⟩
      exact fun front s filled same => h ⟨front, s, filled, same⟩

/-! ### Terms -/

/-- The text without the sign at its front, if it has one, and the sign as a number. -/
inductive Unsigned : List Char → Int → List Char → Prop
  | minus (rest : List Char) : Unsigned ('-' :: rest) (-1) rest
  | plus (rest : List Char) : Unsigned ('+' :: rest) 1 rest
  | none {text : List Char} (h : ¬ BeginsWithSign text) : Unsigned text 1 text

theorem Unsigned.splitSign_eq {text rest : List Char} {sign : Int} (h : Unsigned text sign rest) :
    splitSign text 1 = (rest, .ofInt sign) := by
  cases h with
  | minus => rfl
  | plus => rfl
  | none h =>
    unfold splitSign
    split
    next rest => exact absurd rfl h
    next rest => exact absurd rfl h
    next => rfl

theorem exists_unsigned (text : List Char) : ∃ sign rest, Unsigned text sign rest := by
  by_cases h : BeginsWithSign text
  · obtain ⟨c, rest, rfl, sign⟩ := h.exists_cons
    rcases Bool.or_eq_true_iff.1 sign with plus | minus
    · obtain rfl := eq_of_beq plus
      exact ⟨1, rest, .plus rest⟩
    · obtain rfl := eq_of_beq minus
      exact ⟨-1, rest, .minus rest⟩
  · exact ⟨1, text, .none h⟩

namespace Term

/-- The term is what a piece of an operand writes.  Its factor is the sign times the numbers that
multiply, its divisor the product of those that divide, and both are wrapped.  A literal ignores
the divisor. -/
def WrittenAs (piece : List Char) (term : Term) : Prop :=
  ∃ sign unsigned body scalings, Unsigned piece sign unsigned ∧ IsScaled unsigned body scalings ∧
    let factor := Int64.ofInt (sign * Scaling.product true scalings)
    let divisor := Int64.ofNat (Scaling.product false scalings)
    term = match Literal.value? body with
      | some v => .literal (.ofInt (v * factor.toInt))
      | none => .symbol (String.ofList body) factor divisor

theorem WrittenAs.eq_ofSummand {piece : List Char} {term : Term} (h : WrittenAs piece term) :
    term = ofSummand 1 1 piece := by
  obtain ⟨sign, unsigned, body, scalings, hsign, scaled, rfl⟩ := h
  have factor : Int64.ofInt (sign * Scaling.product true scalings) =
      .ofInt sign * .ofNat (Scaling.product true scalings) := by
    rw [Int64.ofInt_mul, Int64.ofInt_eq_ofNat]
  rw [ofSummand, hsign.splitSign_eq]
  dsimp only
  rw [scaled.unscale_eq, Int64.one_mul, ← factor, ofText]
  cases Literal.value? body with
  | some v =>
    dsimp only
    rw [Int64.ofInt_mul, Int64.ofInt_toInt]
  | none => rfl

theorem writtenAs_iff {piece : List Char} {term : Term} :
    WrittenAs piece term ↔ ofSummand 1 1 piece = term := by
  refine ⟨fun h => h.eq_ofSummand.symm, ?_⟩
  rintro rfl
  obtain ⟨sign, unsigned, hsign⟩ := exists_unsigned piece
  obtain ⟨body, scalings, scaled⟩ := exists_isScaled unsigned
  have written : WrittenAs piece _ := ⟨sign, unsigned, body, scalings, hsign, scaled, rfl⟩
  exact written.eq_ofSummand ▸ written

/-- An operand is read as one term for each of its pieces, in their order, and each term is what its
piece writes.  An operand that goes on with a sign is read as the terms of its two parts. -/
theorem ofOperand_laws (text : List Char) :
    (∀ terms, ofOperand text = terms ↔
      ∃ pieces, IsCut text pieces ∧ List.Forall₂ WrittenAs pieces terms) ∧
    ∀ rest, text ≠ [] → BeginsWithSign rest →
      ofOperand (text ++ rest) = ofOperand text ++ ofOperand rest := by
  refine ⟨fun terms => ?_, fun rest filled sign => ?_⟩
  · have written : WrittenAs = fun piece term => ofSummand 1 1 piece = term := by
      funext piece term
      exact propext writtenAs_iff
    have pieceByPiece (pieces : List (List Char)) :
        List.Forall₂ WrittenAs pieces terms ↔ pieces.map (ofSummand 1 1) = terms := by
      rw [written, ← List.forall₂_map_left_iff, List.forall₂_eq_eq_eq]
    simp only [isCut_iff, pieceByPiece, exists_eq_left', ofOperand_eq]
  · have cut := (isCut_summands text).append (isCut_summands rest) filled sign
    rw [ofOperand_eq, cut.summands_eq, List.map_append, ofOperand_eq, ofOperand_eq]

end Term

/-- A scaling with a number of one digit. -/
def Scaling.ofDigit (times : Bool) (d : Char) (h : d.isDigit) : Scaling where
  times := times
  digits := [d]
  digits_ne_nil := List.cons_ne_nil d []
  isDigit := List.forall_mem_singleton.2 h
  number_le := by
    have range := Char.isDigit_iff_toNat.1 h
    have nine : '9'.toNat = '0'.toNat + 9 := rfl
    rw [Nat.ofDigitChars_cons, Nat.ofDigitChars_nil]
    omega

theorem Term.ofOperand_laws_scaled :
    ofOperand "tab*3*2/4-0x10*2".toList = [.symbol "tab" 6 4, .literal (-32)] := by
  have front : ofOperand "tab*3*2/4".toList = [.symbol "tab" 6 4] := by
    refine ((ofOperand_laws _).1 _).2 ⟨["tab*3*2/4".toList], isCut_iff.2 ?_, .cons ?_ .nil⟩
    · rfl
    · exact ⟨1, "tab*3*2/4".toList, "tab".toList,
        [.ofDigit true '3' rfl, .ofDigit true '2' rfl, .ofDigit false '4' rfl], .none (by decide),
        ⟨rfl, fun _ => by decide, lastScaling?_eq_none_iff.1 rfl⟩, by decide +kernel⟩
  have behind : ofOperand "-0x10*2".toList = [.literal (-32)] := by
    refine ((ofOperand_laws _).1 _).2 ⟨["-0x10*2".toList], isCut_iff.2 ?_, .cons ?_ .nil⟩
    · rfl
    · exact ⟨-1, "0x10*2".toList, "0x10".toList, [.ofDigit true '2' rfl], .minus _,
        ⟨rfl, fun _ => by decide, lastScaling?_eq_none_iff.1 rfl⟩, by decide +kernel⟩
  have both := (ofOperand_laws "tab*3*2/4".toList).2 "-0x10*2".toList (by decide) rfl
  rw [front, behind] at both
  exact both

end Macc
