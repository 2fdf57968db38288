import Mathlib.Data.Nat.Digits.Defs
import Mathlib.Tactic.Ring
import Macc.Proofs.Assembly.Reading

/-!
# Integer literals, described and read

An integer literal can be described without saying how it is read.  A text has digits in a radix
(`HasDigits`), digits that show their radix are a magnitude (`Literal.Magnitude`), and a magnitude
with at most one sign in front writes an integer (`Literal.Writes`).  `Literal.value?_laws` says
that exactly the literals below `2 ^ 63` are read, as what they write, and that every signed double
word but the least one has literals.
-/

namespace Macc

open Text

/-! ### Digits -/

namespace Text

/-- The character is the digit.  Letters may have either case. -/
def IsDigitOf (radix d : Nat) (c : Char) : Prop :=
  d < radix ∧ (c = d.digitChar ∨ c = d.digitChar.toUpper)

/-- The text has these digits, the highest one first. -/
def HasDigits (radix : Nat) (digits : List Nat) (text : List Char) : Prop :=
  List.Forall₂ (IsDigitOf radix) digits text

theorem digitValue?_toUpper_digitChar :
    ∀ d < 16, digitValue? d.digitChar.toUpper = some d := by decide

theorem eq_digitChar_of_digitValue? {c : Char} {d : Nat} (hd : d < 16)
    (h : digitValue? c = some d) : c = d.digitChar ∨ c = d.digitChar.toUpper := by
  have small : ∀ n < 123, ∀ d < 16, digitValue? (.ofNat n) = some d →
      Char.ofNat n = d.digitChar ∨ Char.ofNat n = d.digitChar.toUpper := by
    decide +kernel
  have range : c.toNat < 123 := by
    have := (isAlphanum_iff c).1 (isAlphanum_of_digitValue? h)
    omega
  rw [← Char.ofNat_toNat c] at h ⊢
  exact small _ range d hd h

theorem digit?_eq_some_iff {radix d : Nat} {c : Char} (hr : radix ≤ 16) :
    digit? radix c = some d ↔ IsDigitOf radix d c := by
  rw [digit?, Option.filter_eq_some_iff, decide_eq_true_eq, IsDigitOf, and_comm]
  refine and_congr_right fun hd => ⟨eq_digitChar_of_digitValue? (by omega), ?_⟩
  rintro (rfl | rfl)
  · exact digitValue?_digitChar d (by omega)
  · exact digitValue?_toUpper_digitChar d (by omega)

/-- Digits are read as the number that they write in their radix. -/
theorem HasDigits.readDigits?_eq {radix : Nat} {digits : List Nat} {text : List Char}
    (h : HasDigits radix digits text) (hr : radix ≤ 16) (n : Nat) :
    readDigits? radix n text =
      some (radix ^ digits.length * n + Nat.ofDigits radix digits.reverse) := by
  induction h generalizing n with
  | nil => rw [readDigits?_nil, List.length_nil, pow_zero, one_mul, List.reverse_nil,
      Nat.ofDigits_nil, Nat.add_zero]
  | cons hc _ ih =>
    rw [readDigits?_cons, (digit?_eq_some_iff hr).2 hc, Option.bind_some, ih,
      Nat.ofDigits_reverse_cons, List.length_cons]
    congr 1
    ring

/-- What is read has digits. -/
theorem exists_hasDigits_of_readDigits? {radix n m : Nat} {text : List Char} (hr : radix ≤ 16)
    (h : readDigits? radix n text = some m) : ∃ digits, HasDigits radix digits text := by
  induction text generalizing n with
  | nil => exact ⟨[], .nil⟩
  | cons c cs ih =>
    rw [readDigits?_cons] at h
    obtain ⟨d, hd, h⟩ := Option.bind_eq_some_iff.1 h
    obtain ⟨digits, hdigits⟩ := ih h
    exact ⟨d :: digits, .cons ((digit?_eq_some_iff hr).1 hd) hdigits⟩

theorem HasDigits.ne_nil {radix : Nat} {digits : List Nat} {text : List Char}
    (h : HasDigits radix digits text) (filled : digits ≠ []) : text ≠ [] := by
  rintro rfl
  cases h
  exact filled rfl

/-- A natural number is read from its digits, of which there is at least one. -/
theorem readNat?_eq_some_iff {radix n : Nat} {text : List Char} (hr : radix ≤ 16) :
    readNat? radix text = some n ↔
      ∃ digits, digits ≠ [] ∧ HasDigits radix digits text ∧
        n = Nat.ofDigits radix digits.reverse := by
  have value {digits : List Nat} (h : HasDigits radix digits text) :
      readDigits? radix 0 text = some (Nat.ofDigits radix digits.reverse) := by
    rw [h.readDigits?_eq hr, Nat.mul_zero, Nat.zero_add]
  unfold readNat?
  constructor
  · intro h
    split at h
    · cases h
    next filled =>
      obtain ⟨digits, hdigits⟩ := exists_hasDigits_of_readDigits? hr h
      refine ⟨digits, ?_, hdigits, Option.some.inj (h.symm.trans (value hdigits))⟩
      rintro rfl
      cases hdigits
      exact filled rfl
  · rintro ⟨digits, filled, hdigits, rfl⟩
    rw [if_neg (hdigits.ne_nil filled), value hdigits]

/-- The text of a number has digits. -/
theorem exists_hasDigits_toDigits {radix : Nat} (hr : 1 < radix) (hr' : radix ≤ 16) (n : Nat) :
    ∃ digits, digits ≠ [] ∧ HasDigits radix digits (Nat.toDigits radix n) ∧
      n = Nat.ofDigits radix digits.reverse := by
  refine (readNat?_eq_some_iff hr').1 ?_
  rw [readNat?, if_neg Nat.toDigits_ne_nil, readDigits?_toDigits hr hr']

theorem toUpper_toUpper_digitChar :
    ∀ d < 16, d.digitChar.toUpper.toUpper = d.digitChar.toUpper := by decide

theorem HasDigits.map_toUpper {radix : Nat} {digits : List Nat} {text : List Char}
    (h : HasDigits radix digits text) (hr : radix ≤ 16) :
    HasDigits radix digits (text.map Char.toUpper) := by
  refine List.forall₂_map_right_iff.2 (h.imp fun d c => ?_)
  rintro ⟨hd, rfl | rfl⟩
  · exact ⟨hd, .inr rfl⟩
  · exact ⟨hd, .inr (toUpper_toUpper_digitChar d (by omega))⟩

theorem HasDigits.append {radix : Nat} {digits digits' : List Nat} {text text' : List Char}
    (h : HasDigits radix digits text) (h' : HasDigits radix digits' text') :
    HasDigits radix (digits ++ digits') (text ++ text') := List.rel_append h h'

theorem hasDigits_replicate_zero {radix : Nat} (hr : 0 < radix) (k : Nat) :
    HasDigits radix (.replicate k 0) (.replicate k '0') := by
  induction k with
  | zero => exact .nil
  | succ k ih => exact .cons ⟨hr, .inl rfl⟩ ih

/-- Only zero is written with a zero in front. -/
theorem head?_toDigits_ne {n : Nat} (hn : n ≠ 0) : (Nat.toDigits 10 n).head? ≠ some '0' := by
  induction n using Nat.strongRecOn with
  | ind n ih =>
    rw [Nat.toDigits_eq_if (by decide)]
    split
    next small =>
      have digit : ∀ d < 10, d ≠ 0 → d.digitChar ≠ '0' := by decide
      simpa using digit n small hn
    next large =>
      rw [List.head?_append_of_ne_nil _ Nat.toDigits_ne_nil]
      exact ih _ (by omega) (by omega)

end Text

/-! ### Literals -/

namespace Literal

/-- The text is a magnitude that shows its radix: hexadecimal behind a mark, octal behind a zero,
decimal without a zero in front. -/
inductive Magnitude : List Char → Nat → Prop
  | hex {mark : Char} {digits : List Nat} {text : List Char} (marked : mark = 'x' ∨ mark = 'X')
      (filled : digits ≠ []) (h : HasDigits 16 digits text) :
      Magnitude ('0' :: mark :: text) (Nat.ofDigits 16 digits.reverse)
  | octal {digits : List Nat} {text : List Char} (filled : digits ≠ [])
      (h : HasDigits 8 digits text) : Magnitude ('0' :: text) (Nat.ofDigits 8 digits.reverse)
  | zero : Magnitude ['0'] 0
  | decimal {d : Nat} {digits : List Nat} {text : List Char} (leading : d ≠ 0)
      (h : HasDigits 10 (d :: digits) text) :
      Magnitude text (Nat.ofDigits 10 (d :: digits).reverse)

/-- The text writes an integer: a magnitude with at most one sign in front. -/
inductive Writes : List Char → Nat → Int → Prop
  | unsigned {text : List Char} {u : Nat} (h : Magnitude text u) : Writes text u u
  | plus {text : List Char} {u : Nat} (h : Magnitude text u) : Writes ('+' :: text) u u
  | minus {text : List Char} {u : Nat} (h : Magnitude text u) : Writes ('-' :: text) u (-u)

theorem radixed_octal {c : Char} (hc : c ≠ 'x' ∧ c ≠ 'X') (text : List Char) :
    radixed ('0' :: c :: text) = (8, c :: text) := by
  unfold radixed
  split
  next h => exact absurd (List.cons.inj (List.cons.inj h).2).1 hc.1
  next h => exact absurd (List.cons.inj (List.cons.inj h).2).1 hc.2
  next h => rw [(List.cons.inj h).2]
  next h => exact absurd rfl (h _ _)

theorem radixed_decimal {c : Char} (hc : c ≠ '0') (text : List Char) :
    radixed (c :: text) = (10, c :: text) := by
  unfold radixed
  split
  next h => exact absurd (List.cons.inj h).1 hc
  next h => exact absurd (List.cons.inj h).1 hc
  next h => exact absurd (List.cons.inj h).1 hc
  next => rfl

/-- The digits of a magnitude are read in the radix that it shows. -/
theorem Magnitude.readNat?_eq {text : List Char} {u : Nat} (h : Magnitude text u) :
    readNat? (radixed text).1 (radixed text).2 = some u := by
  cases h with
  | hex marked filled h =>
    have read := (readNat?_eq_some_iff (by decide)).2 ⟨_, filled, h, rfl⟩
    rcases marked with rfl | rfl
    · exact read
    · exact read
  | @octal digits text filled h =>
    have read := (readNat?_eq_some_iff (by decide)).2 ⟨_, filled, h, rfl⟩
    cases h with
    | nil => exact absurd rfl filled
    | @cons d c ds cs hc _ =>
      have unmarked : c ≠ 'x' ∧ c ≠ 'X' := by
        have digit := (digit?_eq_some_iff (by decide)).2 hc
        constructor
        · rintro rfl
          cases digit
        · rintro rfl
          cases digit
      rw [radixed_octal unmarked]
      exact read
  | zero => rfl
  | @decimal d digits text leading h =>
    have read := (readNat?_eq_some_iff (by decide)).2 ⟨_, List.cons_ne_nil _ _, h, rfl⟩
    cases h with
    | @cons _ c _ cs hc _ =>
      have nonzero : c ≠ '0' := by
        rintro rfl
        have digit := (digit?_eq_some_iff (by decide)).2 hc
        exact leading (Option.some.inj digit).symm
      rw [radixed_decimal nonzero]
      exact read

theorem radixed_fst_le (text : List Char) : (radixed text).1 ≤ 16 := by
  unfold radixed
  split <;> simp

theorem magnitude_of_readNat? {text : List Char} {u : Nat}
    (h : readNat? (radixed text).1 (radixed text).2 = some u) : Magnitude text u := by
  obtain ⟨digits, filled, hdigits, rfl⟩ := (readNat?_eq_some_iff (radixed_fst_le text)).1 h
  revert hdigits
  unfold radixed
  split
  next => exact .hex (.inl rfl) filled
  next => exact .hex (.inr rfl) filled
  next => exact .octal filled
  next short =>
    intro hdigits
    cases hdigits with
    | nil => exact absurd rfl filled
    | @cons d c ds cs hc hcs =>
      by_cases leading : d = 0
      · -- a zero in front is all there is
        subst leading
        obtain rfl : c = '0' := hc.2.elim id id
        cases cs with
        | nil =>
          cases hcs
          exact .zero
        | cons c' cs => exact absurd rfl (short c' cs)
      · exact .decimal leading (.cons hc hcs)

theorem magnitude?_eq_some_iff {text : List Char} {u : Nat} :
    magnitude? text = some u ↔ Magnitude text u ∧ u < 2 ^ 63 := by
  rw [magnitude?, Option.filter_eq_some_iff, decide_eq_true_eq]
  exact and_congr_left fun _ => ⟨magnitude_of_readNat?, Magnitude.readNat?_eq⟩

/-- An integer is read from a text that writes it, if its magnitude fits. -/
theorem value?_eq_some_iff {text : List Char} {v : Int} :
    value? text = some v ↔ ∃ u ≤ 2 ^ 63 - 1, Writes text u v := by
  constructor
  · intro h
    obtain ⟨body, u, hu, cases⟩ := value?_cases h
    obtain ⟨magnitude, small⟩ := magnitude?_eq_some_iff.1 hu
    refine ⟨u, Nat.le_sub_one_of_lt small, ?_⟩
    rcases cases with ⟨rfl, rfl⟩ | ⟨rfl | rfl, rfl⟩
    · exact .minus magnitude
    · exact .plus magnitude
    · exact .unsigned magnitude
  · rintro ⟨u, le, writes⟩
    have read {body : List Char} (h : Magnitude body u) : magnitude? body = some u :=
      magnitude?_eq_some_iff.2 ⟨h, Nat.lt_of_le_sub_one (by decide) le⟩
    cases writes with
    | unsigned h => exact value?_of_magnitude? (read h)
    | plus h => rw [value?, read h]; rfl
    | minus h => rw [value?, read h]; rfl

/-! ### Written numbers -/

/-- The decimal text of a number is a magnitude. -/
theorem magnitude_toDigits (n : Nat) : Magnitude (Nat.toDigits 10 n) n := by
  obtain ⟨digits, filled, hdigits, value⟩ := exists_hasDigits_toDigits (by decide : 1 < 10)
    (by decide) n
  by_cases hn : n = 0
  · subst hn
    exact .zero
  · obtain ⟨d, ds, rfl⟩ := List.exists_cons_of_ne_nil filled
    have leading : d ≠ 0 := by
      rintro rfl
      refine head?_toDigits_ne hn ?_
      generalize Nat.toDigits 10 n = text at hdigits
      cases hdigits with
      | cons hc _ => exact congrArg some (hc.2.elim id id)
    have decimal := Magnitude.decimal leading hdigits
    rwa [← value] at decimal

/-- Zeros behind the mark of a hexadecimal magnitude do not count. -/
theorem Magnitude.padded {mark : Char} {digits : List Nat} {text : List Char}
    (marked : mark = 'x' ∨ mark = 'X') (filled : digits ≠ []) (h : HasDigits 16 digits text)
    (k : Nat) :
    Magnitude ('0' :: mark :: (List.replicate k '0' ++ text)) (Nat.ofDigits 16 digits.reverse) := by
  have magnitude := Magnitude.hex marked (by simp [filled])
    ((hasDigits_replicate_zero (by decide : 0 < 16) k).append h)
  rwa [List.reverse_append, List.reverse_replicate, Nat.ofDigits_append_replicate_zero]
    at magnitude

/-- The decimal text of an integer writes it. -/
theorem writes_toString (v : Int) : Writes (toString v).toList v.natAbs v := by
  cases v with
  | ofNat n =>
    have text : (toString (Int.ofNat n)).toList = Nat.toDigits 10 n := String.toList_ofList
    rw [text]
    exact .unsigned (magnitude_toDigits n)
  | negSucc n =>
    have text : (toString (Int.negSucc n)).toList = '-' :: Nat.toDigits 10 (n + 1) :=
      String.toList_append.trans (congrArg ('-' :: ·) String.toList_ofList)
    rw [text]
    exact .minus (magnitude_toDigits (n + 1))

/-- The integer literals are read as what they write, if their magnitude is below `2 ^ 63`, and
nothing else is read.  So what is read is a signed double word other than the least one, and each of
these is read from its decimal text and, unless it is negative, from its hexadecimal text with any
number of zeros in front. -/
theorem value?_laws :
    (∀ text v, value? text = some v ↔ ∃ u ≤ 2 ^ 63 - 1, Writes text u v) ∧
    (∀ text v, value? text = some v → -2 ^ 63 < v ∧ v < 2 ^ 63) ∧
    ∀ v : Int, -2 ^ 63 < v → v < 2 ^ 63 →
      value? (toString v).toList = some v ∧
      (0 ≤ v → ∀ mark k, mark = 'x' ∨ mark = 'X' →
        let digits := Nat.toDigits 16 v.toNat
        value? ('0' :: mark :: (List.replicate k '0' ++ digits)) = some v ∧
          value? ('0' :: mark :: (List.replicate k '0' ++ digits.map Char.toUpper)) = some v) := by
  refine ⟨fun _ _ => value?_eq_some_iff, fun text v h => ?_, fun v lower upper => ⟨?_, ?_⟩⟩
  · obtain ⟨u, le, writes⟩ := value?_eq_some_iff.1 h
    cases writes <;> omega
  · exact value?_eq_some_iff.2 ⟨v.natAbs, by omega, writes_toString v⟩
  · intro pos mark k marked digits
    obtain ⟨ds, filled, hdigits, value⟩ := exists_hasDigits_toDigits (by decide : 1 < 16)
      (by decide) v.toNat
    have read {text : List Char} (h : HasDigits 16 ds text) :
        value? ('0' :: mark :: (List.replicate k '0' ++ text)) = some v := by
      have writes := Writes.unsigned (Magnitude.padded marked filled h k)
      rw [← value, Int.toNat_of_nonneg pos] at writes
      exact value?_eq_some_iff.2 ⟨v.toNat, by omega, writes⟩
    exact ⟨read hdigits, read (hdigits.map_toUpper (by decide))⟩

theorem value?_laws_atTheBound :
    value? "-9223372036854775807".toList = some (-(2 ^ 63 - 1)) ∧
      value? "0X007FFFFFFFFFFFFFFF".toList = some (2 ^ 63 - 1) ∧
      value? "0777777777777777777777".toList = some (2 ^ 63 - 1) ∧
      value? "01000000000000000000000".toList = none := by
  have lower : (-2 ^ 63 : Int) < -(2 ^ 63 - 1) ∧ (-(2 ^ 63 - 1) : Int) < 2 ^ 63 := by decide
  have upper : (-2 ^ 63 : Int) < 2 ^ 63 - 1 ∧ (2 ^ 63 - 1 : Int) < 2 ^ 63 := by decide
  have octal : Magnitude "0777777777777777777777".toList (2 ^ 63 - 1) :=
    magnitude_of_readNat? (by decide)
  obtain ⟨grammar, -, written⟩ := value?_laws
  refine ⟨?_, ?_, ?_, ?_⟩
  · have decimal := (written (-(2 ^ 63 - 1)) lower.1 lower.2).1
    rwa [show (toString (-(2 ^ 63 - 1) : Int)).toList = "-9223372036854775807".toList by
      decide +kernel] at decimal
  · exact ((written (2 ^ 63 - 1) upper.1 upper.2).2 (by decide) 'X' 2 (.inr rfl)).2
  · exact (grammar _ _).2 ⟨2 ^ 63 - 1, Nat.le_refl _, .unsigned octal⟩
  · decide

end Literal

end Macc
