import Macc.Proofs.Assembly.Checking
import Macc.Proofs.Assembly.DataLines

/-!
# Lines that fail

A line that fails leaves the assembler as it is, with one exception: a data row that runs off the
image (`Assembler.RunsOff`) puts out its leading words, as many as fit.  So a line either asks for
something that is refused, and then what was touched before is as it was, or it is a data row
(`feed_cases`), and `feed_fails` says which rows fail, where, and what they leave behind.  Lines that
stop the program (`Assembler.Overflows`) do not fail in this sense.
-/

namespace Macc

namespace Assembler

/-- The line is a data row of which the first `k` words fit into the image and the next one does
not, although it has an address. -/
structure RunsOff (a : Assembler) (text : List Char) (bytes : List Byte) (k : Nat) : Prop
    extends IsDataRow a text bytes where
  fit : ∀ i < k, a.cursor + 4 * i + 4 ≤ memorySize
  unfit : memorySize < a.cursor + 4 * k + 4
  room : a.cursor + 4 * k + 4 < UInt64.size
  left : 4 * k < bytes.length

variable {a : Assembler} {text : List Char} {bytes : List Byte} {k : Nat}

/-- The words that fit are as many as the room behind the cursor allows. -/
theorem RunsOff.room_eq (h : a.RunsOff text bytes k) :
    4 * ((memorySize - a.cursor) / 4) = 4 * k := by
  have unfit := h.unfit
  cases k with
  | zero => omega
  | succ k =>
    have fit := h.fit k (by omega)
    omega

/-- A data row that runs off the image fails behind the words that fit. -/
theorem RunsOff.feed_eq (h : a.RunsOff text bytes k) (line : Nat) :
    a.feed line text =
      (a.putOut line (bytes.take (4 * k)), .error (.image (.outOfRange (a.cursor + 4 * k)))) := by
  have left := h.left
  rw [h.toIsDataRow.feed_eq, emitWords_wordsOf a line h.full]
  dsimp only
  rw [h.room_eq, if_neg (by omega), unwritable, if_neg (Nat.not_le.2 h.room)]

/-- A line is refused, or taken, or it is a data row that runs off the image, or it stops the
program. -/
theorem feed_cases (a : Assembler) (line : Nat) (text : List Char) :
    (∃ e, e.IsRefusal ∧ a.feed line text = (a, .error e)) ∨
      (a.feed line text).2 = .ok () ∨ (∃ bytes k, a.RunsOff text bytes k) ∨
      ∃ e, (a.feed line text).2 = .error e ∧ e.aborts := by
  have answer := a.checked (.ofLine a.current text)
  generalize hk : a.check (.ofLine a.current text) = result at answer
  generalize hs : Statement.ofLine a.current text = s at answer
  cases answer with
  | refused refusal => exact .inl ⟨_, refusal, feed_of_error hk⟩
  | blank | label _ | symbol _ _ | enter _ =>
    rw [feed_of_ok hk]
    exact .inr (.inl rfl)
  | insn _ _ _ =>
    rw [feed_of_ok hk, perform]
    split
    · exact .inr (.inl rfl)
    · exact .inr (.inr (.inr ⟨.overflow, rfl, rfl⟩))
  | @data head operands bytes current full hb =>
    have literals := Literal.Bytes.of_mapM_byteOf hb
    have length : (head :: operands).length = bytes.length := List.Forall₂.length_eq literals
    have row : a.IsDataRow text bytes := ⟨current, ⟨head, operands, hs, literals⟩, length ▸ full⟩
    have answer := emitWords_wordsOf a line row.full
    rw [← row.feed_eq line] at answer
    dsimp only at answer
    by_cases fits : bytes.length ≤ 4 * ((memorySize - a.cursor) / 4)
    · refine .inr (.inl ?_)
      rw [answer, if_pos fits]
    · rw [if_neg fits, unwritable] at answer
      by_cases room : UInt64.size ≤ a.cursor + 4 * ((memorySize - a.cursor) / 4) + 4
      · rw [if_pos room] at answer
        exact .inr (.inr (.inr ⟨_, congrArg Prod.snd answer, rfl⟩))
      · exact .inr (.inr (.inl ⟨bytes, (memorySize - a.cursor) / 4, row, fun i hi => by omega,
          by omega, Nat.not_le.1 room, by omega⟩))

/-- The bytes of the words that fit are written and defined, and no others are defined. -/
theorem RunsOff.view_putOut (h : a.RunsOff text bytes k) (line : Nat) :
    (∀ x, (a.putOut line (bytes.take (4 * k))).image.isDefined x ↔
      (a.cursor ≤ x.toNat ∧ x.toNat < a.cursor + 4 * k) ∨ a.image.isDefined x) ∧
    ∀ i < 4 * k, (a.putOut line (bytes.take (4 * k))).image.byte (.ofNat 17 (a.cursor + i)) =
      bytes[i]?.getD 0 := by
  have left := h.left
  have length : (bytes.take (4 * k)).length = 4 * k := by
    rw [List.length_take]
    omega
  cases k with
  | zero =>
    constructor
    · intro x
      rw [Nat.mul_zero, List.take_zero, putOut_nil]
      exact ⟨.inr, fun hx => hx.resolve_left (by omega)⟩
    · exact fun i hi => absurd hi (Nat.not_lt_zero i)
  | succ k =>
    have fits := h.fit k (Nat.lt_succ_self k)
    constructor
    · intro x
      rw [putOut, Image.isDefined_write_iff _ (by omega), length]
    · intro i hi
      rw [putOut, Image.byte_write_of_lt _ (by omega) (by omega), List.getElem_take,
        List.getElem?_eq_getElem (by omega), Option.getD_some]

/-- A line that fails leaves the assembler as it is, unless it is a data row that runs off the
image.  Such a row fails at its first word that does not fit, and it puts out the words in front of
that one.  What stops the program is a line that puts out a word and has no room for the cursor
behind it. -/
theorem feed_fails (a : Assembler) (line : Nat) (text : List Char) :
    (∀ e, (a.feed line text).2 = .error e → e.aborts = false →
      (∀ addr, e ≠ .image (.outOfRange addr)) → (a.feed line text).1 = a) ∧
    (∀ addr, (a.feed line text).2 = .error (.image (.outOfRange addr)) ↔
      ∃ bytes k, a.RunsOff text bytes k ∧ addr = a.cursor + 4 * k) ∧
    (∀ bytes k, a.RunsOff text bytes k →
      let b := (a.feed line text).1
      b = a.putOut line (bytes.take (4 * k)) ∧
      (∀ x, b.image.isDefined x ↔
        (a.cursor ≤ x.toNat ∧ x.toNat < a.cursor + 4 * k) ∨ a.image.isDefined x) ∧
      ∀ i < 4 * k, b.image.byte (.ofNat 17 (a.cursor + i)) = bytes[i]?.getD 0) ∧
    ((∃ e, (a.feed line text).2 = .error e ∧ e.aborts) ↔ a.Overflows text) := by
  refine ⟨fun e he runs range => ?_, fun addr => ⟨fun he => ?_, ?_⟩, fun bytes k h => ?_,
    a.aborts_feed_iff line text⟩
  · rcases feed_cases a line text with
      ⟨_, -, refused⟩ | taken | ⟨bytes, k, off⟩ | ⟨e', stopped, aborts⟩
    · rw [refused]
    · cases taken.symm.trans he
    · rw [off.feed_eq] at he
      exact absurd (Except.error.inj he).symm (range _)
    · cases stopped.symm.trans he
      exact absurd aborts (Bool.eq_false_iff.1 runs)
  · rcases feed_cases a line text with
      ⟨e, refusal, refused⟩ | taken | ⟨bytes, k, off⟩ | ⟨e', stopped, aborts⟩
    · rw [refused] at he
      exact absurd (Except.error.inj he) (refusal.1 _)
    · cases taken.symm.trans he
    · rw [off.feed_eq] at he
      cases he
      exact ⟨bytes, k, off, rfl⟩
    · cases stopped.symm.trans he
      cases aborts
  · rintro ⟨bytes, k, off, rfl⟩
    rw [off.feed_eq]
  · dsimp only
    rw [h.feed_eq]
    exact ⟨rfl, h.view_putOut line⟩

theorem feed_fails_atTheEnd :
    let a := feedAll {} [(".data 0x1fff8".toList, 1)]
    let row := "1 2 3 4 5 6 7 8 9 10 11 12".toList
    (a.feed 2 "1 2 3 256".toList).1 = a ∧
      (a.feed 2 row).2 = .error (.image (.outOfRange 0x20000)) ∧
      (a.feed 2 row).1 = a.putOut 2 [1, 2, 3, 4, 5, 6, 7, 8] := by
  intro a row
  have off : a.RunsOff row [1, 2, 3, 4, 5, 6, 7, 8, 9, 10, 11, 12] 2 :=
    { current := by decide +kernel
      row := ⟨['1'], "2 3 4 5 6 7 8 9 10 11 12".toList.splitOn ' ', by decide +kernel,
        Literal.Bytes.of_mapM_byteOf (by decide +kernel)⟩
      full := rfl
      fit := by decide +kernel
      unfit := by decide +kernel
      room := by decide +kernel
      left := by decide }
  have refused := (feed_fails a 2 "1 2 3 256".toList).1 (.byteLiteral "256") (by decide +kernel)
    rfl nofun
  obtain ⟨-, fails, leaves, -⟩ := feed_fails a 2 row
  exact ⟨refused, (fails 0x20000).2 ⟨_, 2, off, by decide +kernel⟩, (leaves _ 2 off).1⟩

end Assembler

end Macc
