import Mathlib.Algebra.Group.Nat.Defs
import Macc.Proofs.Instruction.Decoding

/-!
# Instructions and words

Decoding and encoding invert each other.  A word that decodes is the word of the decoded
instruction, and the word of an instruction decodes to the instruction with its operands cut to
their fields (`Op.cut`).  `coding_inverse` says this together with the exact conditions of the two
decoding errors.
-/

namespace Macc

/-! ### Fields as numbers -/

theorem toNat_opcodeField (w : Word) : (opcodeField w).toNat = w.toNat % 2 ^ 6 := by
  simp [opcodeField, BitVec.extractLsb'_toNat]

theorem toNat_caddrField (w : Word) : (caddrField w).toNat = w.toNat / 2 ^ 6 % 2 ^ 9 := by
  simp [caddrField, BitVec.extractLsb'_toNat, Nat.shiftRight_eq_div_pow]

theorem toNat_maddrField (w : Word) : (maddrField w).toNat = w.toNat / 2 ^ 15 := by
  have := w.isLt
  rw [maddrField, BitVec.extractLsb'_toNat, Nat.shiftRight_eq_div_pow]
  omega

/-- What a word holds in a field. -/
def wordField (w : Word) : Field → Word
  | .maddr => (maddrField w).setWidth 32
  | .caddr => (caddrField w).setWidth 32

theorem toNat_wordField_maddr (w : Word) : (wordField w .maddr).toNat = w.toNat / 2 ^ 15 := by
  have := (maddrField w).isLt
  rw [wordField, BitVec.toNat_setWidth, Nat.mod_eq_of_lt (by omega), toNat_maddrField]

theorem toNat_wordField_caddr (w : Word) :
    (wordField w .caddr).toNat = w.toNat / 2 ^ 6 % 2 ^ 9 := by
  have := (caddrField w).isLt
  rw [wordField, BitVec.toNat_setWidth, Nat.mod_eq_of_lt (by omega), toNat_caddrField]

/-! ### Numbers of operations -/

namespace Opcode

theorem ofNumber?_eq_some_iff {n : Nat} {o : Opcode} : ofNumber? n = some o ↔ o.number = n := by
  constructor
  · exact number_of_ofNumber?
  · rintro rfl
    exact ofNumber?_number o

theorem ofNumber?_eq_none_iff {n : Nat} : ofNumber? n = none ↔ ∀ o : Opcode, o.number ≠ n := by
  simp [ofNumber?, mem_all]

end Opcode

namespace Op

/-! ### Operands cut to their fields -/

/-- The operands fit into their fields. -/
def Fits (op : Op) : Prop := op.maddr.toNat < 2 ^ 17 ∧ op.caddr.toNat < 2 ^ 9

/-- The instruction with its operands cut to their fields. -/
def cut (op : Op) : Op :=
  op.opcode.toOp ((op.maddr.setWidth 17).setWidth 32) ((op.caddr.setWidth 9).setWidth 32)

/-- An instruction is determined by its operation and its two fields. -/
theorem ext_fields {op op' : Op} (ho : op.opcode = op'.opcode) (hm : op.maddr = op'.maddr)
    (hc : op.caddr = op'.caddr) : op = op' := by
  rw [← op.toOp_opcode, ← op'.toOp_opcode, ho, hm, hc]

theorem opcode_cut (op : Op) : op.cut.opcode = op.opcode := Opcode.opcode_toOp _ _ _

theorem maddr_eq_zero {op : Op} (h : Field.maddr ∉ op.opcode.format.fields) : op.maddr = 0 :=
  field_eq_zero h

theorem caddr_eq_zero {op : Op} (h : Field.caddr ∉ op.opcode.format.fields) : op.caddr = 0 :=
  field_eq_zero h

theorem maddr_cut (op : Op) : op.cut.maddr = (op.maddr.setWidth 17).setWidth 32 := by
  rw [cut, Opcode.maddr_toOp]
  split
  · rfl
  next h => rw [maddr_eq_zero h]; rfl

theorem caddr_cut (op : Op) : op.cut.caddr = (op.caddr.setWidth 9).setWidth 32 := by
  rw [cut, Opcode.caddr_toOp]
  split
  · rfl
  next h => rw [caddr_eq_zero h]; rfl

theorem toNat_maddr_cut (op : Op) : op.cut.maddr.toNat = op.maddr.toNat % 2 ^ 17 := by
  rw [maddr_cut, BitVec.toNat_setWidth, BitVec.toNat_setWidth]
  omega

theorem toNat_caddr_cut (op : Op) : op.cut.caddr.toNat = op.caddr.toNat % 2 ^ 9 := by
  rw [caddr_cut, BitVec.toNat_setWidth, BitVec.toNat_setWidth]
  omega

theorem cut_eq_self_iff (op : Op) : op.cut = op ↔ op.Fits := by
  constructor
  · intro h
    have hm := op.toNat_maddr_cut
    have hc := op.toNat_caddr_cut
    rw [h] at hm hc
    constructor <;> omega
  · rintro ⟨hm, hc⟩
    refine ext_fields op.opcode_cut (BitVec.eq_of_toNat_eq ?_) (BitVec.eq_of_toNat_eq ?_)
    · rw [toNat_maddr_cut, Nat.mod_eq_of_lt hm]
    · rw [toNat_caddr_cut, Nat.mod_eq_of_lt hc]

/-! ### Decoding what was encoded -/

theorem decode_encode (op : Op) : decode op.encode = .ok op.cut := by
  refine decode_pack (fun h => ?_) (fun h => ?_)
  · rw [maddr_eq_zero h]
    rfl
  · rw [caddr_eq_zero h]
    rfl

theorem decode_encode_eq_self_iff (op : Op) : decode op.encode = .ok op ↔ op.Fits := by
  rw [decode_encode, Except.ok.injEq, cut_eq_self_iff]

/-! ### Encoding what was decoded -/

/-- The instruction whose operands are the fields of the word. -/
def ofFields (w : Word) (o : Opcode) : Op := o.toOp (wordField w .maddr) (wordField w .caddr)

theorem field_ofFields (w : Word) (o : Opcode) (f : Field) :
    (ofFields w o).field f = if f ∈ o.format.fields then wordField w f else 0 := by
  cases f with
  | maddr => exact o.maddr_toOp _ _
  | caddr => exact o.caddr_toOp _ _

/-- The instruction keeps a field of the word exactly if it uses the field or the field is zero. -/
theorem field_ofFields_eq_iff (w : Word) (o : Opcode) (f : Field) :
    (ofFields w o).field f = wordField w f ↔ f ∈ o.format.fields ∨ wordField w f = 0 := by
  rw [field_ofFields]
  split
  next h => exact iff_of_true rfl (.inl h)
  next h => rw [or_iff_right h, eq_comm]

theorem decode_of_number {w : Word} {o : Opcode} (h : o.number = (opcodeField w).toNat) :
    decode w =
      if (ofFields w o).field .maddr ≠ wordField w .maddr then
        .error (.nonZeroField o .maddr (wordField w .maddr))
      else if (ofFields w o).field .caddr ≠ wordField w .caddr then
        .error (.nonZeroField o .caddr (wordField w .caddr))
      else .ok (ofFields w o) := by
  rw [decode, Opcode.ofNumber?_eq_some_iff.2 h]
  rfl

theorem decode_of_forall_number_ne {w : Word}
    (h : ∀ o : Opcode, o.number ≠ (opcodeField w).toNat) :
    decode w = .error (.unknownOpcode (opcodeField w)) := by
  rw [decode, Opcode.ofNumber?_eq_none_iff.2 h]

/-- Decoding ends with an error about the number, an error about the first field that is not kept,
or the instruction that keeps both fields. -/
theorem decode_cases (w : Word) :
    ((∀ o : Opcode, o.number ≠ (opcodeField w).toNat) ∧
      decode w = .error (.unknownOpcode (opcodeField w))) ∨
    ∃ o : Opcode, o.number = (opcodeField w).toNat ∧
      ((∃ f, (ofFields w o).field f ≠ wordField w f ∧
          (f = .maddr ∨ (ofFields w o).field .maddr = wordField w .maddr) ∧
          decode w = .error (.nonZeroField o f (wordField w f))) ∨
        ((∀ f, (ofFields w o).field f = wordField w f) ∧ decode w = .ok (ofFields w o))) := by
  by_cases assigned : ∃ o : Opcode, o.number = (opcodeField w).toNat
  · obtain ⟨o, ho⟩ := assigned
    refine .inr ⟨o, ho, ?_⟩
    rw [decode_of_number ho]
    split
    next hm => exact .inl ⟨.maddr, hm, .inl rfl, rfl⟩
    next hm =>
      rw [Ne, Decidable.not_not] at hm
      split
      next hc => exact .inl ⟨.caddr, hc, .inr hm, rfl⟩
      next hc =>
        rw [Ne, Decidable.not_not] at hc
        refine .inr ⟨fun f => ?_, rfl⟩
        cases f with
        | maddr => exact hm
        | caddr => exact hc
  · have unassigned := not_exists.1 assigned
    exact .inl ⟨unassigned, decode_of_forall_number_ne unassigned⟩

/-- An instruction that keeps both fields of a word encodes to the word and fits. -/
theorem encode_ofFields {w : Word} {o : Opcode} (h : o.number = (opcodeField w).toNat)
    (kept : ∀ f, (ofFields w o).field f = wordField w f) :
    (ofFields w o).encode = w ∧ (ofFields w o).Fits := by
  have hm : (ofFields w o).maddr = wordField w .maddr := kept .maddr
  have hc : (ofFields w o).caddr = wordField w .caddr := kept .caddr
  have number : BitVec.ofNat 6 o.number = opcodeField w := by
    rw [h, BitVec.ofNat_toNat, BitVec.setWidth_eq]
  have cutMaddr : (wordField w .maddr).setWidth 17 = maddrField w := by
    refine BitVec.eq_of_toNat_eq ?_
    rw [BitVec.toNat_setWidth, toNat_wordField_maddr, toNat_maddrField]
    omega
  have cutCaddr : (wordField w .caddr).setWidth 9 = caddrField w := by
    refine BitVec.eq_of_toNat_eq ?_
    rw [BitVec.toNat_setWidth, toNat_wordField_caddr, toNat_caddrField]
    omega
  constructor
  · rw [encode, ofFields, Opcode.opcode_toOp, ← ofFields, hm, hc, number, cutMaddr, cutCaddr,
      pack_fields]
  · have := w.isLt
    rw [Fits, hm, hc, toNat_wordField_maddr, toNat_wordField_caddr]
    constructor <;> omega

theorem encode_of_decode {w : Word} {op : Op} (h : decode w = .ok op) :
    op.encode = w ∧ op.Fits := by
  rcases decode_cases w with ⟨-, hd⟩ | ⟨o, ho, ⟨f, -, -, hd⟩ | ⟨kept, hd⟩⟩
  · rw [hd] at h
    cases h
  · rw [hd] at h
    cases h
  · rw [hd] at h
    obtain rfl := Except.ok.inj h
    exact encode_ofFields ho kept

theorem decode_eq_ok_iff (w : Word) (op : Op) :
    decode w = .ok op ↔ op.encode = w ∧ op.Fits := by
  constructor
  · exact encode_of_decode
  · rintro ⟨rfl, fits⟩
    exact op.decode_encode_eq_self_iff.2 fits

/-! ### Errors -/

theorem decode_eq_unknownOpcode_iff (w : Word) (n : BitVec 6) :
    decode w = .error (.unknownOpcode n) ↔
      n = opcodeField w ∧ ∀ o : Opcode, o.number ≠ (opcodeField w).toNat := by
  constructor
  · intro h
    rcases decode_cases w with ⟨unassigned, hd⟩ | ⟨o, ho, ⟨f, -, -, hd⟩ | ⟨kept, hd⟩⟩
    · rw [hd] at h
      cases h
      exact ⟨rfl, unassigned⟩
    · rw [hd] at h
      cases h
    · rw [hd] at h
      cases h
  · rintro ⟨rfl, h⟩
    exact decode_of_forall_number_ne h

/-- The memory address field is looked at first. -/
theorem decode_eq_nonZeroField_iff (w : Word) (o : Opcode) (f : Field) (v : Word) :
    decode w = .error (.nonZeroField o f v) ↔
      o.number = (opcodeField w).toNat ∧ f ∉ o.format.fields ∧ v = wordField w f ∧ v ≠ 0 ∧
        (f = .maddr ∨ .maddr ∈ o.format.fields ∨ wordField w .maddr = 0) := by
  constructor
  · intro h
    rcases decode_cases w with ⟨-, hd⟩ | ⟨o', ho, ⟨f', lost, first, hd⟩ | ⟨-, hd⟩⟩
    · rw [hd] at h
      cases h
    · rw [hd] at h
      cases h
      rw [Ne, field_ofFields_eq_iff, not_or] at lost
      rw [field_ofFields_eq_iff] at first
      exact ⟨ho, lost.1, rfl, lost.2, first⟩
    · rw [hd] at h
      cases h
  · rintro ⟨ho, unused, rfl, nonzero, order⟩
    have lost : (ofFields w o).field f ≠ wordField w f := by
      rw [Ne, field_ofFields_eq_iff]
      exact fun h => h.elim unused nonzero
    rw [decode_of_number ho]
    cases f with
    | maddr => rw [if_pos lost]
    | caddr =>
      have kept : (ofFields w o).field .maddr = wordField w .maddr := by
        rw [field_ofFields_eq_iff]
        exact order.resolve_left Field.noConfusion
      rw [if_neg (Decidable.not_not.2 kept), if_pos lost]

/-! ### The laws together -/

/-- A word decodes to an instruction exactly if it is the word of the instruction and the operands
fit.  The number is unknown exactly if no operation has it, and a field is refused exactly if it is
the first field that the operation does not use and that is not zero.  The word of an instruction
decodes to the instruction with its operands reduced to their fields, and so to itself exactly if
the operands fit. -/
theorem coding_inverse :
    (∀ (w : Word) (op : Op), decode w = .ok op ↔ op.encode = w ∧ op.Fits) ∧
    (∀ (w : Word) (n : BitVec 6), decode w = .error (.unknownOpcode n) ↔
      n.toNat = w.toNat % 2 ^ 6 ∧ ∀ o : Opcode, o.number ≠ w.toNat % 2 ^ 6) ∧
    (∀ (w : Word) (o : Opcode) (f : Field) (v : Word),
      decode w = .error (.nonZeroField o f v) ↔
        o.number = w.toNat % 2 ^ 6 ∧ f ∉ o.format.fields ∧ v = wordField w f ∧ v ≠ 0 ∧
          (f = .maddr ∨ .maddr ∈ o.format.fields ∨ wordField w .maddr = 0)) ∧
    (∀ op : Op, decode op.encode = .ok op.cut ∧ op.cut.opcode = op.opcode ∧
      op.cut.maddr.toNat = op.maddr.toNat % 2 ^ 17 ∧
      op.cut.caddr.toNat = op.caddr.toNat % 2 ^ 9) ∧
    ∀ op : Op, decode op.encode = .ok op ↔ op.Fits := by
  refine ⟨decode_eq_ok_iff, fun w n => ?_, fun w o f v => ?_, fun op => ?_,
    decode_encode_eq_self_iff⟩
  · rw [decode_eq_unknownOpcode_iff, ← BitVec.toNat_inj, toNat_opcodeField]
  · rw [decode_eq_nonZeroField_iff, toNat_opcodeField]
  · exact ⟨op.decode_encode, op.opcode_cut, op.toNat_maddr_cut, op.toNat_caddr_cut⟩

end Op

end Macc
