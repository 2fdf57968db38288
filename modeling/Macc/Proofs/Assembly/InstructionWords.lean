import Macc.Assembly.Listing
import Macc.Proofs.Assembly.Layout
import Macc.Proofs.Instruction.Decoding

/-!
# Instruction words of programs

The assembler cuts operands to their fields, and never adds to a field that an operation does not
use (`Insn.Unused`).  So every instruction word of a program decodes to the operation of its source
line (`decode_word`), with operands that are those of the instruction modulo the sizes of the
fields.
-/

namespace Macc

/-! ### Unused fields -/

/-- Nothing is added to the fields that the operation does not use. -/
def Insn.Unused (i : Insn) : Prop :=
  ∀ f, f ∉ i.opcode.format.fields → i.field f = 0

theorem Opcode.fieldValue_eq_zero (values : String → Int64) {o : Opcode}
    (operands : List (List Char)) {f : Field} (h : f ∉ o.format.fields) :
    o.fieldValue values operands f = 0 := by
  have none : (o.format.fields.zip operands).filter (·.1 = f) = [] := by
    rw [List.filter_eq_nil_iff]
    intro p hp hf
    exact h (of_decide_eq_true hf ▸ (List.of_mem_zip hp).1)
  rw [fieldValue, fieldTerms, none]
  rfl

theorem Emission.unused_of_evaluate {values : String → Int64} {e : Emission} {i : Insn}
    (h : e.evaluate values = some i) : i.Unused := by
  obtain ⟨line, addr, content⟩ := e
  cases content with
  | data => cases h
  | insn o operands =>
    obtain rfl := Option.some.inj h
    intro f hf
    cases f with
    | maddr => exact o.fieldValue_eq_zero values operands hf
    | caddr => exact o.fieldValue_eq_zero values operands hf

/-! ### Words -/

namespace Insn

/-- What the word of an instruction decodes to. -/
def op (i : Insn) : Op :=
  i.opcode.toOp ((i.maddr.toBitVec.setWidth 17).setWidth 32)
    ((i.caddr.toBitVec.setWidth 9).setWidth 32)

theorem opcode_op (i : Insn) : i.op.opcode = i.opcode := Opcode.opcode_toOp _ _ _

theorem decode_encode {i : Insn} (h : i.Unused) : Op.decode i.encode = .ok i.op := by
  have hm : Field.maddr ∉ i.opcode.format.fields → i.maddr = 0 := h .maddr
  have hc : Field.caddr ∉ i.opcode.format.fields → i.caddr = 0 := h .caddr
  refine Op.decode_pack (fun hf => ?_) (fun hf => ?_)
  · rw [hm hf]
    rfl
  · rw [hc hf]
    rfl

/-- Bits cut off a 64-bit number leave the remainder. -/
theorem toNat_setWidth_setWidth (x : Int64) {n : Nat} (h : n ≤ 32) :
    (((x.toBitVec.setWidth n).setWidth 32).toNat : Int) = x.toInt % 2 ^ n := by
  have pow : 2 ^ n ≤ 2 ^ 32 := Nat.pow_le_pow_right (by decide) h
  have lt : x.toBitVec.toNat % 2 ^ n < 2 ^ 32 :=
    Nat.lt_of_lt_of_le (Nat.mod_lt _ (Nat.two_pow_pos n)) pow
  have cut : ((x.toBitVec.setWidth n).setWidth 32).toNat = x.toBitVec.toNat % 2 ^ n := by
    rw [BitVec.toNat_setWidth, BitVec.toNat_setWidth, Nat.mod_eq_of_lt lt]
  have wrap : (2 ^ 64 : Int) = 2 ^ n * 2 ^ (64 - n) := by
    rw [← Int.pow_add, Nat.add_sub_cancel' (by omega)]
  have remainder : x.toInt % 2 ^ n = (x.toBitVec.toNat : Int) % 2 ^ n := by
    rw [Int64.toInt, BitVec.toInt_eq_toNat_cond]
    split
    · rfl
    · rw [Int.natCast_pow, Int.cast_ofNat_Int, wrap, Int.sub_mul_emod_self_left]
  rw [cut, remainder, Int.natCast_emod, Int.natCast_pow, Int.cast_ofNat_Int]

theorem toNat_maddr_op {i : Insn} (h : i.Unused) :
    (i.op.maddr.toNat : Int) = i.maddr.toInt % 2 ^ 17 := by
  rw [op, Opcode.maddr_toOp]
  split
  · exact toNat_setWidth_setWidth i.maddr (by decide)
  next hf =>
    have : i.maddr = 0 := h .maddr hf
    rw [this]
    rfl

theorem toNat_caddr_op {i : Insn} (h : i.Unused) :
    (i.op.caddr.toNat : Int) = i.caddr.toInt % 2 ^ 9 := by
  rw [op, Opcode.caddr_toOp]
  split
  · exact toNat_setWidth_setWidth i.caddr (by decide)
  next hf =>
    have : i.caddr = 0 := h .caddr hf
    rw [this]
    rfl

end Insn

/-! ### Programs -/

/-- The instructions of a program leave unused fields alone, and their words are in the image. -/
theorem Program.Assembled.word_insn {p : Program} (h : p.Assembled) {i : Nat} {insn : Insn}
    (hi : p.insns[i]? = some insn) :
    insn.Unused ∧ p.image.word (.ofNat 17 insn.position) = insn.encode := by
  obtain ⟨lines, hp⟩ := h
  obtain ⟨⟨e, -, hv⟩, hword⟩ := (madeOf_of_finish hp p.symbols.agrees_value?).word_insn hi
  exact ⟨Emission.unused_of_evaluate hv, hword⟩

theorem Program.Assembled.decode_insn {p : Program} (h : p.Assembled) {i : Nat} {insn : Insn}
    (hi : p.insns[i]? = some insn) :
    Op.decode (p.image.word (.ofNat 17 insn.position)) = .ok insn.op := by
  obtain ⟨unused, hword⟩ := h.word_insn hi
  rw [hword, Insn.decode_encode unused]

/-- The word of an instruction decodes to the same operation, with the operands modulo the sizes of
the fields, and the listing shows it as that. -/
theorem decode_word {p : Program} (h : p.Assembled) :
    (∀ (i : Nat) (insn : Insn), p.insns[i]? = some insn →
      ∃ op : Op, Op.decode (p.image.word (.ofNat 17 insn.position)) = .ok op ∧
        op.opcode = insn.opcode ∧ (op.maddr.toNat : Int) = insn.maddr.toInt % 2 ^ 17 ∧
        (op.caddr.toNat : Int) = insn.caddr.toInt % 2 ^ 9) ∧
    ∀ r ∈ p.rows.toList, ∀ i, r.insn = some i →
      ∃ (insn : Insn) (op : Op), p.insns[i]? = some insn ∧ op.opcode = insn.opcode ∧
        Op.decode (p.image.word (.ofNat 17 r.addr)) = .ok op ∧
        ∀ source, p.insnText (.ofNat 17 r.addr) source = op.styled := by
  constructor
  · intro i insn hi
    obtain ⟨unused, -⟩ := h.word_insn hi
    exact ⟨insn.op, h.decode_insn hi, insn.opcode_op, Insn.toNat_maddr_op unused,
      Insn.toNat_caddr_op unused⟩
  · intro r hr i hi
    obtain ⟨lines, hp⟩ := id h
    have made := madeOf_of_finish hp p.symbols.agrees_value?
    obtain ⟨insn, hget, haddr, -⟩ := made.exists_insn_of_row hr hi
    have decode : Op.decode (p.image.word (.ofNat 17 r.addr)) = .ok insn.op := by
      rw [haddr, h.decode_insn hget]
    refine ⟨insn, insn.op, hget, insn.opcode_op, decode, fun source => ?_⟩
    rw [Program.insnText, decode]

/-- Operands that do not fit into their fields. -/
def oversizedLines : List (List Char × Nat) :=
  [(".code".toList, 1), ("SetVBP -1".toList, 2), ("Execute 0x203, 0x20000+5".toList, 3)]

theorem decode_word_oversizedLines :
    ∃ p : Program, p.Assembled ∧
      (∃ op, Op.decode (p.image.word 0) = .ok op ∧ op.opcode = .setVbp ∧
        (op.maddr.toNat : Int) = 0x1ffff) ∧
      ∃ op, Op.decode (p.image.word 4) = .ok op ∧ op.opcode = .execute ∧
        (op.maddr.toNat : Int) = 5 ∧ (op.caddr.toNat : Int) = 3 := by
  obtain ⟨p, hp⟩ := (Assembler.exists_finish_feedAll_iff oversizedLines).2
    ⟨by decide +kernel, by decide +kernel⟩
  have agrees : p.symbols.Agrees fun name =>
      ((Assembler.feedAll {} oversizedLines).symbols.value? name).getD 0 := by
    rw [Assembler.symbols_of_finish hp]
    exact SymbolTable.agrees_value? _
  have insns : p.insns.toList = [⟨0, .setVbp, -1, 0, 2⟩, ⟨4, .execute, 0x20005, 0x203, 3⟩] :=
    (madeOf_of_finish hp agrees).insns.trans (by decide +kernel)
  have decode := (decode_word ⟨_, hp⟩).1
  refine ⟨p, ⟨_, hp⟩, ?_, ?_⟩
  · obtain ⟨op, hd, ho, hm, -⟩ := decode 0 ⟨0, .setVbp, -1, 0, 2⟩ (by
      rw [← Array.getElem?_toList, insns]
      rfl)
    exact ⟨op, hd, ho, hm⟩
  · obtain ⟨op, hd, ho, hm, hc⟩ := decode 1 ⟨4, .execute, 0x20005, 0x203, 3⟩ (by
      rw [← Array.getElem?_toList, insns]
      rfl)
    exact ⟨op, hd, ho, hm, hc⟩

end Macc
