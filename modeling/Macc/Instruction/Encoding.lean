import Macc.Instruction.Op

/-!
# Instruction words

An instruction word holds, from the high end, the memory address field (17 bits), the cache address
field (9 bits) and the number of the operation (6 bits).  `pack` builds a word from the three and
`opcodeField`, `caddrField`, `maddrField` read them back.  `Op.encode` writes an instruction as a
word, cutting operands to their fields; `Op.decode` reads a word and refuses unassigned numbers and
non-zero unused fields, so that a decoded instruction encodes to the same word.
-/

namespace Macc

/-- An address of main memory, in bytes. -/
abbrev Address := BitVec 17

/-- An entry of a cache. -/
abbrev Slot := BitVec 9

/-! ### Fields of a word -/

def pack (opcode : BitVec 6) (maddr : Address) (caddr : Slot) : Word := maddr ++ caddr ++ opcode

def opcodeField (w : Word) : BitVec 6 := w.extractLsb' 0 6

def caddrField (w : Word) : Slot := w.extractLsb' 6 9

def maddrField (w : Word) : Address := w.extractLsb' 15 17

theorem getLsbD_pack (o : BitVec 6) (m : Address) (c : Slot) (i : Nat) :
    (pack o m c).getLsbD i =
      if i < 6 then o.getLsbD i else if i < 15 then c.getLsbD (i - 6) else m.getLsbD (i - 15) := by
  unfold pack
  rw [BitVec.getLsbD_append, BitVec.getLsbD_append]
  by_cases h : i < 6
  · simp [h]
  · simp [h, Nat.sub_sub, show i - 6 < 9 ↔ i < 15 by omega]

theorem opcodeField_pack (o : BitVec 6) (m : Address) (c : Slot) :
    opcodeField (pack o m c) = o := by
  refine BitVec.eq_of_getLsbD_eq fun i hi => ?_
  simp [opcodeField, getLsbD_pack, hi]

theorem caddrField_pack (o : BitVec 6) (m : Address) (c : Slot) : caddrField (pack o m c) = c := by
  refine BitVec.eq_of_getLsbD_eq fun i hi => ?_
  simp [caddrField, getLsbD_pack, hi, show 6 + i < 15 by omega]

theorem maddrField_pack (o : BitVec 6) (m : Address) (c : Slot) : maddrField (pack o m c) = m := by
  refine BitVec.eq_of_getLsbD_eq fun i hi => ?_
  simp [maddrField, getLsbD_pack, hi, show ¬ 15 + i < 6 by omega, show ¬ 15 + i < 15 by omega]

/-- A word consists of its three fields. -/
theorem pack_fields (w : Word) : pack (opcodeField w) (maddrField w) (caddrField w) = w := by
  refine BitVec.eq_of_getLsbD_eq fun i hi => ?_
  simp only [getLsbD_pack, opcodeField, caddrField, maddrField, BitVec.getLsbD_extractLsb']
  by_cases h : i < 6
  · simp [h]
  · by_cases h' : i < 15
    · simp [h, h', show i - 6 < 9 by omega, show 6 + (i - 6) = i by omega]
    · simp [h, h', show i - 15 < 17 by omega, show 15 + (i - 15) = i by omega]

/-! ### Encoding -/

/-- The instruction as a word.  Operands are cut to the width of their field. -/
def Op.encode (op : Op) : Word :=
  pack (BitVec.ofNat 6 op.opcode.number) (op.maddr.setWidth 17) (op.caddr.setWidth 9)

/-! ### Decoding -/

/-- The reasons why a word is no instruction. -/
inductive DecodeError
  /-- The number of the operation is not assigned. -/
  | unknownOpcode (number : BitVec 6)
  /-- A field that the operation does not use is not zero. -/
  | nonZeroField (opcode : Opcode) (field : Field) (value : Word)
  deriving DecidableEq, Repr

def Op.decode (w : Word) : Except DecodeError Op :=
  match Opcode.ofNumber? (opcodeField w).toNat with
  | none => .error (.unknownOpcode (opcodeField w))
  | some o =>
    let maddr := (maddrField w).setWidth 32
    let caddr := (caddrField w).setWidth 32
    let op := o.toOp maddr caddr
    if op.maddr ≠ maddr then .error (.nonZeroField o .maddr maddr)
    else if op.caddr ≠ caddr then .error (.nonZeroField o .caddr caddr)
    else .ok op

end Macc
