import Macc.Instruction.Encoding

/-!
# Decoding packed words

`Op.decode_pack` shows what becomes of the fields of an instruction word: the word decodes to the
operation of its number with the fields as operands, as long as the fields that the operation does
not use are zero.
-/

namespace Macc

theorem Opcode.maddr_toOp (o : Opcode) (maddr caddr : Word) :
    (o.toOp maddr caddr).maddr = if Field.maddr ∈ o.format.fields then maddr else 0 := by
  cases o <;> rfl

theorem Opcode.caddr_toOp (o : Opcode) (maddr caddr : Word) :
    (o.toOp maddr caddr).caddr = if Field.caddr ∈ o.format.fields then caddr else 0 := by
  cases o <;> rfl

theorem Opcode.toNat_number (o : Opcode) : (BitVec.ofNat 6 o.number).toNat = o.number := by
  rw [BitVec.toNat_ofNat]
  exact Nat.mod_eq_of_lt o.number_lt

namespace Op

/-- A word whose unused fields are zero decodes to its operation and fields. -/
theorem decode_pack {o : Opcode} {m : Address} {c : Slot}
    (hm : Field.maddr ∉ o.format.fields → m = 0) (hc : Field.caddr ∉ o.format.fields → c = 0) :
    decode (pack (.ofNat 6 o.number) m c) = .ok (o.toOp (m.setWidth 32) (c.setWidth 32)) := by
  have maddr : (o.toOp (m.setWidth 32) (c.setWidth 32)).maddr = m.setWidth 32 := by
    rw [Opcode.maddr_toOp]
    split
    · rfl
    next h => rw [hm h]; rfl
  have caddr : (o.toOp (m.setWidth 32) (c.setWidth 32)).caddr = c.setWidth 32 := by
    rw [Opcode.caddr_toOp]
    split
    · rfl
    next h => rw [hc h]; rfl
  unfold decode
  rw [opcodeField_pack, Opcode.toNat_number, Opcode.ofNumber?_number, maddrField_pack,
    caddrField_pack]
  dsimp only
  rw [maddr, caddr, if_neg (fun h => h rfl), if_neg (fun h => h rfl)]

end Op

end Macc
