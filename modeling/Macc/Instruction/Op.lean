import Macc.Instruction.Opcode

/-!
# Instructions

An instruction (`Op`) is an operation together with its operands, sorted by what it does.  `opcode`
names the operation and `maddr`, `caddr` place the operands into the fields of an instruction word;
`Opcode.toOp` goes the other way.  Operands are 32-bit words and may be wider than their field.
-/

namespace Macc

/-- A word of the machine, of an instruction or of memory. -/
abbrev Word := BitVec 32

/-! ### Operand kinds -/

/-- A base register: of the vector, load and store addresses, and of the coefficient addresses. -/
inductive Base
  | vbp
  | lbp
  | sbp
  | cbp
  deriving DecidableEq, Repr

/-- A cache that can be loaded from memory. -/
inductive Cache
  | code
  | coeff0
  | coeff1
  deriving DecidableEq, Repr

/-- The size in memory of one entry of the cache, in bytes. -/
def Cache.stride : Cache → Nat
  | code => 4
  | coeff0 | coeff1 => 8

/-- The accumulator lanes that an instruction touches. -/
inductive Lanes
  | both
  | lane0
  | lane1
  deriving DecidableEq, Repr

namespace Lanes

def has0 : Lanes → Bool
  | both | lane0 => true
  | lane1 => false

def has1 : Lanes → Bool
  | both | lane1 => true
  | lane0 => false

end Lanes

/-- How a loaded word meets an accumulator. -/
inductive Combine
  | set
  | add
  | max
  deriving DecidableEq, Repr

/-- What the accumulators hold before a reduction: what they held, zeros, or the least number in the
first lane and zero in the second. -/
inductive Seed
  | keep
  | zero
  | min
  deriving DecidableEq, Repr

/-- The reduction of eight products into the first accumulator.  Only a maximum may begin at the
least number. -/
inductive Reduce
  | sum (zero : Bool)
  | max (seed : Seed)
  deriving DecidableEq, Repr

/-- What the accumulators hold before the reduction. -/
def Reduce.seed : Reduce → Seed
  | sum false => .keep
  | sum true => .zero
  | max s => s

/-! ### Instructions -/

inductive Op
  /-- Wait for the datapath. -/
  | sync
  /-- Go to `target` and come back at the matching `ret`. -/
  | call (target : Word)
  /-- Go back behind the last `call`, or halt if there is none. -/
  | ret
  /-- Carry out `len` instructions of the code cache from `slot` on. -/
  | execute (slot len : Word)
  /-- Load one entry of a cache from memory. -/
  | load (cache : Cache) (src slot : Word)
  /-- Repeat the load in front of it for the next `len` entries. -/
  | continueLoad (len : Word)
  | setBase (base : Base) (value : Word)
  | addBase (base : Base) (value : Word)
  /-- Write the accumulators to memory as bytes, shifted and clamped; with `relu`, clamped at
  zero. -/
  | store (lanes : Lanes) (relu : Bool) (addr shift : Word)
  /-- Write the accumulators to memory as words. -/
  | save (lanes : Lanes) (addr : Word)
  /-- Read words of memory into the accumulators. -/
  | fetch (combine : Combine) (lanes : Lanes) (addr : Word)
  /-- Multiply eight bytes of memory with eight coefficients for each lane and reduce the
  products into the accumulators. -/
  | macc (reduce : Reduce) (addr slot : Word)
  deriving DecidableEq, Repr

namespace Op

def opcode : Op → Opcode
  | sync => .sync
  | call _ => .call
  | ret => .ret
  | execute _ _ => .execute
  | load .code _ _ => .loadCode
  | load .coeff0 _ _ => .loadCoeff0
  | load .coeff1 _ _ => .loadCoeff1
  | continueLoad _ => .continueLoad
  | setBase .vbp _ => .setVbp
  | setBase .lbp _ => .setLbp
  | setBase .sbp _ => .setSbp
  | setBase .cbp _ => .setCbp
  | addBase .vbp _ => .addVbp
  | addBase .lbp _ => .addLbp
  | addBase .sbp _ => .addSbp
  | addBase .cbp _ => .addCbp
  | store .both false _ _ => .store
  | store .lane0 false _ _ => .store0
  | store .lane1 false _ _ => .store1
  | store .both true _ _ => .relu
  | store .lane0 true _ _ => .relu0
  | store .lane1 true _ _ => .relu1
  | save .both _ => .save
  | save .lane0 _ => .save0
  | save .lane1 _ => .save1
  | fetch .set .both _ => .ldSet
  | fetch .set .lane0 _ => .ldSet0
  | fetch .set .lane1 _ => .ldSet1
  | fetch .add .both _ => .ldAdd
  | fetch .add .lane0 _ => .ldAdd0
  | fetch .add .lane1 _ => .ldAdd1
  | fetch .max .both _ => .ldMax
  | fetch .max .lane0 _ => .ldMax0
  | fetch .max .lane1 _ => .ldMax1
  | macc (.sum false) _ _ => .macc
  | macc (.sum true) _ _ => .maccz
  | macc (.max .keep) _ _ => .mmax
  | macc (.max .zero) _ _ => .mmaxz
  | macc (.max .min) _ _ => .mmaxn

/-- The operand in the memory address field, zero if the instruction does not use the field. -/
def maddr : Op → Word
  | sync | ret => 0
  | call target => target
  | execute _ len => len
  | load _ src _ => src
  | continueLoad len => len
  | setBase .cbp _ | addBase .cbp _ => 0
  | setBase _ value | addBase _ value => value
  | store _ _ addr _ => addr
  | save _ addr | fetch _ _ addr => addr
  | macc _ addr _ => addr

/-- The operand in the cache address field, zero if the instruction does not use the field. -/
def caddr : Op → Word
  | execute slot _ => slot
  | load _ _ slot => slot
  | setBase .cbp value | addBase .cbp value => value
  | store _ _ _ shift => shift
  | macc _ _ slot => slot
  | _ => 0

def field (op : Op) : Field → Word
  | .maddr => op.maddr
  | .caddr => op.caddr

end Op

/-- The instruction with this operation whose operands are taken from the two fields.  A field that
the operation does not use is ignored. -/
def Opcode.toOp (maddr caddr : Word) : Opcode → Op
  | sync => .sync
  | call => .call maddr
  | ret => .ret
  | execute => .execute caddr maddr
  | loadCode => .load .code maddr caddr
  | loadCoeff0 => .load .coeff0 maddr caddr
  | loadCoeff1 => .load .coeff1 maddr caddr
  | continueLoad => .continueLoad maddr
  | setVbp => .setBase .vbp maddr
  | addVbp => .addBase .vbp maddr
  | setLbp => .setBase .lbp maddr
  | addLbp => .addBase .lbp maddr
  | setSbp => .setBase .sbp maddr
  | addSbp => .addBase .sbp maddr
  | setCbp => .setBase .cbp caddr
  | addCbp => .addBase .cbp caddr
  | store => .store .both false maddr caddr
  | store0 => .store .lane0 false maddr caddr
  | store1 => .store .lane1 false maddr caddr
  | relu => .store .both true maddr caddr
  | relu0 => .store .lane0 true maddr caddr
  | relu1 => .store .lane1 true maddr caddr
  | save => .save .both maddr
  | save0 => .save .lane0 maddr
  | save1 => .save .lane1 maddr
  | ldSet => .fetch .set .both maddr
  | ldSet0 => .fetch .set .lane0 maddr
  | ldSet1 => .fetch .set .lane1 maddr
  | ldAdd => .fetch .add .both maddr
  | ldAdd0 => .fetch .add .lane0 maddr
  | ldAdd1 => .fetch .add .lane1 maddr
  | ldMax => .fetch .max .both maddr
  | ldMax0 => .fetch .max .lane0 maddr
  | ldMax1 => .fetch .max .lane1 maddr
  | macc => .macc (.sum false) maddr caddr
  | mmax => .macc (.max .keep) maddr caddr
  | maccz => .macc (.sum true) maddr caddr
  | mmaxz => .macc (.max .zero) maddr caddr
  | mmaxn => .macc (.max .min) maddr caddr

theorem Opcode.opcode_toOp (maddr caddr : Word) (o : Opcode) : (o.toOp maddr caddr).opcode = o := by
  cases o <;> rfl

namespace Op

theorem toOp_opcode (op : Op) : op.opcode.toOp op.maddr op.caddr = op := by
  fun_cases Op.opcode op <;> rfl

/-- A field that the layout does not list is zero. -/
theorem field_eq_zero {op : Op} {f : Field} (h : f ∉ op.opcode.format.fields) :
    op.field f = 0 := by
  revert h
  fun_cases Op.opcode op <;> cases f <;>
    simp [Opcode.format, Format.fields, field, maddr, caddr]

end Op

end Macc
