/-!
# Opcodes

The operations of the accelerator with their names in assembly source (`mnemonic`), their numbers in
instruction words (`number`) and the layout of their operands (`format`).  `ofMnemonic?` and
`ofNumber?` look an operation up; each inverts its table (`ofMnemonic?_mnemonic`,
`ofNumber?_number`).
-/

namespace Macc

/-! ### Operand layouts -/

/-- A field of the instruction word that an operand is added into: the memory address or the cache
address. -/
inductive Field
  | maddr
  | caddr
  deriving DecidableEq, Repr

def Field.name : Field → String
  | maddr => "maddr"
  | caddr => "caddr"

/-- Operand layout of an operation. -/
inductive Format
  | a
  | m
  | c
  /-- A memory address, then a cache address. -/
  | mc
  /-- A cache address, then a count in the memory address field. -/
  | cm
  deriving DecidableEq, Repr

namespace Format

/-- The fields that the operands land in, in source order. -/
def fields : Format → List Field
  | a => []
  | m => [.maddr]
  | c => [.caddr]
  | mc => [.maddr, .caddr]
  | cm => [.caddr, .maddr]

def arity (f : Format) : Nat := f.fields.length

end Format

/-! ### Operations -/

/-- The operations.  The first eight are carried out by the sequencer, the others by the datapath;
a digit at the end of a name restricts an operation to one accumulator lane. -/
inductive Opcode
  | sync | call | ret | execute | loadCode | loadCoeff0 | loadCoeff1 | continueLoad
  | setVbp | addVbp | setLbp | addLbp | setSbp | addSbp | setCbp | addCbp
  | store | store0 | store1 | relu | relu0 | relu1 | save | save0 | save1
  | ldSet | ldSet0 | ldSet1 | ldAdd | ldAdd0 | ldAdd1 | ldMax | ldMax0 | ldMax1
  | macc | mmax | maccz | mmaxz | mmaxn
  deriving DecidableEq, Repr

namespace Opcode

/-- The name of the operation in assembly source. -/
def mnemonic : Opcode → String
  | sync => "Sync"
  | call => "Call"
  | ret => "Return"
  | execute => "Execute"
  | loadCode => "LoadCode"
  | loadCoeff0 => "LoadCoeff0"
  | loadCoeff1 => "LoadCoeff1"
  | continueLoad => "ContinueLoad"
  | setVbp => "SetVBP"
  | addVbp => "AddVBP"
  | setLbp => "SetLBP"
  | addLbp => "AddLBP"
  | setSbp => "SetSBP"
  | addSbp => "AddSBP"
  | setCbp => "SetCBP"
  | addCbp => "AddCBP"
  | store => "Store"
  | store0 => "Store0"
  | store1 => "Store1"
  | relu => "ReLU"
  | relu0 => "ReLU0"
  | relu1 => "ReLU1"
  | save => "Save"
  | save0 => "Save0"
  | save1 => "Save1"
  | ldSet => "LdSet"
  | ldSet0 => "LdSet0"
  | ldSet1 => "LdSet1"
  | ldAdd => "LdAdd"
  | ldAdd0 => "LdAdd0"
  | ldAdd1 => "LdAdd1"
  | ldMax => "LdMax"
  | ldMax0 => "LdMax0"
  | ldMax1 => "LdMax1"
  | macc => "MACC"
  | mmax => "MMAX"
  | maccz => "MACCZ"
  | mmaxz => "MMAXZ"
  | mmaxn => "MMAXN"

/-- The number of the operation in an instruction word. -/
def number : Opcode → Nat
  | sync => 0
  | call => 1
  | ret => 2
  | execute => 3
  | loadCode => 4
  | loadCoeff0 => 5
  | loadCoeff1 => 6
  | continueLoad => 7
  | setVbp => 8
  | addVbp => 9
  | setLbp => 10
  | addLbp => 11
  | setSbp => 12
  | addSbp => 13
  | setCbp => 14
  | addCbp => 15
  | store => 16
  | store0 => 17
  | store1 => 18
  | relu => 20
  | relu0 => 21
  | relu1 => 22
  | save => 24
  | save0 => 25
  | save1 => 26
  | ldSet => 28
  | ldSet0 => 29
  | ldSet1 => 30
  | ldAdd => 32
  | ldAdd0 => 33
  | ldAdd1 => 34
  | ldMax => 36
  | ldMax0 => 37
  | ldMax1 => 38
  | macc => 40
  | mmax => 41
  | maccz => 42
  | mmaxz => 43
  | mmaxn => 45

def format : Opcode → Format
  | sync | ret => .a
  | execute => .cm
  | loadCode | loadCoeff0 | loadCoeff1 => .mc
  | setCbp | addCbp => .c
  | store | store0 | store1 | relu | relu0 | relu1 => .mc
  | macc | mmax | maccz | mmaxz | mmaxn => .mc
  | _ => .m

/-- Carried out by the sequencer, and so not allowed in the code cache. -/
def isSequencer : Opcode → Bool
  | sync | call | ret | execute | loadCode | loadCoeff0 | loadCoeff1 | continueLoad => true
  | _ => false

/-- Every operation once, in the order of the numbers. -/
def all : List Opcode :=
  [sync, call, ret, execute, loadCode, loadCoeff0, loadCoeff1, continueLoad,
    setVbp, addVbp, setLbp, addLbp, setSbp, addSbp, setCbp, addCbp,
    store, store0, store1, relu, relu0, relu1, save, save0, save1,
    ldSet, ldSet0, ldSet1, ldAdd, ldAdd0, ldAdd1, ldMax, ldMax0, ldMax1,
    macc, mmax, maccz, mmaxz, mmaxn]

theorem mem_all (o : Opcode) : o ∈ all := by cases o <;> decide

/-- The operation of a number, if the number is assigned. -/
def ofNumber? (n : Nat) : Option Opcode := all.find? fun o => o.number == n

/-- The operation of a name.  Upper and lower case differ. -/
def ofMnemonic? (name : String) : Option Opcode := all.find? fun o => o.mnemonic == name

theorem ofNumber?_number (o : Opcode) : ofNumber? o.number = some o := by cases o <;> rfl

theorem number_of_ofNumber? {n : Nat} {o : Opcode} (h : ofNumber? n = some o) : o.number = n := by
  simpa using List.find?_some h

theorem ofMnemonic?_mnemonic (o : Opcode) : ofMnemonic? o.mnemonic = some o := by
  cases o <;> decide

theorem number_lt (o : Opcode) : o.number < 64 := by cases o <;> decide

end Opcode

end Macc
