import Macc.Instruction.Printing

/-!
# Faults

A `Fault` is a violation of the machine's rules by the program that it runs.  `Fault.message` words
it, and a `LocatedFault` adds the address of the instruction at fault.
-/

namespace Macc

/-- What a misaligned address was used for. -/
inductive Access
  | vector
  | load
  | save
  | pc
  deriving DecidableEq, Repr

def Access.name : Access → String
  | vector => "vector"
  | load => "load"
  | save => "save"
  | pc => "pc"

/-- The reasons why a machine stops before its program ends. -/
inductive Fault
  /-- The word at the program counter or in the code cache is no instruction. -/
  | decode (cause : DecodeError)
  | pcOutOfRange (pc : Nat)
  | misaligned (access : Access) (addr : Nat)
  | shiftTooLarge (shift : Word)
  /-- More entries than a cache has. -/
  | countTooLarge (count : Word)
  /-- A repeat of a load without a load in front of it. -/
  | strayContinueLoad
  /-- An instruction that steers the program where only the datapath's may stand. -/
  | notDatapath (opcode : Opcode)
  | stepLimit (limit : Nat)
  | depthLimit (limit : Nat)
  /-- A line of the trace could not be written. -/
  | trace
  deriving DecidableEq, Repr

def Fault.message : Fault → String
  | decode cause => cause.message
  | pcOutOfRange pc => "PC 0x" ++ Text.hex 0 pc ++ " is outside of the image"
  | misaligned access addr => s!"Misaligned {access.name} address 0x" ++ Text.hex 5 addr
  | shiftTooLarge shift => s!"Shift amount {shift.toNat} is not less than 32"
  | countTooLarge count => s!"Count {count.toNat} exceeds the cache size"
  | strayContinueLoad => "ContinueLoad without a preceding load"
  | notDatapath opcode => s!"{opcode.mnemonic} cannot be executed from the code cache"
  | stepLimit limit => s!"Step limit of {limit} reached"
  | depthLimit limit => s!"Call depth limit of {limit} reached"
  | trace => "Failed to write trace"

/-- A fault of a run.  It lies at an instruction unless the run could not begin. -/
structure LocatedFault where
  pc? : Option Nat
  cause : Fault
  deriving DecidableEq, Repr

def LocatedFault.message (f : LocatedFault) : String :=
  match f.pc? with
  | none => f.cause.message
  | some pc => "at 0x" ++ Text.hex 5 pc ++ ": " ++ f.cause.message

end Macc
