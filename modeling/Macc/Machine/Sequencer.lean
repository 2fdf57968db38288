import Macc.Machine.Session

/-!
# The sequencer

The sequencer fetches instructions from memory, steers the program and hands the other instructions
to the datapath.  `step` carries out the instruction at the program counter, and `run` does so until
the program returns with an empty call stack, faults, or uses up its steps.
-/

namespace Macc

/-- How a program goes on after an instruction. -/
inductive Flow
  | next
  | halt
  deriving DecidableEq, Repr

/-- The fault of fetching an instruction from an address. -/
def pcFault? (pc : Nat) : Option Fault :=
  if memorySize ≤ pc then some (.pcOutOfRange pc)
  else if pc % 4 ≠ 0 then some (.misaligned .pc pc)
  else none

/-- How many times a load is repeated: as often as the instruction behind it says if that is a
repeat. -/
def repeats? (next : Word) : Except Fault (Option Word) :=
  if (opcodeField next).toNat ≠ Opcode.continueLoad.number then .ok none
  else
    match Op.decode next with
    | .error e => .error (.decode e)
    | .ok (.continueLoad len) => .ok (some len)
    | .ok _ => .ok none

namespace Session

def jump (s : Session) (pc : Nat) : Session := { s with machine := { s.machine with pc := pc } }

/-- After an action that succeeded, go on `n` bytes behind the program counter. -/
def thenSkip (n : Nat) : Session × Except Fault Unit → Session × Except Fault Flow
  | (s, .ok ()) => (s.jump (s.machine.pc + n), .ok .next)
  | (s, .error f) => (s, .error f)

/-! ### Instructions in the code cache -/

/-- Carry out the instruction of a code cache entry, which has to be the datapath's. -/
def execSlot (s : Session) (slot : Slot) : Session × Except Fault Unit :=
  match Op.decode s.machine.code[slot.toFin] with
  | .error e => (s, .error (.decode e))
  | .ok op => if op.opcode.isSequencer then (s, .error (.notDatapath op.opcode)) else s.exec op

/-- Carry out the instructions of `n` code cache entries, up to the first fault. -/
def execSlots (slot : Slot) : Nat → Session → Session × Except Fault Unit
  | 0, s => (s, .ok ())
  | n + 1, s =>
    match s.execSlot slot with
    | (s, .ok ()) => execSlots (slot + 1) n s
    | (s, .error f) => (s, .error f)

/-! ### Instructions in memory -/

/-- Load one entry of a cache, and further ones if the next instruction repeats the load. -/
def load (s : Session) (cache : Cache) (src slot : Word) : Session × Except Fault Flow :=
  let op : Op := .load cache src slot
  let src := src.setWidth 17
  let slot := slot.setWidth 9
  let s := { s with machine := s.machine.load cache src slot }.addCycles 1
  match repeats? (s.machine.mem.word (BitVec.ofNat 17 (s.machine.pc + 4))) with
  | .error f => (s, .error f)
  | .ok none => thenSkip 4 (s.record op (.loaded none))
  | .ok (some len) =>
    if cacheSize ≤ len.toNat then (s, .error (.countTooLarge len))
    else
      let src := src + BitVec.ofNat 17 cache.stride
      let machine := s.machine.loadMany cache src (slot + 1) len.toNat
      let s := { s with machine }.addCycles len.toNat
      thenSkip 8 (s.record op (.loaded (some len.toNat)))

/-- Carry out an instruction that was fetched from the program counter. -/
def perform (limits : Limits) (s : Session) (op : Op) : Session × Except Fault Flow :=
  match op with
  | .sync =>
    let s := s.addCycles 8
    thenSkip 4 (s.record op (.cycles s.counters.cycles))
  | .call target =>
    if limits.maxDepth ≤ s.machine.depth then (s, .error (.depthLimit limits.maxDepth))
    else
      let s := { s with machine := s.machine.pushReturn (s.machine.pc + 4) }
      match s.record op (.depth s.machine.depth) with
      | (s, .error f) => (s, .error f)
      | (s, .ok ()) => (s.jump target.toNat, .ok .next)
  | .ret =>
    match s.record op (.depth s.machine.depth) with
    | (s, .error f) => (s, .error f)
    | (s, .ok ()) =>
      match s.machine.stack.back? with
      | none => (s, .ok .halt)
      | some back => ({ s with machine := s.machine.returnTo back }, .ok .next)
  | .execute slot len =>
    if cacheSize < len.toNat then (s, .error (.countTooLarge len))
    else
      match s.record op (.microOps len.toNat) with
      | (s, .error f) => (s, .error f)
      | (s, .ok ()) => thenSkip 4 (execSlots (slot.setWidth 9) len.toNat s)
  | .load cache src slot => s.load cache src slot
  | .continueLoad _ => (s, .error .strayContinueLoad)
  | op => thenSkip 4 (s.exec op)

/-- Carry out the instruction at the program counter. -/
def step (limits : Limits) (s : Session) : Session × Except Fault Flow :=
  match pcFault? s.machine.pc with
  | some f => (s, .error f)
  | none =>
    match Op.decode (s.machine.mem.word (BitVec.ofNat 17 s.machine.pc)) with
    | .error e => (s, .error (.decode e))
    | .ok op => s.perform limits op

/-! ### Runs -/

/-- Carry out and count up to `n` steps.  A program that needs more reaches its limit.  A fault lies
where the program counter is, which a step that faults does not move. -/
def runSteps (limits : Limits) : Nat → Session → Session × Except LocatedFault Unit
  | 0, s => (s, .error ⟨some s.machine.pc, .stepLimit limits.maxSteps⟩)
  | n + 1, s =>
    match s.addStep.step limits with
    | (s, .ok .next) => runSteps limits n s
    | (s, .ok .halt) => (s, .ok ())
    | (s, .error f) => (s, .error ⟨some s.machine.pc, f⟩)

/-- Run from an address on.  The steps counted before use up the limit too. -/
def run (limits : Limits) (start : Nat) (s : Session) : Session × Except LocatedFault Unit :=
  match pcFault? start with
  | some f => (s, .error ⟨none, f⟩)
  | none => runSteps limits (limits.maxSteps - s.counters.steps) (s.jump start)

end Session

/-- The memory after a run of a fresh machine from an address on. -/
def Image.run (mem : Image) (start : Nat) : Except LocatedFault Image :=
  match Session.run {} start { machine := { mem } } with
  | (s, .ok ()) => .ok s.machine.mem
  | (_, .error f) => .error f

end Macc
