import Macc.Proofs.Image.WordAccess
import Macc.Proofs.Machine.Likeness

/-!
# Arithmetic in 32 bits

The sequencer adds to the program counter, and a repeated load multiplies to find its entries and
adds to count them.  `Session.run?` is the run with each of these numbers in 32 bits: it gives up
where one does not fit.  No run has to give up (`Session.run?_eq`), because a program counter is
looked at before it is used and the number of repeats is bounded by the size of a cache.
-/

namespace Macc

/-- A number, unless it takes more than 32 bits. -/
def inWord? (n : Nat) : Option Nat := if n < 2 ^ 32 then some n else none

theorem inWord?_of_lt {n : Nat} (h : n < 2 ^ 32) : inWord? n = some n := if_pos h

/-! ### Loads -/

theorem Cache.stride_le (cache : Cache) : cache.stride ≤ 8 := by
  cases cache <;> decide

namespace Machine

/-- Load the entry of a cache that lies `i` behind `slot`, from `i` strides behind `src`. -/
def loadNth? (cache : Cache) (src slot : Word) (m : Machine) (i : Nat) : Option Machine := do
  let offset ← inWord? (i * cache.stride)
  return m.load cache ((src + .ofNat 32 offset).setWidth 17) ((slot + .ofNat 32 i).setWidth 9)

/-- Load `n` entries behind the first. -/
def loadMany? (m : Machine) (cache : Cache) (src slot : Word) (n : Nat) : Option Machine :=
  (List.range' 1 n).foldlM (loadNth? cache src slot) m

variable (cache : Cache) (src slot : Word)

theorem loadNth?_eq {i : Nat} (h : i < cacheSize) (m : Machine) :
    m.loadNth? cache src slot i =
      some (m.load cache (src.setWidth 17 + .ofNat 17 (i * cache.stride))
        (slot.setWidth 9 + .ofNat 9 i)) := by
  have small : i * cache.stride < 2 ^ 32 :=
    Nat.lt_of_le_of_lt (Nat.mul_le_mul (Nat.le_of_lt h) cache.stride_le) (by decide)
  rw [loadNth?, inWord?_of_lt small, ← setWidth_add_ofNat (by decide),
    ← setWidth_add_ofNat (by decide)]
  rfl

theorem foldlM_loadNth?_eq {k n : Nat} (h : k + n ≤ cacheSize) (m : Machine) :
    (List.range' k n).foldlM (loadNth? cache src slot) m =
      some (m.loadMany cache (src.setWidth 17 + .ofNat 17 (k * cache.stride))
        (slot.setWidth 9 + .ofNat 9 k) n) := by
  induction n generalizing k m with
  | zero => rfl
  | succ n ih =>
    rw [List.range'_succ, List.foldlM_cons, loadNth?_eq cache src slot (by omega), loadMany]
    refine (ih (by omega) _).trans ?_
    rw [Nat.succ_mul, BitVec.ofNat_add, BitVec.ofNat_add, ← BitVec.add_assoc, ← BitVec.add_assoc]
    rfl

theorem loadMany?_eq {n : Nat} (h : n < cacheSize) (m : Machine) :
    m.loadMany? cache src slot n =
      some (m.loadMany cache (src.setWidth 17 + .ofNat 17 cache.stride)
        (slot.setWidth 9 + 1) n) := by
  have eq := foldlM_loadNth?_eq cache src slot (show 1 + n ≤ cacheSize by omega) m
  rwa [Nat.one_mul] at eq

end Machine

namespace Session

/-- Go on `n` bytes behind the program counter after an action that succeeded. -/
def thenSkip? (n : Nat) : Session × Except Fault Unit → Option (Session × Except Fault Flow)
  | (s, .ok ()) => do
    let pc ← inWord? (s.machine.pc + n)
    return (s.jump pc, .ok .next)
  | (s, .error f) => some (s, .error f)

/-- Load one entry of a cache, and further ones if the next instruction repeats the load. -/
def load? (s : Session) (cache : Cache) (src slot : Word) :
    Option (Session × Except Fault Flow) := do
  let op : Op := .load cache src slot
  let s := s.loadOne cache src slot
  let next ← inWord? (s.machine.pc + 4)
  match repeats? (s.machine.mem.word (.ofNat 17 next)) with
  | .error f => return (s, .error f)
  | .ok none => thenSkip? 4 (s.record op (.loaded none))
  | .ok (some len) =>
    if cacheSize ≤ len.toNat then return (s, .error (.countTooLarge len))
    else
      let machine ← s.machine.loadMany? cache src slot len.toNat
      let entries ← inWord? (len.toNat + 1)
      let s := { s with machine }.addCycles len.toNat
      thenSkip? 8 (s.record op (.loaded (some (entries - 1))))

/-- Carry out an instruction that was fetched from the program counter. -/
def perform? (limits : Limits) (s : Session) (op : Op) : Option (Session × Except Fault Flow) :=
  match op with
  | .sync =>
    let s := s.addCycles 8
    thenSkip? 4 (s.record op (.cycles s.counters.cycles))
  | .call target =>
    if limits.maxDepth ≤ s.machine.depth then some (s, .error (.depthLimit limits.maxDepth))
    else do
      let back ← inWord? (s.machine.pc + 4)
      let s := { s with machine := s.machine.pushReturn back }
      return andThen (s.record op (.depth s.machine.depth)) fun s =>
        (s.jump target.toNat, .ok .next)
  | .execute slot len =>
    if cacheSize < len.toNat then some (s, .error (.countTooLarge len))
    else
      match s.record op (.microOps len.toNat) with
      | (s, .error f) => some (s, .error f)
      | (s, .ok ()) => thenSkip? 4 (execSlots (slot.setWidth 9) len.toNat s)
  | .load cache src slot => s.load? cache src slot
  -- Neither of these computes with the program counter.
  | .ret => some (s.perform limits .ret)
  | .continueLoad len => some (s.perform limits (.continueLoad len))
  | op => thenSkip? 4 (s.exec op)

/-- Carry out the instruction at the program counter. -/
def step? (limits : Limits) (s : Session) : Option (Session × Except Fault Flow) :=
  match s.machine.fetch with
  | .error f => some (s, .error f)
  | .ok op => s.perform? limits op

/-- Carry out and count up to `n` steps. -/
def runSteps? (limits : Limits) : Nat → Session → Option (Session × Except LocatedFault Unit)
  | 0, s => some (s, .error ⟨some s.machine.pc, .stepLimit limits.maxSteps⟩)
  | n + 1, s => do
    match ← s.addStep.step? limits with
    | (s, .ok .next) => runSteps? limits n s
    | (s, .ok .halt) => return (s, .ok ())
    | (s, .error f) => return (s, .error ⟨some s.machine.pc, f⟩)

/-- Run from an address on, with the arithmetic of the sequencer in 32 bits. -/
def run? (limits : Limits) (start : Nat) (s : Session) :
    Option (Session × Except LocatedFault Unit) :=
  match pcFault? start with
  | some f => some (s, .error ⟨none, f⟩)
  | none => runSteps? limits (limits.maxSteps - s.counters.steps) (s.jump start)

variable {limits : Limits} {s : Session}

theorem thenSkip?_eq {x : Session × Except Fault Unit} {n : Nat} (hpc : x.1.machine.pc < memorySize)
    (hn : n ≤ 8) : thenSkip? n x = some (thenSkip n x) := by
  obtain ⟨t, result⟩ := x
  cases result with
  | error f => rfl
  | ok =>
    have small : t.machine.pc + n < 2 ^ 32 :=
      Nat.lt_of_lt_of_le (Nat.add_lt_add_of_lt_of_le hpc hn) (by decide)
    rw [thenSkip?, inWord?_of_lt small]
    rfl

theorem load?_eq (hpc : s.machine.pc < memorySize) (cache : Cache) (src slot : Word) :
    s.load? cache src slot = some (s.load cache src slot) := by
  have pc : (s.loadOne cache src slot).machine.pc = s.machine.pc := s.machine.pc_load ..
  have small : (s.loadOne cache src slot).machine.pc + 4 < 2 ^ 32 := by
    rw [pc]
    exact Nat.lt_trans (Nat.add_lt_add_right hpc 4) (by decide)
  have ahead : repeats? ((s.loadOne cache src slot).machine.mem.word
      (.ofNat 17 ((s.loadOne cache src slot).machine.pc + 4))) = s.machine.lookAhead :=
    s.machine.lookAhead_load ..
  rw [load?, load_eq, inWord?_of_lt small]
  dsimp only [Option.bind_eq_bind, Option.bind_some]
  rw [ahead]
  cases s.machine.lookAhead with
  | error f => rfl
  | ok repeats =>
    cases repeats with
    | none => exact thenSkip?_eq (by rwa [machine_record, pc]) (by decide)
    | some len =>
      dsimp only
      split
      · rfl
      next hlen =>
        have few : len.toNat < cacheSize := Nat.lt_of_not_le hlen
        have entries : len.toNat + 1 < 2 ^ 32 := Nat.lt_trans (Nat.succ_lt_succ few) (by decide)
        rw [Machine.loadMany?_eq cache src slot few, inWord?_of_lt entries]
        refine thenSkip?_eq ?_ (by decide)
        rw [machine_record]
        exact Nat.lt_of_le_of_lt (Nat.le_of_eq ((Machine.pc_loadMany ..).trans pc)) hpc

theorem perform?_eq (hpc : s.machine.pc < memorySize) (op : Op) :
    s.perform? limits op = some (s.perform limits op) := by
  have datapath : thenSkip? 4 (s.exec op) = some (thenSkip 4 (s.exec op)) := by
    refine thenSkip?_eq ?_ (by decide)
    rwa [machine_exec, (s.machine.sameControl_apply op).pc]
  cases op with
  | sync =>
    unfold perform?
    rw [perform_sync_eq]
    exact thenSkip?_eq (by rwa [machine_record]) (by decide)
  | call target =>
    have small : s.machine.pc + 4 < 2 ^ 32 :=
      Nat.lt_trans (Nat.add_lt_add_right hpc 4) (by decide)
    unfold perform?
    dsimp only
    split
    next hd => rw [perform_call_of_le hd]
    next hd =>
      rw [perform_call_eq (Nat.lt_of_not_le hd), inWord?_of_lt small]
      rfl
  | execute slot len =>
    unfold perform?
    dsimp only
    split
    next hlen => exact congrArg some (if_pos hlen).symm
    next hlen =>
      rw [perform_execute_eq _ _ (Nat.le_of_not_lt hlen)]
      have same := s.machine_record (.execute slot len) (.microOps len.toNat)
      generalize s.record (.execute slot len) (.microOps len.toNat) = x at same
      obtain ⟨t, result⟩ := x
      cases result with
      | error f => rfl
      | ok =>
        refine thenSkip?_eq ?_ (by decide)
        rw [(sameControl_execSlots _ _ t).pc, same]
        exact hpc
  | load cache src slot => exact load?_eq hpc cache src slot
  | ret => rfl
  | continueLoad len => rfl
  | _ => exact datapath

theorem step?_eq (limits : Limits) (s : Session) : s.step? limits = some (s.step limits) := by
  rw [step?]
  cases hf : s.machine.fetch with
  | error f => rw [step_of_fetch_eq_error hf]
  | ok op =>
    rw [step_of_fetch_eq_ok hf]
    exact perform?_eq ((pcFault?_eq_none_iff _).1 (Machine.fetch_eq_ok_iff.1 hf).1).1 op

theorem runSteps?_eq (limits : Limits) (n : Nat) (s : Session) :
    runSteps? limits n s = some (runSteps limits n s) := by
  induction n generalizing s with
  | zero => rfl
  | succ n ih =>
    rw [runSteps?, step?_eq, runSteps]
    generalize s.addStep.step limits = x
    obtain ⟨t, result⟩ := x
    cases result with
    | error f => rfl
    | ok flow =>
      cases flow with
      | halt => rfl
      | next => exact ih t

theorem run?_eq (limits : Limits) (start : Nat) (s : Session) :
    s.run? limits start = some (s.run limits start) := by
  rw [run?, run]
  cases pcFault? start with
  | some f => rfl
  | none => exact runSteps?_eq ..

end Session

end Macc
