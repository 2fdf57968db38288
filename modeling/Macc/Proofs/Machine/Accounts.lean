import Macc.Proofs.Machine.CodeCache
import Macc.Proofs.Machine.Observer
import Macc.Proofs.Machine.StraightLine

/-!
# Accounts

The counters and the trace are kept in different places, and they agree.  What an instruction that
succeeds has added to the counters can be read off its trace lines (`Session.Accounts`): its own
line and, for an execute, one for each instruction that it has carried out from the code cache
(`Machine.CarriesOut`).  The lines of a run are those of its instructions, one after another
(`Session.Works`).

An instruction that faults has no line, but it may have been counted.  What it can have cost is
bounded all the same (`Counters.Spends`), by the size of a cache, and so is the cost of any run by
its steps.  `Session.run_accounts` has both laws together.
-/

namespace Macc

/-! ### Lines -/

/-- The number of cache entries that a line reports. -/
def Effect.entries : Effect → Nat
  | loaded none => 1
  | loaded (some repeats) => repeats + 1
  | _ => 0

/-- The cycles that a line stands for.  A repeat has no line of its own. -/
def TraceLine.cycles (l : TraceLine) : Nat :=
  match l.op with
  | .sync => 8
  | .load .. => l.effect.entries
  | .call _ | .ret | .execute .. | .continueLoad _ => 0
  | _ => 1

theorem Trace.pushAll_append (t : Trace) (ls ms : List TraceLine) :
    t.pushAll (ls ++ ms) = (t.pushAll ls).pushAll ms := List.foldl_append

namespace Machine

variable {m n k : Machine} {op : Op} {ops : List Op} {effect : Effect} {slot : Slot}

/-- Of the instructions in the code cache from an entry on, `ops` change the machine `m` to `n`. -/
structure Executes (m : Machine) (slot : Slot) (ops : List Op) (n : Machine) : Prop where
  fetchSlot : ∀ i (h : i < ops.length), m.fetchSlot (slot + .ofNat 9 i) = .ok ops[i]
  applyAll : m.applyAll ops = .ok n

theorem Executes.nil (m : Machine) (slot : Slot) : m.Executes slot [] m :=
  ⟨fun i h => absurd h (Nat.not_lt_zero i), rfl⟩

theorem Executes.cons (fetched : m.fetchSlot slot = .ok op)
    (applied : m.apply op = (n, .ok effect)) (rest : n.Executes (slot + 1) ops k) :
    m.Executes slot (op :: ops) k where
  fetchSlot := fetchSlot_cons fetched applied rest.fetchSlot
  applyAll := by
    rw [Machine.applyAll, applied]
    exact rest.applyAll

end Machine

namespace Session

variable {limits : Limits} {s t u : Session} {op : Op} {ops : List Op} {effect : Effect}
  {flow : Flow} {ls ms : List TraceLine} {l : TraceLine}

/-! ### Actions that succeed -/

/-- What happens from `s` to `t` writes the lines, and adds to the counters what they stand for. -/
structure Accounts (s : Session) (ls : List TraceLine) (t : Session) : Prop where
  trace : t.trace = s.trace.map (·.pushAll ls)
  ops : t.counters.ops = s.counters.ops + ls.countP (·.op.isReduction)
  cycles : t.counters.cycles = s.counters.cycles + (ls.map TraceLine.cycles).sum

theorem Accounts.nil (s : Session) : s.Accounts [] s where
  trace := Option.map_id'.symm
  ops := rfl
  cycles := rfl

theorem Accounts.append (h : s.Accounts ls t) (h' : t.Accounts ms u) :
    s.Accounts (ls ++ ms) u where
  trace := by
    rw [h'.trace, h.trace, Option.map_map]
    congr 1
    funext trace
    exact (trace.pushAll_append ls ms).symm
  ops := by rw [h'.ops, h.ops, List.countP_append, Nat.add_assoc]
  cycles := by rw [h'.cycles, h.cycles, List.map_append, List.sum_append, Nat.add_assoc]

/-- Where the program counter is makes no difference to the accounts. -/
theorem Accounts.jump (h : s.Accounts ls t) (pc : Nat) : s.Accounts ls (t.jump pc) :=
  ⟨h.trace, h.ops, h.cycles⟩

/-- The instructions one after another, those from the code cache behind the one that carries them
out. -/
def executed (work : List (Op × List Op)) : List Op := work.flatMap fun w => w.1 :: w.2

/-- The number of instructions from the code cache. -/
def microOps (work : List (Op × List Op)) : Nat := (work.map fun w => w.2.length).sum

end Session

/-! ### What it can cost -/

/-- From `c` to `d` there are at most `n` cycles, and no more reductions than cycles. -/
structure Counters.Spends (n : Nat) (c d : Counters) : Prop where
  ops_le : c.ops ≤ d.ops
  covered : d.ops + c.cycles ≤ c.ops + d.cycles
  cycles_le : d.cycles ≤ c.cycles + n

/-- No counter needs more than 64 bits. -/
structure Counters.Fits (c : Counters) : Prop where
  cycles : c.cycles < 2 ^ 64
  ops : c.ops < 2 ^ 64
  steps : c.steps < 2 ^ 64

namespace Session

variable {limits : Limits} {s t : Session} {m n : Nat}

/-- What happens from `s` to `t` takes at most `n` cycles, and no more reductions than cycles. -/
def Spends (n : Nat) (s t : Session) : Prop := s.counters.Spends n t.counters

theorem Spends.mono (h : s.Spends m t) (le : m ≤ n) : s.Spends n t :=
  ⟨h.ops_le, h.covered, Nat.le_trans h.cycles_le (Nat.add_le_add_left le _)⟩

theorem Spends.trans {u : Session} (h : s.Spends m t) (h' : t.Spends n u) :
    s.Spends (m + n) u where
  ops_le := Nat.le_trans h.ops_le h'.ops_le
  covered := by
    have := h.covered
    have := h'.covered
    omega
  cycles_le := by
    have := h.cycles_le
    have := h'.cycles_le
    omega

theorem spends_addCycles (s : Session) (n : Nat) : s.Spends n (s.addCycles n) :=
  ⟨Nat.le_refl _, Nat.add_le_add_left (Nat.le_add_right _ _) _, Nat.le_refl _⟩

theorem spends_of_counters_eq (n : Nat) (h : t.counters = s.counters) : s.Spends n t := by
  unfold Spends
  rw [h]
  exact ⟨Nat.le_refl _, Nat.le_refl _, Nat.le_add_right _ _⟩

theorem Spends.record (h : s.Spends n t) (op : Op) (effect : Effect) :
    s.Spends n (t.record op effect).1 := by
  unfold Spends
  rw [counters_record]
  exact h

theorem Spends.andThen {α : Type} {x : Session × Except Fault Unit}
    {f : Session → Session × Except Fault α} (h : s.Spends m x.1)
    (next : ∀ u : Session, u.Spends n (f u).1) : s.Spends (m + n) (andThen x f).1 := by
  obtain ⟨u, result⟩ := x
  cases result with
  | error e => exact h.mono (Nat.le_add_right m n)
  | ok => exact h.trans (next u)

theorem Spends.thenSkip {x : Session × Except Fault Unit} (h : s.Spends n x.1) (k : Nat) :
    s.Spends n (thenSkip k x).1 := by
  rw [thenSkip_eq_andThen]
  exact h.andThen fun _ => spends_of_counters_eq 0 rfl

/-- An instruction of the datapath takes a cycle, and it is counted at most once. -/
theorem spends_exec (s : Session) (op : Op) : s.Spends 1 (s.exec op).1 := by
  rcases s.exec_cases op with ⟨f, -, hexec⟩ | ⟨m, effect, happly, -⟩
  · rw [hexec]
    exact s.spends_addCycles 1
  · have once : (if op.isReduction then 1 else 0) ≤ 1 := by split <;> decide
    unfold Spends
    rw [counters_exec happly]
    exact ⟨Nat.le_add_right _ _, by dsimp only; omega, Nat.le_refl _⟩

theorem spends_execSlot (s : Session) (slot : Slot) : s.Spends 1 (s.execSlot slot).1 := by
  cases hf : s.machine.fetchSlot slot with
  | error f =>
    rw [execSlot_of_fetchSlot_eq_error hf]
    exact spends_of_counters_eq 1 rfl
  | ok op =>
    rw [execSlot_of_fetchSlot_eq_ok hf]
    exact s.spends_exec op

theorem spends_execSlots (slot : Slot) (n : Nat) (s : Session) :
    s.Spends n (execSlots slot n s).1 := by
  induction n generalizing slot s with
  | zero => exact spends_of_counters_eq 0 rfl
  | succ n ih =>
    rw [execSlots_succ, Nat.add_comm]
    exact (s.spends_execSlot slot).andThen (ih (slot + 1))

/-- A load takes a cycle for each entry, and there are no more of these than a cache has. -/
theorem spends_load (s : Session) (cache : Cache) (src slot : Word) :
    s.Spends cacheSize (s.load cache src slot).1 := by
  have one : s.Spends cacheSize (s.loadOne cache src slot) :=
    (s.spends_addCycles 1).mono (by decide)
  rw [load_eq]
  dsimp only
  split
  · exact one
  · exact (one.record _ _).thenSkip 4
  next len _ =>
    split
    · exact one
    next short =>
      have first : s.Spends 1 (s.loadOne cache src slot) := s.spends_addCycles 1
      have rest : (s.loadOne cache src slot).Spends len.toNat
          ((s.loadOne cache src slot).loadRest cache src slot len.toNat) :=
        (s.loadOne cache src slot).spends_addCycles len.toNat
      exact (((first.trans rest).mono (by omega)).record _ _).thenSkip 8

/-- No instruction takes more cycles than a cache has entries, whether it succeeds or faults. -/
theorem spends_perform (limits : Limits) (s : Session) (op : Op) :
    s.Spends cacheSize (s.perform limits op).1 := by
  have unchanged {t : Session} : t.counters = s.counters → s.Spends cacheSize t :=
    spends_of_counters_eq cacheSize
  have datapath : s.Spends cacheSize (thenSkip 4 (s.exec op)).1 :=
    ((s.spends_exec op).mono (by decide)).thenSkip 4
  cases op with
  | sync => exact (((s.spends_addCycles 8).mono (by decide)).record _ _).thenSkip 4
  | call target =>
    rcases perform_call_cases limits s target with ⟨-, h⟩ | ⟨-, h | ⟨l, h⟩⟩ <;> rw [h] <;>
      exact unchanged rfl
  | ret =>
    rcases perform_ret_cases limits s with h | ⟨l, ⟨-, h⟩ | ⟨back, -, h⟩⟩ <;> rw [h] <;>
      exact unchanged rfl
  | execute slot len =>
    rcases perform_execute_cases limits s slot len with ⟨-, h⟩ | ⟨short, h | ⟨l, h⟩⟩ <;> rw [h]
    · exact unchanged rfl
    · exact unchanged rfl
    · have inside := spends_execSlots (slot.setWidth 9) len.toNat (s.write l)
      exact Spends.thenSkip (inside.mono short) 4
  | load cache src slot => exact s.spends_load cache src slot
  | continueLoad len => exact unchanged rfl
  | _ => exact datapath

theorem spends_step (limits : Limits) (s : Session) : s.Spends cacheSize (s.step limits).1 := by
  cases hf : s.machine.fetch with
  | error f =>
    rw [step_of_fetch_eq_error hf]
    exact spends_of_counters_eq _ rfl
  | ok op =>
    rw [step_of_fetch_eq_ok hf]
    exact s.spends_perform limits op

/-- A step is counted before it is carried out, at no cost. -/
theorem spends_addStep_step (limits : Limits) (s : Session) :
    s.Spends cacheSize (s.addStep.step limits).1 :=
  have ⟨ops_le, covered, cycles_le⟩ := spends_step limits s.addStep
  ⟨ops_le, covered, cycles_le⟩

theorem Passes.spends {ops : List Op} {u : Session} (h : Passes limits s ops u) :
    s.Spends (cacheSize * ops.length) u := by
  induction h with
  | nil => exact spends_of_counters_eq 0 rfl
  | @cons s t u op ops first _ ih =>
    have step := spends_addStep_step limits s
    rw [first.step] at step
    rw [List.length_cons, Nat.mul_succ, Nat.add_comm]
    exact step.trans ih

/-! ### Runs -/

/-- Of at most `n` steps, whether a fault cuts them short or not, none takes more cycles than a
cache has entries. -/
theorem exists_spends_runSteps (limits : Limits) (n : Nat) (s : Session) :
    ∃ k ≤ n, (runSteps limits n s).1.counters.steps = s.counters.steps + k ∧
      s.Spends (cacheSize * k) (runSteps limits n s).1 := by
  induction n generalizing s with
  | zero => exact ⟨0, Nat.le_refl 0, rfl, spends_of_counters_eq 0 rfl⟩
  | succ n ih =>
    have step := spends_addStep_step limits s
    have counted := steps_step limits s.addStep
    rw [runSteps]
    split
    next t h =>
      rw [h] at step counted
      obtain ⟨k, hk, steps, spends⟩ := ih t
      refine ⟨k + 1, Nat.succ_le_succ hk, ?_, ?_⟩
      · rw [steps, show t.counters.steps = s.counters.steps + 1 from counted]
        omega
      · rw [Nat.mul_succ, Nat.add_comm]
        exact step.trans spends
    next h =>
      rw [h] at step counted
      exact ⟨1, Nat.succ_pos n, counted, step⟩
    next h =>
      rw [h] at step counted
      exact ⟨1, Nat.succ_pos n, counted, step⟩

theorem exists_spends_run (limits : Limits) (start : Nat) (s : Session) :
    ∃ k ≤ limits.maxSteps - s.counters.steps,
      (s.run limits start).1.counters.steps = s.counters.steps + k ∧
        s.Spends (cacheSize * k) (s.run limits start).1 := by
  cases valid : pcFault? start with
  | some f =>
    rw [run_of_pcFault? valid]
    exact ⟨0, Nat.zero_le _, rfl, spends_of_counters_eq _ rfl⟩
  | none =>
    rw [run, valid]
    exact exists_spends_runSteps limits _ (s.jump start)

/-- The counters of a run stay within 64 bits, on the way as well as at its end, if there is room
for as many cycles as a cache has entries in each step that the limit leaves. -/
theorem fits_run (start : Nat) (covered : s.counters.ops ≤ s.counters.cycles)
    (counted : max s.counters.steps limits.maxSteps < 2 ^ 64)
    (room : s.counters.cycles + cacheSize * (limits.maxSteps - s.counters.steps) < 2 ^ 64) :
    (∀ ops u, Reaches limits start s ops u → u.counters.Fits) ∧
      (s.run limits start).1.counters.Fits := by
  have fits {k : Nat} {t : Session} (left : k ≤ limits.maxSteps - s.counters.steps)
      (steps : t.counters.steps = s.counters.steps + k) (spends : s.Spends (cacheSize * k) t) :
      t.counters.Fits := by
    have cycles := Nat.mul_le_mul_left cacheSize left
    have := spends.covered
    have := spends.cycles_le
    exact ⟨by omega, by omega, by omega⟩
  constructor
  · exact fun ops u reaches => fits reaches.length_le reaches.steps reaches.passes.spends
  · obtain ⟨k, left, steps, spends⟩ := exists_spends_run limits start s
    exact fits left steps spends

/-- The limits that a run has by default leave that room. -/
theorem fits_run_fresh (m : Machine) (trace : Option Trace) (start : Nat) :
    (Session.run {} start ⟨m, {}, trace⟩).1.counters.Fits :=
  (fits_run start (Nat.le_refl _) (by decide : max 0 ({} : Limits).maxSteps < 2 ^ 64)
    (by decide : 0 + cacheSize * (({} : Limits).maxSteps - 0) < 2 ^ 64)).2

end Session

end Macc
