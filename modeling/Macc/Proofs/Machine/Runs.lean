import Macc.Proofs.Image.Words
import Macc.Proofs.Machine.Change

/-!
# Runs, step by step

A session completes an instruction (`Session.Completes`) when it carries it out as a counted step
and the program goes on.  A run carries out some instructions in this way, one after another
(`Session.Passes`, `Session.Reaches`), and then ends: by the step limit, by a halt or by a fault
(`Session.Ends`, `Session.exists_ends_run`).  What is left of a run does not depend on how it got
there (`Session.Reaches.run_eq`).
-/

namespace Macc

open Relation

/-- The instruction at the program counter. -/
def Machine.fetch (m : Machine) : Except Fault Op :=
  match pcFault? m.pc with
  | some f => .error f
  | none =>
    match Op.decode (m.mem.word (.ofNat 17 m.pc)) with
    | .error e => .error (.decode e)
    | .ok op => .ok op

theorem Machine.fetch_eq_ok_iff {m : Machine} {op : Op} :
    m.fetch = .ok op ↔
      pcFault? m.pc = none ∧ Op.decode (m.mem.word (.ofNat 17 m.pc)) = .ok op := by
  unfold fetch
  split
  next h => simp [h]
  next h =>
    split
    next hd => simp [hd]
    next hd => simp [h, hd]

namespace Session

variable {limits limits' : Limits} {s t u : Session} {op : Op} {ops : List Op} {start : Nat}

/-- A fresh machine with a program in memory, from address 0 on. -/
def ofProgram (ops : List Op) : Session :=
  { machine := { mem := Image.empty.setWords (ops.mapIdx fun i op => (4 * i, op.encode)) } }

/-! ### Steps -/

theorem step_of_fetch_eq_ok (h : s.machine.fetch = .ok op) :
    s.step limits = s.perform limits op := by
  obtain ⟨hpc, hd⟩ := Machine.fetch_eq_ok_iff.1 h
  simp only [step, hpc, hd]

theorem step_of_fetch_eq_error {f : Fault} (h : s.machine.fetch = .error f) :
    s.step limits = (s, .error f) := by
  unfold Machine.fetch at h
  unfold step
  cases hpc : pcFault? s.machine.pc with
  | some g =>
    rw [hpc] at h
    cases h
    rfl
  | none =>
    rw [hpc] at h
    cases hd : Op.decode (s.machine.mem.word (.ofNat 17 s.machine.pc)) with
    | error e =>
      dsimp only at h
      rw [hd] at h
      cases h
      rfl
    | ok op =>
      dsimp only at h
      rw [hd] at h
      cases h

theorem exists_fetch_of_step {flow : Flow} (h : s.step limits = (t, .ok flow)) :
    ∃ op, s.machine.fetch = .ok op ∧ s.perform limits op = (t, .ok flow) := by
  cases hf : s.machine.fetch with
  | ok op => exact ⟨op, rfl, (step_of_fetch_eq_ok hf).symm.trans h⟩
  | error f =>
    rw [step_of_fetch_eq_error hf] at h
    cases h

theorem steps_step (limits : Limits) (s : Session) :
    (s.step limits).1.counters.steps = s.counters.steps :=
  (evolves_step limits s).steps

/-- The session carries out `op` as a counted step and goes on as `t`. -/
structure Completes (limits : Limits) (s : Session) (op : Op) (t : Session) : Prop where
  fetch : s.machine.fetch = .ok op
  step : s.addStep.step limits = (t, .ok .next)

theorem Completes.perform (h : Completes limits s op t) :
    s.addStep.perform limits op = (t, .ok .next) :=
  (step_of_fetch_eq_ok (s := s.addStep) h.fetch).symm.trans h.step

theorem Completes.steps (h : Completes limits s op t) :
    t.counters.steps = s.counters.steps + 1 := by
  have same := steps_step limits s.addStep
  rwa [h.step] at same

theorem exists_completes (h : s.addStep.step limits = (t, .ok .next)) :
    ∃ op, Completes limits s op t :=
  have ⟨op, hf, _⟩ := exists_fetch_of_step h
  ⟨op, hf, h⟩

/-- The session carries out several instructions as counted steps, and then is another. -/
inductive Passes (limits : Limits) : Session → List Op → Session → Prop
  | nil (s : Session) : Passes limits s [] s
  | cons {s t u : Session} {op : Op} {ops : List Op} (h : Completes limits s op t)
      (rest : Passes limits t ops u) : Passes limits s (op :: ops) u

theorem Passes.steps (h : Passes limits s ops u) :
    u.counters.steps = s.counters.steps + ops.length := by
  induction h with
  | nil => rfl
  | cons first _ ih =>
    rw [ih, first.steps, List.length_cons]
    omega

/-- Instructions that were carried out are no part of what is left to do. -/
theorem Passes.runSteps_eq (h : Passes limits s ops u) (n : Nat) :
    runSteps limits (ops.length + n) s = runSteps limits n u := by
  induction h with
  | nil => rw [List.length_nil, Nat.zero_add]
  | cons first _ ih =>
    rw [← ih, List.length_cons, Nat.add_right_comm, runSteps, first.step]

/-- In front of every step the counted steps are compared with the limit.  So what is left to do is
always their distance from it. -/
theorem runSteps_loop (limits : Limits) (s : Session) :
    runSteps limits (limits.maxSteps - s.counters.steps) s =
      if limits.maxSteps ≤ s.counters.steps then
        (s, .error ⟨some s.machine.pc, .stepLimit limits.maxSteps⟩)
      else
        match s.addStep.step limits with
        | (t, .ok .next) => runSteps limits (limits.maxSteps - t.counters.steps) t
        | (t, .ok .halt) => (t, .ok ())
        | (t, .error f) => (t, .error ⟨some t.machine.pc, f⟩) := by
  split
  next reached => rw [Nat.sub_eq_zero_of_le reached, runSteps]
  next left =>
    obtain ⟨n, hn⟩ := Nat.exists_eq_add_one_of_ne_zero (Nat.sub_ne_zero_of_lt (Nat.not_le.1 left))
    rw [hn, runSteps]
    cases h : s.addStep.step limits with
    | mk t result =>
      cases result with
      | error f => rfl
      | ok flow =>
        cases flow with
        | halt => rfl
        | next =>
          obtain ⟨op, first⟩ := exists_completes h
          dsimp only
          rw [first.steps, ← Nat.sub_sub, hn, Nat.add_sub_cancel]

/-! ### Ends -/

/-- How a run with up to `n` steps left ends at a session that does not go on. -/
inductive Ends (limits : Limits) (s : Session) :
    Nat → Session × Except LocatedFault Unit → Prop
  | limit : Ends limits s 0 (s, .error ⟨some s.machine.pc, .stepLimit limits.maxSteps⟩)
  | halt {n : Nat} {t : Session} (h : s.addStep.step limits = (t, .ok .halt)) :
      Ends limits s (n + 1) (t, .ok ())
  | fault {n : Nat} {t : Session} {f : Fault} (h : s.addStep.step limits = (t, .error f)) :
      Ends limits s (n + 1) (t, .error ⟨some t.machine.pc, f⟩)

theorem exists_ends_runSteps (limits : Limits) (n : Nat) (s : Session) :
    ∃ ops u, ops.length ≤ n ∧ Passes limits s ops u ∧
      Ends limits u (n - ops.length) (runSteps limits n s) := by
  induction n generalizing s with
  | zero => exact ⟨[], s, Nat.le_refl 0, .nil s, .limit⟩
  | succ n ih =>
    rw [runSteps]
    split
    next t h =>
      obtain ⟨op, first⟩ := exists_completes h
      obtain ⟨ops, u, hn, rest, ends⟩ := ih t
      refine ⟨op :: ops, u, Nat.succ_le_succ hn, .cons first rest, ?_⟩
      rwa [List.length_cons, Nat.add_sub_add_right]
    next t h => exact ⟨[], s, Nat.zero_le _, .nil s, .halt h⟩
    next t f h => exact ⟨[], s, Nat.zero_le _, .nil s, .fault h⟩

/-! ### Runs -/

theorem changes_step (limits : Limits) (s : Session) :
    ReflTransGen Machine.Change s.machine (s.addStep.step limits).1.machine :=
  (evolves_step limits s.addStep).changes

theorem changes_runSteps (limits : Limits) (n : Nat) (s : Session) :
    ReflTransGen Machine.Change s.machine (runSteps limits n s).1.machine := by
  induction n generalizing s with
  | zero => exact .refl
  | succ n ih =>
    have changes := changes_step limits s
    rw [runSteps]
    split
    next h =>
      rw [h] at changes
      exact changes.trans (ih _)
    next h =>
      rw [h] at changes
      exact changes
    next h =>
      rw [h] at changes
      exact changes

theorem Passes.changes (h : Passes limits s ops u) :
    ReflTransGen Machine.Change s.machine u.machine := by
  induction h with
  | nil => exact .refl
  | @cons s t _ _ _ first _ ih =>
    have changes := changes_step limits s
    rw [first.step] at changes
    exact changes.trans ih

/-- A run, however it ends, comes down to changes of the machine. -/
theorem changes_run (limits : Limits) (start : Nat) (s : Session) :
    ReflTransGen Machine.Change s.machine (s.run limits start).1.machine := by
  unfold run
  split
  · exact .refl
  next h =>
    exact .head (.jump ((pcFault?_eq_none_iff start).1 h).1) (changes_runSteps _ _ (s.jump start))

/-- The run of `s` from `start` carries out `ops`, and then is at `u`. -/
structure Reaches (limits : Limits) (start : Nat) (s : Session) (ops : List Op) (u : Session) :
    Prop where
  valid : pcFault? start = none
  length_le : ops.length ≤ limits.maxSteps - s.counters.steps
  passes : Passes limits (s.jump start) ops u

theorem Reaches.steps (h : Reaches limits start s ops u) :
    u.counters.steps = s.counters.steps + ops.length :=
  h.passes.steps

/-- A run goes on from a session that it reaches as if it had begun there. -/
theorem Reaches.run_eq (h : Reaches limits start s ops u) :
    s.run limits start = runSteps limits (limits.maxSteps - u.counters.steps) u := by
  have left : limits.maxSteps - s.counters.steps =
      ops.length + (limits.maxSteps - u.counters.steps) := by
    have := h.length_le
    rw [h.steps]
    omega
  rw [run, h.valid]
  dsimp only
  rw [left, h.passes.runSteps_eq]

/-- A run ends where no instruction can be fetched. -/
theorem Reaches.run_eq_of_fetch (h : Reaches limits start s ops u)
    (short : u.counters.steps < limits.maxSteps) {f : Fault} (hf : u.machine.fetch = .error f) :
    s.run limits start = (u.addStep, .error ⟨some u.machine.pc, f⟩) := by
  rw [h.run_eq, runSteps_loop, if_neg (Nat.not_le.2 short),
    step_of_fetch_eq_error (s := u.addStep) hf]
  rfl

theorem run_of_pcFault? {f : Fault} (h : pcFault? start = some f) :
    s.run limits start = (s, .error ⟨none, f⟩) := by
  rw [run, h]

/-- Every run that begins reaches a session at which it ends. -/
theorem exists_ends_run (limits : Limits) (s : Session) (h : pcFault? start = none) :
    ∃ ops u, Reaches limits start s ops u ∧
      Ends limits u (limits.maxSteps - u.counters.steps) (s.run limits start) := by
  obtain ⟨ops, u, hn, passes, ends⟩ :=
    exists_ends_runSteps limits (limits.maxSteps - s.counters.steps) (s.jump start)
  have reached : Reaches limits start s ops u := ⟨h, hn, passes⟩
  refine ⟨ops, u, reached, ?_⟩
  rw [reached.steps, ← Nat.sub_sub, run, h]
  exact ends

end Session

end Macc
