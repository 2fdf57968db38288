import Macc.Proofs.Machine.CallStack

/-!
# Straight lines of instructions

An instruction of the datapath and a load that is not repeated go on to the instruction behind them.
`Machine.Line` relates a machine to what such instructions, one after another, make of it.  Unless a
trace stops it, a session passes through the line (`Session.exists_passes_of_line`), and a program
with a return behind the line halts with what the line has made (`Session.exists_run_of_line`,
`Image.run_of_line`).
-/

namespace Macc

theorem repeats?_of_decode {w : Word} {op : Op} (h : Op.decode w = .ok op)
    (single : ∀ len, op ≠ .continueLoad len) : repeats? w = .ok none := by
  unfold repeats?
  split
  · rfl
  · rw [h]
    split
    next e => cases e
    next len e => exact absurd (Except.ok.inj e) (single len)
    next => rfl

namespace Machine

variable {m n k : Machine} {op : Op} {ops : List Op} {effect : Effect}

/-- The machine at the next instruction. -/
def advance (m : Machine) : Machine := { m with pc := m.pc + 4 }

/-- Instructions that the machine carries out one behind the other. -/
inductive Line : Machine → List Op → Machine → Prop
  | nil (m : Machine) : Line m [] m
  | apply {m n k : Machine} {op : Op} {ops : List Op} {effect : Effect} (fetch : m.fetch = .ok op)
      (applied : m.apply op = (n, .ok effect)) (rest : Line n.advance ops k) :
      Line m (op :: ops) k
  | load {m k : Machine} {cache : Cache} {src slot : Word} {ops : List Op}
      (fetch : m.fetch = .ok (.load cache src slot)) (alone : m.lookAhead = .ok none)
      (rest : Line (m.load cache (src.setWidth 17) (slot.setWidth 9)).advance ops k) :
      Line m (.load cache src slot :: ops) k

/-- A load in front of another instruction is not repeated. -/
theorem lookAhead_of_fetch (h : m.advance.fetch = .ok op)
    (single : ∀ len, op ≠ .continueLoad len) : m.lookAhead = .ok none :=
  repeats?_of_decode (fetch_eq_ok_iff.1 h).2 single

theorem Line.stack (h : m.Line ops n) : n.stack = m.stack := by
  induction h with
  | nil => rfl
  | @apply m n k op ops effect _ applied _ ih =>
    have same := m.sameControl_apply op
    rw [applied] at same
    exact ih.trans same.stack
  | load _ _ _ ih => exact ih.trans (stack_load ..)

end Machine

namespace Session

variable (limits : Limits) {s : Session} {n : Machine} {op : Op} {ops : List Op} {effect : Effect}

/-! ### Single instructions -/

theorem perform_of_apply (h : s.machine.apply op = (n, .ok effect)) :
    s.perform limits op = thenSkip 4 (s.exec op) := by
  cases op with
  | sync | call | ret | execute | load | continueLoad => cases congrArg Prod.snd h
  | _ => rfl

theorem exec_of_apply (hs : s.TraceUnbounded) (h : s.machine.apply op = (n, .ok effect)) :
    (s.exec op).2 = .ok () := by
  rcases s.exec_cases op with ⟨f, happly, -⟩ | ⟨m, effect, happly, hexec⟩
  · cases congrArg Prod.snd (h.symm.trans happly)
  · rw [hexec]
    dsimp only
    rw [record_of_traceUnbounded]
    split <;> exact hs

/-- An instruction that the datapath carries out is a step. -/
theorem exists_completes_of_apply (hs : s.TraceUnbounded) (fetch : s.machine.fetch = .ok op)
    (h : s.machine.apply op = (n, .ok effect)) :
    ∃ t, Completes limits s op t ∧ t.machine = n.advance := by
  have succeeds := exec_of_apply (s := s.addStep) hs h
  have machine := s.addStep.machine_exec op
  rw [show s.addStep.machine.apply op = _ from h] at machine
  have step := (step_of_fetch_eq_ok (s := s.addStep) fetch).trans
    (perform_of_apply limits h)
  generalize s.addStep.exec op = x at succeeds machine step
  obtain ⟨t, result⟩ := x
  obtain rfl : result = .ok () := succeeds
  obtain rfl : t.machine = n := machine
  exact ⟨_, ⟨fetch, step⟩, rfl⟩

/-- A load that is not repeated is a step. -/
theorem exists_completes_of_load {cache : Cache} {src slot : Word} (hs : s.TraceUnbounded)
    (fetch : s.machine.fetch = .ok (.load cache src slot))
    (alone : s.machine.lookAhead = .ok none) :
    ∃ t, Completes limits s (.load cache src slot) t ∧
      t.machine = (s.machine.load cache (src.setWidth 17) (slot.setWidth 9)).advance := by
  have load := s.addStep.load_eq cache src slot
  rw [show s.addStep.machine.lookAhead = _ from alone] at load
  dsimp only at load
  rw [record_of_traceUnbounded (s := s.addStep.loadOne cache src slot) hs] at load
  exact ⟨_, ⟨fetch, (step_of_fetch_eq_ok (s := s.addStep) fetch).trans load⟩, rfl⟩

/-! ### Lines of sessions -/

variable {limits} in
theorem Completes.traceUnbounded {t : Session} (h : Completes limits s op t)
    (hs : s.TraceUnbounded) : t.TraceUnbounded :=
  (Passes.cons h (.nil t)).traceUnbounded hs

/-- A session passes through a line. -/
theorem exists_passes_of_line (hs : s.TraceUnbounded) (h : s.machine.Line ops n) :
    ∃ t, Passes limits s ops t ∧ t.machine = n := by
  generalize hm : s.machine = m at h
  induction h generalizing s with
  | nil => exact ⟨s, .nil s, hm⟩
  | apply fetch applied _ ih =>
    subst hm
    obtain ⟨t, first, machine⟩ := exists_completes_of_apply limits hs fetch applied
    obtain ⟨u, rest, last⟩ := ih (first.traceUnbounded hs) machine
    exact ⟨u, .cons first rest, last⟩
  | load fetch alone _ ih =>
    subst hm
    obtain ⟨t, first, machine⟩ := exists_completes_of_load limits hs fetch alone
    obtain ⟨u, rest, last⟩ := ih (first.traceUnbounded hs) machine
    exact ⟨u, .cons first rest, last⟩

/-- A program with a return behind a line halts, if no call is open and there are steps left. -/
theorem exists_run_of_line {start : Nat} (hs : s.TraceUnbounded) (valid : pcFault? start = none)
    (h : (s.jump start).machine.Line ops n) (stop : n.fetch = .ok .ret)
    (closed : s.machine.stack = #[]) (short : s.counters.steps + ops.length < limits.maxSteps) :
    ∃ t, s.run limits start = (t, .ok ()) ∧ t.machine = n := by
  obtain ⟨u, passes, rfl⟩ := exists_passes_of_line (s := s.jump start) limits hs h
  have reaches : Reaches limits start s ops u := ⟨valid, by omega, passes⟩
  have halts : HaltsAt limits start s ops u :=
    ⟨reaches, reaches.steps ▸ short, stop, h.stack.trans closed⟩
  exact ⟨_, halts.run_eq hs, rfl⟩

end Session

namespace Image

/-- The instructions lie in memory from address zero on. -/
structure Holds (mem : Image) (ops : List Op) : Prop where
  word : ∀ i op, ops[i]? = some op → mem.word (.ofNat 17 (4 * i)) = op.encode
  fits : ∀ op ∈ ops, op.Fits
  length_le : 4 * ops.length ≤ memorySize

/-- A machine fetches an instruction of the program if its memory still holds it. -/
theorem Holds.fetch {mem : Image} {ops : List Op} (h : mem.Holds ops) {m : Machine} {i : Nat}
    {op : Op} (hi : ops[i]? = some op) (pc : m.pc = 4 * i)
    (same : m.mem.word (.ofNat 17 (4 * i)) = mem.word (.ofNat 17 (4 * i))) :
    m.fetch = .ok op := by
  have inside := (List.getElem?_eq_some_iff.1 hi).1
  have le := h.length_le
  rw [Machine.fetch_eq_ok_iff, pcFault?_eq_none_iff, pc, same, h.word i op hi]
  exact ⟨⟨by omega, by omega⟩, op.decode_encode_eq_self_iff.2 (h.fits op (List.mem_of_getElem? hi))⟩

/-- What a line with a return behind it leaves in memory. -/
theorem run_of_line {mem : Image} {start : Nat} {ops : List Op} {n : Machine}
    (valid : pcFault? start = none) (h : Machine.Line { mem, pc := start } ops n)
    (stop : n.fetch = .ok .ret) (short : ops.length < ({} : Limits).maxSteps) :
    mem.run start = .ok n.mem := by
  let fresh : Session := { machine := { mem } }
  have room : fresh.counters.steps + ops.length < ({} : Limits).maxSteps := by
    rw [show fresh.counters.steps = 0 from rfl]
    omega
  have untraced : fresh.TraceUnbounded := fun _ ht => by cases ht
  obtain ⟨t, run, rfl⟩ := Session.exists_run_of_line {} untraced valid h stop rfl room
  rw [Image.run, run]

end Image

end Macc
