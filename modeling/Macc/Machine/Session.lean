import Macc.Machine.Datapath

/-!
# Sessions

A `Session` is a machine together with what is kept about its use: the counters and the trace.
Every action of a session gives the session afterwards and its outcome, so what happened before a
fault is not lost.  `record` writes a trace line, and `exec` carries out one instruction of the
datapath.
-/

namespace Macc

/-- The cycles, reductions and steps of the sequencer so far.  They have 64 bits each, and
`Session.fits_run` says how many steps of a run these are enough for. -/
structure Counters where
  cycles : Nat := 0
  ops : Nat := 0
  steps : Nat := 0
  deriving DecidableEq, Repr

/-- The bounds on the counted steps and on the call stack. -/
structure Limits where
  maxSteps : Nat := 100000000
  maxDepth : Nat := 1024
  deriving DecidableEq, Repr

/-- A machine with its counters and, if one is kept, its trace. -/
structure Session where
  machine : Machine := {}
  counters : Counters := {}
  trace : Option Trace := none

def Op.isReduction : Op → Bool
  | macc _ _ _ => true
  | _ => false

namespace Session

/-! ### Counting -/

def addCycles (s : Session) (n : Nat) : Session :=
  { s with counters := { s.counters with cycles := s.counters.cycles + n } }

def addOp (s : Session) : Session :=
  { s with counters := { s.counters with ops := s.counters.ops + 1 } }

def addStep (s : Session) : Session :=
  { s with counters := { s.counters with steps := s.counters.steps + 1 } }

/-! ### Tracing -/

/-- The trace cannot take the line. -/
def refuses (s : Session) (l : TraceLine) : Bool :=
  match s.trace with
  | none => false
  | some t => !t.hasRoomFor l

/-- Write a trace line, if a trace is kept. -/
def record (s : Session) (op : Op) (effect : Effect) : Session × Except Fault Unit :=
  if s.refuses ⟨op, effect⟩ then (s, .error .trace)
  else ({ s with trace := s.trace.map (·.push ⟨op, effect⟩) }, .ok ())

theorem record_of_trace_eq_none {s : Session} (h : s.trace = none) (op : Op) (effect : Effect) :
    s.record op effect = (s, .ok ()) := by
  obtain ⟨_, _, _⟩ := s
  subst h
  rfl

theorem machine_record (s : Session) (op : Op) (effect : Effect) :
    (s.record op effect).1.machine = s.machine := by
  unfold record
  split <;> rfl

theorem counters_record (s : Session) (op : Op) (effect : Effect) :
    (s.record op effect).1.counters = s.counters := by
  unfold record
  split <;> rfl

/-! ### Instructions of the datapath -/

/-- Carry out an instruction of the datapath.  It takes one cycle, even when it faults. -/
def exec (s : Session) (op : Op) : Session × Except Fault Unit :=
  let ⟨machine, counters, trace⟩ := s.addCycles 1
  match machine.apply op with
  | (machine, .error f) => (⟨machine, counters, trace⟩, .error f)
  | (machine, .ok effect) =>
    let s : Session := ⟨machine, counters, trace⟩
    (if op.isReduction then s.addOp else s).record op effect

end Session

end Macc
