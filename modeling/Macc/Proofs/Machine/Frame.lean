import Macc.Proofs.Image.WordAccess
import Macc.Proofs.Machine.Faults
import Mathlib.Algebra.Ring.Parity

/-!
# Frames of the datapath

An instruction of the datapath names the base register and the accumulator lanes that it changes
(`Op.base?`, `Op.accLanes?`), and in a machine it has addresses that it writes (`Machine.Writes`).
When it is carried out, it leaves everything else as it was (`Machine.Frame`).  A shift that is too
large or an address that is odd keeps it from being carried out (`Machine.Impossible`), and then
nothing is changed at all.  `Session.exec_frame` puts this together for a session.
-/

namespace Macc

/-- The base register that an instruction changes. -/
def Op.base? : Op → Option Base
  | setBase b _ | addBase b _ => some b
  | _ => none

/-- The accumulator lanes that an instruction changes. -/
def Op.accLanes? : Op → Option Lanes
  | fetch _ lanes _ => some lanes
  | macc _ _ _ => some .both
  | _ => none

/-! ### Machines -/

namespace Machine

variable {m n : Machine} {op : Op} {effect : Effect}

/-- An instruction writes a byte at an address: a store one byte for each of its lanes, and a save
one word. -/
def Writes (m : Machine) (op : Op) (x : Address) : Prop :=
  match op with
  | .store lanes _ addr _ =>
    let ea := m.sbp + addr.setWidth 17
    (lanes.has0 ∧ x = ea) ∨ (lanes.has1 ∧ x = ea + 1)
  | .save lanes addr =>
    let ea := m.sbp + addr.setWidth 17
    (lanes.has0 ∧ Image.InWord ea x) ∨ (lanes.has1 ∧ Image.InWord (ea + 4) x)
  | _ => False

/-- The second machine is the first but for what the instruction is there to change. -/
structure Frame (op : Op) (m n : Machine) : Prop where
  control : m.SameControl n
  base : ∀ b, op.base? ≠ some b → n.base b = m.base b
  acc0 : (∀ lanes ∈ op.accLanes?, lanes.has0 = false) → n.acc0 = m.acc0
  acc1 : (∀ lanes ∈ op.accLanes?, lanes.has1 = false) → n.acc1 = m.acc1
  mem : m.mem.WrittenAt (m.Writes op) n.mem

/-- The datapath cannot carry out the instruction: it is the sequencer's, its shift is too large, or
its address is odd. -/
def Impossible (m : Machine) (op : Op) : Prop :=
  match op with
  | .setBase _ _ | .addBase _ _ => False
  | .store _ _ _ shift => 32 ≤ shift.toNat
  | .save _ addr => Odd (m.sbp + addr.setWidth 17).toNat
  | .fetch _ _ addr => Odd (m.lbp + addr.setWidth 17).toNat
  | .macc _ addr _ => Odd (m.vbp + addr.setWidth 17).toNat
  | op => op.opcode.isSequencer

theorem getLsbD_zero_iff (a : Address) : a.getLsbD 0 ↔ Odd a.toNat := by
  rw [BitVec.getLsbD, Nat.testBit_zero, decide_eq_true_iff, Nat.odd_iff]

/-- An instruction with a precondition faults exactly if the precondition fails. -/
theorem exists_error_guarded_iff {c : Prop} [Decidable c] {f : Fault} :
    (∃ g, (if c then (m, .error f) else (n, .ok effect) : Machine × Except Fault Effect).2 =
      .error g) ↔ c := by
  by_cases h : c
  · rw [if_pos h]
    exact iff_of_true ⟨f, rfl⟩ h
  · rw [if_neg h]
    exact iff_of_false (fun ⟨_, hg⟩ => nomatch hg) h

theorem impossible_iff (m : Machine) (op : Op) :
    m.Impossible op ↔ ∃ f, (m.apply op).2 = .error f := by
  cases op with
  | setBase | addBase => exact iff_of_false id fun ⟨_, h⟩ => nomatch h
  | store lanes relu addr shift =>
    exact (exists_error_guarded_iff (c := 32 ≤ shift.toNat)).symm
  | save | fetch | macc => exact (getLsbD_zero_iff _).symm.trans exists_error_guarded_iff.symm
  | load cache => exact iff_of_true (by cases cache <;> rfl) ⟨_, rfl⟩
  | _ => exact iff_of_true rfl ⟨_, rfl⟩

theorem ne_trace_of_apply {f : Fault} (h : (m.apply op).2 = .error f) : f ≠ .trace := by
  revert h
  fun_cases apply m op <;> simp <;> rintro rfl <;> exact Fault.noConfusion

/-- What an instruction with a precondition that is carried out makes of the machine. -/
theorem eq_of_guarded {c : Prop} [Decidable c] {f : Fault} {k : Machine} {e : Effect}
    (h : (if c then (m, .error f) else (k, .ok e) : Machine × Except Fault Effect) =
      (n, .ok effect)) : n = k := by
  split at h <;> cases h
  rfl

theorem withMem_ite (c : Bool) (m : Machine) (mem : Image) :
    (if c then { m with mem } else m) = { m with mem := if c then mem else m.mem } := by
  cases c <;> rfl

theorem frame_setBase {b : Base} (hb : op.base? = some b) (writes : m.Writes op = fun _ => False)
    (v : Word) : m.Frame op (m.setBase b v) where
  control := by cases b <;> exact ⟨rfl, rfl, rfl, rfl, rfl⟩
  base b' hb' := m.base_setBase_of_ne (fun same : b' = b => hb' (same ▸ hb)) v
  acc0 _ := by cases b <;> rfl
  acc1 _ := by cases b <;> rfl
  mem := by
    rw [writes]
    cases b <;> exact .nowhere _

theorem frame_withMem {mem : Image} (h : m.mem.WrittenAt (m.Writes op) mem) :
    m.Frame op { m with mem } :=
  ⟨⟨rfl, rfl, rfl, rfl, rfl⟩, fun b _ => by cases b <;> rfl, fun _ => rfl, fun _ => rfl, h⟩

/-- An instruction that is carried out leaves everything alone that it is not there to change. -/
theorem frame_apply (h : m.apply op = (n, .ok effect)) : m.Frame op n := by
  cases op with
  | setBase b v =>
    cases h
    exact frame_setBase rfl rfl v
  | addBase b v =>
    cases h
    exact frame_setBase rfl rfl (m.base b + v)
  | store lanes relu addr shift =>
    obtain rfl := eq_of_guarded (c := 32 ≤ shift.toNat) h
    rw [withMem_ite, withMem_ite]
    exact frame_withMem ((Image.writtenAt_setByte _ _ _).ite lanes.has0 |>.trans
      ((Image.writtenAt_setByte _ _ _).ite lanes.has1))
  | save lanes addr =>
    obtain rfl := eq_of_guarded h
    rw [withMem_ite, withMem_ite]
    exact frame_withMem ((Image.writtenAt_setWord _ _ _).ite lanes.has0 |>.trans
      ((Image.writtenAt_setWord _ _ _).ite lanes.has1))
  | fetch combine lanes addr =>
    obtain rfl := eq_of_guarded h
    exact ⟨⟨rfl, rfl, rfl, rfl, rfl⟩, fun b _ => by cases b <;> rfl,
      fun spared => if_neg (Bool.eq_false_iff.1 (spared lanes rfl)),
      fun spared => if_neg (Bool.eq_false_iff.1 (spared lanes rfl)), .nowhere _⟩
  | macc reduce addr slot =>
    obtain rfl := eq_of_guarded h
    exact ⟨⟨rfl, rfl, rfl, rfl, rfl⟩, fun b _ => by cases b <;> rfl,
      fun spared => Bool.noConfusion (spared .both rfl),
      fun spared => Bool.noConfusion (spared .both rfl), .nowhere _⟩
  | _ => cases h

end Machine

/-! ### Sessions -/

namespace Session

variable {s : Session} {m : Machine} {op : Op} {effect : Effect}

theorem exec_of_apply_eq_ok (h : s.machine.apply op = (m, .ok effect)) :
    s.exec op =
      let applied := ({ s with machine := m } : Session).addCycles 1
      (if op.isReduction then applied.addOp else applied).record op effect := by
  simp only [exec, addCycles, h]

theorem exec_of_apply_eq_error {f : Fault} (h : (s.machine.apply op).2 = .error f) :
    s.exec op = (s.addCycles 1, .error f) := by
  rcases s.exec_cases op with ⟨g, happly, hexec⟩ | ⟨m, effect, happly, -⟩ <;> rw [happly] at h <;>
    cases h
  exact hexec

theorem counters_exec (h : s.machine.apply op = (m, .ok effect)) :
    (s.exec op).1.counters = ⟨s.counters.cycles + 1,
      s.counters.ops + if op.isReduction then 1 else 0, s.counters.steps⟩ := by
  rw [exec_of_apply_eq_ok h]
  dsimp only
  rw [counters_record]
  cases op.isReduction <;> rfl

/-- An instruction that is carried out fails at most for its trace line. -/
theorem eq_trace_of_exec {f : Fault} (h : s.machine.apply op = (m, .ok effect))
    (hf : (s.exec op).2 = .error f) : f = .trace := by
  rw [exec_of_apply_eq_ok h] at hf
  exact (record_eq_error (Prod.ext rfl hf)).1

/-- An instruction of the datapath takes one cycle and leaves the program counter, the call stack
and the caches alone.  With a fault other than the trace's that is all that it does, and it comes to
such a fault exactly if it is impossible.  Otherwise, whether its trace line is written or not, it
keeps to its frame and is counted if it is a reduction. -/
theorem exec_frame (s : Session) (op : Op) :
    let t := (s.exec op).1
    s.machine.SameControl t.machine ∧
    t.counters = ⟨s.counters.cycles + 1, t.counters.ops, s.counters.steps⟩ ∧
    (∀ f, (s.exec op).2 = .error f → f ≠ .trace → t = s.addCycles 1) ∧
    ((s.exec op).2 = .ok () ∨ (s.exec op).2 = .error .trace →
      s.machine.Frame op t.machine ∧
      t.counters.ops = s.counters.ops + if op.isReduction then 1 else 0) ∧
    ((∃ f, f ≠ .trace ∧ (s.exec op).2 = .error f) ↔ s.machine.Impossible op) := by
  have machine := s.machine_exec op
  have control : s.machine.SameControl (s.exec op).1.machine :=
    machine ▸ s.machine.sameControl_apply op
  rcases s.exec_cases op with ⟨f, happly, hexec⟩ | ⟨m, effect, happly, -⟩
  · have fault : (s.machine.apply op).2 = .error f := congrArg Prod.snd happly
    have other := Machine.ne_trace_of_apply fault
    rw [hexec] at control ⊢
    refine ⟨control, rfl, fun _ _ _ => rfl, ?_, ?_⟩
    · rintro (h | h)
      · cases h
      · exact absurd (Except.error.inj h) other
    · exact iff_of_true ⟨f, other, rfl⟩ ((Machine.impossible_iff _ _).2 ⟨f, fault⟩)
  · have counters := counters_exec happly
    have possible : ¬ s.machine.Impossible op := by
      rw [Machine.impossible_iff, happly]
      exact fun ⟨_, h⟩ => nomatch h
    rw [happly] at machine
    refine ⟨control, by rw [counters], fun f h other => absurd (eq_trace_of_exec happly h) other,
      fun _ => ⟨machine ▸ Machine.frame_apply happly, by rw [counters]⟩, ?_⟩
    exact iff_of_false (fun ⟨f, other, h⟩ => other (eq_trace_of_exec happly h)) possible

/-- A machine that stores to the last byte of memory and the first. -/
def atLastByte : Session where
  machine := { sbp := 0x1ffff, acc0 := 1, acc1 := 300 }

theorem exec_frame_atLastByte :
    let op : Op := .store .lane1 false 0 0
    let after := (atLastByte.exec op).1.machine
    (∀ x, after.mem.isDefined x ↔ x = 0) ∧ (∀ x, x ≠ 0 → after.mem.byte x = 0) ∧
      after.acc0 = 1 ∧ ∃ f, f ≠ .trace ∧ (atLastByte.exec (.save .lane1 0)).2 = .error f := by
  have frame := ((exec_frame atLastByte (.store .lane1 false 0 0)).2.2.2.1 (.inl rfl)).1
  have odd := (exec_frame atLastByte (.save .lane1 0)).2.2.2.2
  have writes (x : Address) :
      atLastByte.machine.Writes (.store .lane1 false 0 0) x ↔ x = 0 := by
    simp [Machine.Writes, Lanes.has0, Lanes.has1, atLastByte]
  refine ⟨fun x => ?_, fun x hx => ?_, frame.acc0 (by simp [Op.accLanes?]),
    odd.2 (Nat.odd_iff.2 rfl)⟩
  · rw [frame.mem.isDefined, writes, or_iff_left]
    exact Bool.eq_false_iff.1 (Image.isDefined_empty x)
  · rw [frame.mem.byte x fun h => hx ((writes x).1 h)]
    exact Image.byte_empty x

end Session

end Macc
