import Macc.Proofs.Machine.Frame
import Macc.Proofs.Machine.Likeness

/-!
# Instructions from the code cache

Instructions of the datapath come to the same whether an execute carries them out from the code
cache or the sequencer fetches them from memory one by one: the datapath knows neither the program
counter nor the number of steps (`Session.exec_moved`), and the two ways differ in nothing else.
They have to be the same instructions (`Machine.Copied`), and stay so while they are carried out,
because memory can change under the sequencer (`Machine.Spares`).  `Session.execute_inline` follows
both ways to the end or to the same fault.
-/

namespace Macc

namespace Machine

variable {m n : Machine} {op : Op} {ops : List Op} {effect : Effect} {slot : Slot} {q : Nat}

theorem fetchSlot_eq_ok_iff :
    m.fetchSlot slot = .ok op ↔
      Op.decode (m.code.get slot.toFin) = .ok op ∧ op.opcode.isSequencer = false := by
  unfold fetchSlot
  split
  next e undecoded => simp [undecoded]
  next op' decoded =>
    rw [decoded, Except.ok.injEq]
    split
    next sequencer =>
      refine iff_of_false (fun h => nomatch h) ?_
      rintro ⟨rfl, datapath⟩
      exact absurd sequencer (Bool.eq_false_iff.1 datapath)
    next datapath =>
      rw [Except.ok.injEq]
      refine (and_iff_left_of_imp ?_).symm
      rintro rfl
      exact Bool.eq_false_iff.2 datapath

/-- The datapath does not know the program counter. -/
theorem apply_withPc (m : Machine) (op : Op) (pc : Nat) :
    ({ m with pc } : Machine).apply op = ({ (m.apply op).1 with pc }, (m.apply op).2) := by
  cases op with
  | setBase b | addBase b => cases b <;> rfl
  | store lanes | save lanes =>
    dsimp only [apply]
    split
    · rfl
    · cases lanes <;> rfl
  | fetch | macc =>
    dsimp only [apply]
    split <;> rfl
  | _ => rfl

/-- The words in the code cache from an entry on are instructions of the datapath, and the words in
memory from an address on are the same. -/
structure Copied (m : Machine) (slot : Slot) (q : Nat) (ops : List Op) : Prop where
  fetchSlot : ∀ i (h : i < ops.length), m.fetchSlot (slot + .ofNat 9 i) = .ok ops[i]
  word : ∀ i, i < ops.length →
    m.mem.word (.ofNat 17 (q + 4 * i)) = m.code.get (slot + .ofNat 9 i).toFin

/-- Carried out one behind the other, up to the first fault, the instructions write no address from
`a` on below `b`. -/
def Spares (m : Machine) (a b : Nat) : List Op → Prop
  | [] => True
  | op :: ops =>
    match m.apply op with
    | (n, .ok _) => (∀ x, m.Writes op x → ¬ (a ≤ x.toNat ∧ x.toNat < b)) ∧ n.Spares a b ops
    | (_, .error _) => True

theorem Spares.mono {a b a' b' : Nat} (ha : a ≤ a') (hb : b' ≤ b) (h : m.Spares a b ops) :
    m.Spares a' b' ops := by
  induction ops generalizing m with
  | nil => trivial
  | cons op ops ih =>
    rw [Spares] at h ⊢
    split
    next n effect applied =>
      rw [applied] at h
      exact ⟨fun x writes inside => h.1 x writes ⟨by omega, by omega⟩, ih h.2⟩
    next => trivial

theorem Spares.cons {a b : Nat} (applied : m.apply op = (n, .ok effect))
    (h : m.Spares a b (op :: ops)) :
    (∀ x, m.Writes op x → ¬ (a ≤ x.toNat ∧ x.toNat < b)) ∧ n.Spares a b ops := by
  rwa [Spares, applied] at h

/-- The sequencer fetches the first of the instructions from memory. -/
theorem Copied.fetch (h : m.Copied slot q (op :: ops)) (aligned : q % 4 = 0)
    (inside : q + 4 * (op :: ops).length ≤ memorySize) (pc : m.pc = q) : m.fetch = .ok op := by
  have first := h.fetchSlot 0 (Nat.succ_pos _)
  have same := h.word 0 (Nat.succ_pos _)
  rw [List.length_cons] at inside
  rw [fetch_eq_ok_iff, pcFault?_eq_none_iff, pc]
  refine ⟨⟨by omega, aligned⟩, ?_⟩
  exact (congrArg Op.decode same).trans (fetchSlot_eq_ok_iff.1 first).1

/-- The rest of the instructions is left as it is by the first. -/
theorem Copied.tail (h : m.Copied slot q (op :: ops))
    (inside : q + 4 * (op :: ops).length ≤ memorySize) (applied : m.apply op = (n, .ok effect))
    (spared : ∀ x, m.Writes op x → ¬ (q ≤ x.toNat ∧ x.toNat < q + 4 * (op :: ops).length)) :
    n.Copied (slot + 1) (q + 4) ops := by
  have frame := frame_apply applied
  rw [List.length_cons] at inside spared
  refine ⟨fun i hi => ?_, fun i hi => ?_⟩
  · rw [slot_succ, frame.control.fetchSlot]
    exact h.fetchSlot (i + 1) (Nat.succ_lt_succ hi)
  · have unchanged : n.mem.word (.ofNat 17 (q + 4 + 4 * i)) =
        m.mem.word (.ofNat 17 (q + 4 + 4 * i)) := by
      refine Image.word_congr fun k hk => frame.mem.byte _ fun writes => spared _ writes ?_
      rw [Image.toNat_ofNat_add (by omega) hk]
      omega
    rw [unchanged, slot_succ, frame.control.code, ← h.word (i + 1) (Nat.succ_lt_succ hi)]
    congr 2
    omega

end Machine

namespace Session

variable (limits : Limits) {s t : Session} {op : Op} {ops : List Op} {slot : Slot} {q : Nat}

/-! ### Sessions at another place -/

/-- The session with another program counter and another number of steps. -/
def moved (s : Session) (pc steps : Nat) : Session :=
  { s with machine := { s.machine with pc }, counters := { s.counters with steps } }

theorem record_moved (s : Session) (pc steps : Nat) (op : Op) (effect : Effect) :
    (s.moved pc steps).record op effect =
      ((s.record op effect).1.moved pc steps, (s.record op effect).2) := by
  have same : (s.moved pc steps).refuses ⟨op, effect⟩ = s.refuses ⟨op, effect⟩ := rfl
  rw [record, record, same]
  split <;> rfl

/-- The datapath works in the same way wherever the program counter is. -/
theorem exec_moved (s : Session) (pc steps : Nat) (op : Op) :
    (s.moved pc steps).exec op = ((s.exec op).1.moved pc steps, (s.exec op).2) := by
  have applied := s.machine.apply_withPc op pc
  rcases s.exec_cases op with ⟨f, happly, hexec⟩ | ⟨m, effect, happly, hexec⟩
  · rw [happly] at applied
    rw [hexec, exec_of_apply_eq_error (congrArg Prod.snd applied)]
    rfl
  · rw [happly] at applied
    rw [hexec, exec_of_apply_eq_ok applied]
    let t := ({ s with machine := m } : Session).addCycles 1
    cases op.isReduction with
    | true => exact record_moved t.addOp pc steps op effect
    | false => exact record_moved t pc steps op effect

/-! ### Without a trace -/

/-- Without a trace, an instruction fails only if the datapath cannot carry it out. -/
theorem exec_cases_of_untraced (untraced : s.trace = none) (op : Op) :
    (∃ f, (s.machine.apply op).2 = .error f ∧ s.exec op = (s.addCycles 1, .error f)) ∨
      ∃ t effect, s.machine.apply op = (t.machine, .ok effect) ∧ s.exec op = (t, .ok ()) ∧
        t.trace = none ∧ t.counters.cycles = s.counters.cycles + 1 := by
  rcases s.exec_cases op with ⟨f, happly, hexec⟩ | ⟨m, effect, happly, hexec⟩
  · exact .inl ⟨f, congrArg Prod.snd happly, hexec⟩
  · refine .inr ?_
    dsimp only at hexec
    rw [record_of_trace_eq_none (by split <;> exact untraced)] at hexec
    refine ⟨_, effect, ?_, hexec, ?_, ?_⟩
    · rw [happly]
      split <;> rfl
    · split <;> exact untraced
    · split <;> rfl

theorem perform_of_datapath (datapath : op.opcode.isSequencer = false) :
    s.perform limits op = thenSkip 4 (s.exec op) := by
  cases op with
  | load cache => cases cache <;> cases datapath
  | sync | call | ret | execute | continueLoad => cases datapath
  | _ => rfl

/-! ### Both ways -/

/-- The session completes some instructions and faults at the one behind them. -/
def FaultsBehind (s : Session) (ops : List Op) (f : Fault) (t : Session) : Prop :=
  ∃ u, Passes limits s ops u ∧ u.addStep.step limits = (t, .error f)

variable {limits} in
theorem FaultsBehind.cons {f : Fault} {u : Session} (first : Completes limits s op t)
    (h : FaultsBehind limits t ops f u) : FaultsBehind limits s (op :: ops) f u := by
  obtain ⟨v, passes, step⟩ := h
  exact ⟨v, .cons first passes, step⟩

/-- A step in memory of an instruction that is carried out from the code cache too. -/
theorem step_moved {k : Nat} (datapath : op.opcode.isSequencer = false)
    (fetch : (s.moved q k).machine.fetch = .ok op) :
    (s.moved q k).addStep.step limits =
      thenSkip 4 ((s.exec op).1.moved q (k + 1), (s.exec op).2) := by
  rw [← exec_moved, step_of_fetch_eq_ok (s := (s.moved q k).addStep) fetch,
    perform_of_datapath limits datapath]
  rfl

/-- Instructions in the code cache and the same ones in memory come to the same. -/
theorem execSlots_inline {k : Nat} (untraced : s.trace = none)
    (copied : s.machine.Copied slot q ops)
    (spares : s.machine.Spares q (q + 4 * ops.length) ops) (aligned : q % 4 = 0)
    (inside : q + 4 * ops.length ≤ memorySize) :
    (∃ t, execSlots slot ops.length s = (t, .ok ()) ∧
      t.counters.cycles = s.counters.cycles + ops.length ∧
      Passes limits (s.moved q k) ops (t.moved (q + 4 * ops.length) (k + ops.length))) ∨
    ∃ front op rest t f, ops = front ++ op :: rest ∧
      execSlots slot ops.length s = (t, .error f) ∧
      t.counters.cycles = s.counters.cycles + front.length + 1 ∧
      s.machine.StopsAt slot front f t.machine ∧
      FaultsBehind limits (s.moved q k) front f
        (t.moved (q + 4 * front.length) (k + front.length + 1)) := by
  induction ops generalizing s slot q k with
  | nil => exact .inl ⟨s, rfl, rfl, .nil _⟩
  | cons op ops ih =>
    have slotFetch := copied.fetchSlot 0 (Nat.succ_pos _)
    rw [BitVec.add_zero, List.getElem_cons_zero] at slotFetch
    have fetch : (s.moved q k).machine.fetch = .ok op :=
      Machine.Copied.fetch (m := (s.moved q k).machine) ⟨copied.1, copied.2⟩ aligned inside rfl
    have inMemory := step_moved limits (Machine.fetchSlot_eq_ok_iff.1 slotFetch).2 fetch
    rw [List.length_cons, execSlots_succ, execSlot_of_fetchSlot_eq_ok slotFetch]
    rcases exec_cases_of_untraced untraced op with
      ⟨f, fault, hexec⟩ | ⟨t, effect, applied, hexec, untraced', cycles⟩
    · rw [hexec] at inMemory ⊢
      refine .inr ⟨[], op, ops, _, f, rfl, rfl, rfl, ?_, ⟨_, .nil _, inMemory⟩⟩
      exact Machine.stopsAt_nil (by rw [slotFetch]; exact fault)
    · obtain ⟨spared, rest⟩ := spares.cons applied
      -- both ways go on from the same session, at different places
      have first : Completes limits (s.moved q k) op (t.moved (q + 4) (k + 1)) := by
        rw [hexec] at inMemory
        exact ⟨fetch, inMemory⟩
      have place (n : Nat) : q + 4 + 4 * n = q + 4 * (n + 1) := by omega
      have count (n : Nat) : k + 1 + n = k + (n + 1) := by omega
      have inside' : q + 4 + 4 * ops.length ≤ memorySize := by
        rw [place]
        exact inside
      rw [hexec]
      rcases ih (k := k + 1) untraced' (copied.tail inside applied spared)
          (rest.mono (Nat.le_add_right q 4) (Nat.le_of_eq (place _))) (by omega) inside' with
        ⟨u, hslots, total, passes⟩ | ⟨front, op', rest', u, f, rfl, hslots, total, stops, faults⟩
      · rw [place, count] at passes
        exact .inl ⟨u, hslots, by rw [total, cycles]; omega, .cons first passes⟩
      · rw [place, count] at faults
        refine .inr ⟨op :: front, op', rest', u, f, rfl, hslots, ?_, .cons slotFetch applied stops,
          faults.cons first⟩
        rw [total, cycles, List.length_cons]
        omega

theorem step_execute {slot len : Word} (untraced : s.trace = none) (short : len.toNat ≤ cacheSize)
    (fetch : s.machine.fetch = .ok (.execute slot len)) :
    s.addStep.step limits = thenSkip 4 (execSlots (slot.setWidth 9) len.toNat s.addStep) := by
  rw [step_of_fetch_eq_ok (s := s.addStep) fetch, perform_execute_eq _ _ short,
    record_of_trace_eq_none (s := s.addStep) untraced]
  rfl

/-- An execute without a trace and the same instructions in memory, which do not write to
themselves, leave sessions that differ in the program counter and the number of steps only.  Either
both ways complete, and every instruction has taken a cycle, or they stop with the same fault at the
same instruction, which has taken a cycle too. -/
theorem execute_inline (untraced : s.trace = none) {slot len : Word}
    (short : len.toNat ≤ cacheSize) (fetch : s.machine.fetch = .ok (.execute slot len))
    (aligned : q % 4 = 0) (inside : q + 4 * len.toNat ≤ memorySize)
    (length : ops.length = len.toNat) (copied : s.machine.Copied (slot.setWidth 9) q ops)
    (spares : s.machine.Spares q (q + 4 * len.toNat) ops) :
    (∃ t, Completes limits s (.execute slot len) t ∧ t.machine.pc = s.machine.pc + 4 ∧
      t.counters.cycles = s.counters.cycles + len.toNat ∧
      Passes limits (s.jump q) ops
        (t.moved (q + 4 * len.toNat) (s.counters.steps + len.toNat))) ∨
    ∃ front op rest t f, ops = front ++ op :: rest ∧
      s.addStep.step limits = (t, .error f) ∧ t.machine.pc = s.machine.pc ∧
      t.counters.cycles = s.counters.cycles + front.length + 1 ∧
      s.machine.StopsAt (slot.setWidth 9) front f t.machine ∧
      FaultsBehind limits (s.jump q) front f
        (t.moved (q + 4 * front.length) (s.counters.steps + front.length + 1)) := by
  have step := step_execute limits untraced short fetch
  have control := sameControl_execSlots (slot.setWidth 9) len.toNat s.addStep
  rw [← length] at step control inside spares ⊢
  rcases execSlots_inline limits (s := s.addStep) (k := s.counters.steps)
      untraced copied spares aligned inside with
    ⟨t, hslots, cycles, passes⟩ | ⟨front, op, rest, t, f, rfl, hslots, cycles, stops, faults⟩
  · rw [hslots] at step control
    exact .inl ⟨_, ⟨fetch, step⟩, congrArg (· + 4) control.pc, cycles, passes⟩
  · rw [hslots] at step control
    exact .inr ⟨front, op, rest, t, f, rfl, step, control.pc, cycles, stops, faults⟩

/-- Instructions that store two bytes and save to an odd address. -/
def storeThenSave : List Op :=
  [.setBase .sbp 0x41, .store .both false 0 0, .save .both 0]

/-- A machine with the instructions in the last entry of the code cache and the first ones, and in
memory behind an execute of them. -/
def copiedProgram : Session where
  machine :=
    { code := (((Vector.replicate cacheSize 0).setIfInBounds 0x1ff
        (Op.setBase .sbp 0x41).encode).setIfInBounds 0
        (Op.store .both false 0 0).encode).setIfInBounds 1 (Op.save .both 0).encode
      mem := Image.empty.setWords
        (Image.wordsAt 0 ((Op.execute 0x1ff 3 :: storeThenSave).map Op.encode)) }

theorem copied_copiedProgram : copiedProgram.machine.Copied 0x1ff 4 storeThenSave := by
  have code : ∀ i : Fin 3, copiedProgram.machine.code.get (0x1ff + BitVec.ofNat 9 i).toFin =
    storeThenSave[i].encode := by decide +kernel
  have mem : ∀ i : Fin 3, copiedProgram.machine.mem.word (.ofNat 17 (4 + 4 * i)) =
    storeThenSave[i].encode := by decide +kernel
  have fits : ∀ i : Fin 3, storeThenSave[i].Fits ∧ storeThenSave[i].opcode.isSequencer = false := by
    unfold Op.Fits
    decide
  refine ⟨fun i h => ?_, fun i h => (mem ⟨i, h⟩).trans (code ⟨i, h⟩).symm⟩
  obtain ⟨fit, datapath⟩ := fits ⟨i, h⟩
  refine Machine.fetchSlot_eq_ok_iff.2 ⟨?_, datapath⟩
  exact (congrArg Op.decode (code ⟨i, h⟩)).trans ((Op.decode_encode_eq_self_iff _).2 fit)

theorem spares_copiedProgram : copiedProgram.machine.Spares 4 16 storeThenSave := by
  refine ⟨fun x writes => absurd writes id, fun x writes inside => ?_, trivial⟩
  rcases writes with ⟨-, rfl⟩ | ⟨-, rfl⟩
  · exact absurd inside (by decide)
  · exact absurd inside (by decide)

/-- The third instruction faults, and either way the bytes are stored. -/
theorem execute_inline_copiedProgram :
    ∃ t f, copiedProgram.addStep.step {} = (t, .error f) ∧ t.counters.cycles = 3 ∧
      t.machine.mem.isDefined 0x42 ∧
      FaultsBehind {} (copiedProgram.jump 4) [.setBase .sbp 0x41, .store .both false 0 0] f
        (t.moved 12 3) := by
  have fetch : copiedProgram.machine.fetch = .ok (.execute 0x1ff 3) := rfl
  have after : (copiedProgram.addStep.step {}).1.counters = ⟨3, 0, 1⟩ ∧
    (copiedProgram.addStep.step {}).1.machine.mem.isDefined 0x42 := by decide +kernel
  rcases execute_inline {} rfl (by decide) fetch rfl (by decide) rfl copied_copiedProgram
      spares_copiedProgram with
    ⟨t, completes, pc, -⟩ | ⟨front, op, rest, t, f, split, step, -, cycles, -, faults⟩
  · have stays : (copiedProgram.addStep.step {}).1.machine.pc = 0 := by decide +kernel
    rw [completes.step, pc] at stays
    cases stays
  · rw [step] at after
    rw [show t.counters = ⟨3, 0, 1⟩ from after.1] at cycles
    have total : 3 = 0 + front.length + 1 := cycles
    obtain rfl : front = storeThenSave.take 2 := by rw [split, List.take_left' (by omega)]
    exact ⟨t, f, step, congrArg Counters.cycles after.1, after.2, faults⟩

end Session

end Macc
