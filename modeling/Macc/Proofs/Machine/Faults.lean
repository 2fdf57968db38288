import Macc.Proofs.Machine.Runs

/-!
# What faults leave

An instruction that faults has changed the machine in one of three ways (`Machine.LeftBy`): a load
has loaded its own entry, an execute has carried out the instructions in front of the one at fault
(`Machine.StopsAt`), and any other has changed nothing.  The program counter stays where it was, so
the fault of a run lies there (`Session.run_fault`).
-/

namespace Macc

/-- The fault keeps the sequencer from carrying out an instruction: its steps are used up, or it
cannot fetch from the program counter. -/
def Fault.precedesFetch : Fault → Bool
  | stepLimit _ | pcOutOfRange _ | misaligned .pc _ => true
  | _ => false

theorem pcFault?_eq_some {pc : Nat} {f : Fault} (h : pcFault? pc = some f) :
    f = .pcOutOfRange pc ∨ f = .misaligned .pc pc := by
  unfold pcFault? at h
  split at h
  · exact .inl (Option.some.inj h).symm
  · split at h
    · exact .inr (Option.some.inj h).symm
    · cases h

namespace Machine

variable {m n : Machine} {op : Op} {f : Fault}

theorem precedesFetch_of_apply (h : (m.apply op).2 = .error f) : f.precedesFetch = false := by
  revert h
  fun_cases apply m op <;> simp <;> rintro rfl <;> rfl

theorem precedesFetch_of_fetchSlot {slot : Slot} (h : m.fetchSlot slot = .error f) :
    f.precedesFetch = false := by
  unfold fetchSlot at h
  split at h
  · cases h
    rfl
  · split at h
    · cases h
      rfl
    · cases h

/-! ### Several instructions of the datapath -/

/-- The machine after instructions of the datapath, one after another, if none of them faults. -/
def applyAll (m : Machine) : List Op → Except Fault Machine
  | [] => .ok m
  | op :: ops =>
    match m.apply op with
    | (n, .ok _) => n.applyAll ops
    | (_, .error f) => .error f

/-- Of the instructions in the code cache from an entry on, `ops` change the machine `m` to `n`, and
the one behind them faults. -/
structure StopsAt (m : Machine) (slot : Slot) (ops : List Op) (f : Fault) (n : Machine) :
    Prop where
  fetchSlot : ∀ i (h : i < ops.length), m.fetchSlot (slot + .ofNat 9 i) = .ok ops[i]
  applyAll : m.applyAll ops = .ok n
  fault : ((n.fetchSlot (slot + .ofNat 9 ops.length)).bind fun op => (n.apply op).2) = .error f

theorem slot_succ (slot : Slot) (i : Nat) :
    slot + 1 + .ofNat 9 i = slot + .ofNat 9 (i + 1) := by
  rw [BitVec.ofNat_add, BitVec.add_assoc]
  exact congrArg (slot + ·) (BitVec.add_comm _ _)

theorem SameControl.fetchSlot (h : SameControl m n) (slot : Slot) :
    n.fetchSlot slot = m.fetchSlot slot := by
  rw [Machine.fetchSlot, Machine.fetchSlot, h.code]

/-- The datapath leaves what is fetched behind its instruction. -/
theorem fetchSlot_cons {n : Machine} {slot : Slot} {effect : Effect} {ops : List Op}
    (hf : m.fetchSlot slot = .ok op) (ha : m.apply op = (n, .ok effect))
    (h : ∀ i (hi : i < ops.length), n.fetchSlot (slot + 1 + .ofNat 9 i) = .ok ops[i]) (i : Nat)
    (hi : i < (op :: ops).length) : m.fetchSlot (slot + .ofNat 9 i) = .ok (op :: ops)[i] := by
  have same : SameControl m n := by
    have := m.sameControl_apply op
    rwa [ha] at this
  cases i with
  | zero =>
    rw [BitVec.add_zero]
    exact hf
  | succ i =>
    rw [← slot_succ, ← same.fetchSlot]
    exact h i (Nat.lt_of_succ_lt_succ hi)

theorem stopsAt_nil {slot : Slot}
    (h : ((m.fetchSlot slot).bind fun op => (m.apply op).2) = .error f) :
    m.StopsAt slot [] f m where
  fetchSlot i hi := absurd hi (Nat.not_lt_zero i)
  applyAll := rfl
  fault := by
    rw [List.length_nil, BitVec.add_zero]
    exact h

theorem StopsAt.cons {n k : Machine} {slot : Slot} {effect : Effect} {ops : List Op}
    (hf : m.fetchSlot slot = .ok op) (ha : m.apply op = (n, .ok effect))
    (h : n.StopsAt (slot + 1) ops f k) : m.StopsAt slot (op :: ops) f k where
  fetchSlot := fetchSlot_cons hf ha h.fetchSlot
  applyAll := by
    rw [Machine.applyAll, ha]
    exact h.applyAll
  fault := by
    rw [List.length_cons, ← slot_succ]
    exact h.fault

theorem StopsAt.precedesFetch {slot : Slot} {ops : List Op} (h : m.StopsAt slot ops f n) :
    f.precedesFetch = false := by
  have fault := h.fault
  cases hf : n.fetchSlot (slot + .ofNat 9 ops.length) with
  | error g =>
    rw [hf] at fault
    cases fault
    exact precedesFetch_of_fetchSlot hf
  | ok op =>
    rw [hf] at fault
    exact precedesFetch_of_apply fault

/-- What an instruction that faults, for another reason than its trace line, makes of a machine. -/
def LeftBy (m : Machine) (op : Op) (f : Fault) (n : Machine) : Prop :=
  match op with
  | .execute slot len =>
    (cacheSize < len.toNat ∧ f = .countTooLarge len ∧ n = m) ∨
      len.toNat ≤ cacheSize ∧ ∃ ops, ops.length < len.toNat ∧ m.StopsAt (slot.setWidth 9) ops f n
  | .load cache src slot => n = m.load cache (src.setWidth 17) (slot.setWidth 9)
  | _ => n = m

/-- What a step that ends with a fault, other than the trace's, makes of a machine: nothing new if
no instruction could be fetched, or else what is left by the instruction. -/
structure LeftByStep (m : Machine) (f : Fault) (n : Machine) : Prop where
  unfetched : f.precedesFetch → n = m
  undecoded : ∀ e, Op.decode (m.mem.word (.ofNat 17 m.pc)) = .error e → n = m
  decoded : ∀ op, f.precedesFetch = false → Op.decode (m.mem.word (.ofNat 17 m.pc)) = .ok op →
    m.LeftBy op f n

theorem LeftByStep.of_precedesFetch (h : f.precedesFetch) : m.LeftByStep f m :=
  ⟨fun _ => rfl, fun _ _ => rfl, fun _ h' => absurd h (Bool.eq_false_iff.1 h')⟩

end Machine

namespace Session

variable {limits : Limits} {s t : Session} {op : Op} {f : Fault}

/-! ### Instructions that fault -/

theorem record_eq_error {effect : Effect} (h : s.record op effect = (t, .error f)) :
    f = .trace ∧ t = s := by
  rcases s.record_cases op effect with hr | hr
  · rw [hr] at h
    cases h
    exact ⟨rfl, rfl⟩
  · rw [hr] at h
    cases h

theorem thenSkip_eq_error {n : Nat} {x : Session × Except Fault Unit}
    (h : thenSkip n x = (t, .error f)) : x = (t, .error f) := by
  obtain ⟨u, result⟩ := x
  cases result with
  | error g =>
    cases h
    rfl
  | ok => cases h

theorem exec_eq_error (h : s.exec op = (t, .error f)) :
    f = .trace ∨ t.machine = s.machine ∧ (s.machine.apply op).2 = .error f := by
  rcases s.exec_cases op with ⟨g, happly, hexec⟩ | ⟨m, effect, -, hexec⟩
  · rw [hexec] at h
    cases h
    exact .inr ⟨rfl, congrArg Prod.snd happly⟩
  · rw [hexec] at h
    exact .inl (record_eq_error h).1

theorem exec_eq_ok (h : s.exec op = (t, .ok ())) :
    ∃ effect, s.machine.apply op = (t.machine, .ok effect) := by
  have machine := s.machine_exec op
  rcases s.exec_cases op with ⟨g, -, hexec⟩ | ⟨m, effect, happly, -⟩
  · rw [hexec] at h
    cases h
  · rw [h, happly] at machine
    exact ⟨effect, by rw [happly, machine]⟩

theorem execSlots_eq_error {slot : Slot} {n : Nat} (h : execSlots slot n s = (t, .error f)) :
    f = .trace ∨ ∃ ops, ops.length < n ∧ s.machine.StopsAt slot ops f t.machine := by
  induction n generalizing slot s with
  | zero => cases h
  | succ n ih =>
    rw [execSlots] at h
    split at h
    next u hu =>
      cases hf : s.machine.fetchSlot slot with
      | error g =>
        rw [execSlot_of_fetchSlot_eq_error hf] at hu
        cases hu
      | ok op =>
        rw [execSlot_of_fetchSlot_eq_ok hf] at hu
        obtain ⟨effect, ha⟩ := exec_eq_ok hu
        refine (ih h).imp_right ?_
        rintro ⟨ops, hn, stops⟩
        exact ⟨op :: ops, Nat.succ_lt_succ hn, .cons hf ha stops⟩
    next u g hu =>
      cases h
      -- the first instruction is the one at fault
      have stops : ((s.machine.fetchSlot slot).bind fun op => (s.machine.apply op).2) = .error f →
          t.machine = s.machine →
          ∃ ops, ops.length < n + 1 ∧ s.machine.StopsAt slot ops f t.machine := by
        intro fault same
        rw [same]
        exact ⟨[], Nat.succ_pos n, Machine.stopsAt_nil fault⟩
      cases hf : s.machine.fetchSlot slot with
      | error g =>
        rw [execSlot_of_fetchSlot_eq_error hf] at hu
        cases hu
        exact .inr (stops (by rw [hf]; rfl) rfl)
      | ok op =>
        rw [execSlot_of_fetchSlot_eq_ok hf] at hu
        refine (exec_eq_error hu).imp_right ?_
        rintro ⟨same, ha⟩
        exact stops (by rw [hf]; exact ha) same

theorem precedesFetch_of_repeats? {next : Word} (h : repeats? next = .error f) :
    f.precedesFetch = false := by
  unfold repeats? at h
  split at h
  · cases h
  · split at h
    · cases h
      rfl
    · cases h
    · cases h

theorem load_eq_error {cache : Cache} {src slot : Word}
    (h : s.load cache src slot = (t, .error f)) :
    t.machine.pc = s.machine.pc ∧ (f = .trace ∨ f.precedesFetch = false ∧
      t.machine = s.machine.load cache (src.setWidth 17) (slot.setWidth 9)) := by
  rcases s.load_cases cache src slot with ⟨g, hg, hx⟩ | ⟨u, n, effect, -, same, -, -, hx⟩
  · rw [hx] at h
    cases h
    have fetched : f.precedesFetch = false := by
      rcases hg with hr | ⟨len, rfl⟩
      · exact precedesFetch_of_repeats? hr
      · rfl
    exact ⟨Machine.pc_load _ _ _ _, .inr ⟨fetched, rfl⟩⟩
  · rw [hx] at h
    obtain ⟨rfl, rfl⟩ := record_eq_error (thenSkip_eq_error h)
    exact ⟨same, .inl rfl⟩

/-- An instruction that faults does not move the program counter, and leaves its part of the work
if the fault is not the trace's. -/
theorem perform_eq_error (h : s.perform limits op = (t, .error f)) :
    t.machine.pc = s.machine.pc ∧
      (f = .trace ∨ f.precedesFetch = false ∧ s.machine.LeftBy op f t.machine) := by
  have datapath (h : thenSkip 4 (s.exec op) = (t, .error f)) :
      t.machine.pc = s.machine.pc ∧
        (f = .trace ∨ f.precedesFetch = false ∧ t.machine = s.machine) := by
    have hx := thenSkip_eq_error h
    have machine := s.machine_exec op
    rw [hx] at machine
    refine ⟨(congrArg Machine.pc machine).trans (s.machine.sameControl_apply op).pc, ?_⟩
    exact (exec_eq_error hx).imp_right fun ⟨same, ha⟩ => ⟨Machine.precedesFetch_of_apply ha, same⟩
  cases op with
  | sync =>
    obtain ⟨rfl, rfl⟩ := record_eq_error (thenSkip_eq_error h)
    exact ⟨rfl, .inl rfl⟩
  | call target =>
    rcases perform_call_cases limits s target with ⟨-, hx⟩ | ⟨-, hx | ⟨l, hx⟩⟩ <;> rw [hx] at h <;>
      cases h
    · exact ⟨rfl, .inr ⟨rfl, rfl⟩⟩
    · exact ⟨rfl, .inl rfl⟩
  | ret =>
    rcases perform_ret_cases limits s with hx | ⟨l, ⟨-, hx⟩ | ⟨back, -, hx⟩⟩ <;> rw [hx] at h <;>
      cases h
    exact ⟨rfl, .inl rfl⟩
  | execute slot len =>
    rcases perform_execute_cases limits s slot len with ⟨excessive, hx⟩ | ⟨hlen, hx | ⟨l, hx⟩⟩
    · rw [hx] at h
      cases h
      exact ⟨rfl, .inr ⟨rfl, .inl ⟨excessive, rfl, rfl⟩⟩⟩
    · rw [hx] at h
      cases h
      exact ⟨rfl, .inl rfl⟩
    · rw [hx] at h
      have hslots := thenSkip_eq_error h
      have same := sameControl_execSlots (slot.setWidth 9) len.toNat (s.write l)
      rw [hslots] at same
      refine ⟨same.pc, (execSlots_eq_error hslots).imp_right ?_⟩
      rintro ⟨ops, hops, stops⟩
      exact ⟨stops.precedesFetch, .inr ⟨hlen, ops, hops, stops⟩⟩
  | load cache src slot => exact load_eq_error h
  | continueLoad len =>
    cases h
    exact ⟨rfl, .inr ⟨rfl, rfl⟩⟩
  | _ => exact datapath h

theorem step_eq_error (h : s.step limits = (t, .error f)) :
    t.machine.pc = s.machine.pc ∧ (∀ k, f ≠ .stepLimit k) ∧
      (f ≠ .trace → s.machine.LeftByStep f t.machine) := by
  unfold step at h
  split at h
  next g hpc =>
    cases h
    rcases pcFault?_eq_some hpc with rfl | rfl <;>
      exact ⟨rfl, fun _ => Fault.noConfusion, fun _ => .of_precedesFetch rfl⟩
  next hpc =>
    split at h
    next g hd =>
      cases h
      exact ⟨rfl, fun _ => Fault.noConfusion, fun _ => ⟨fun _ => rfl, fun _ _ => rfl,
        fun op _ hop => by rw [hd] at hop; cases hop⟩⟩
    next op hd =>
      obtain ⟨hpc, left⟩ := perform_eq_error h
      refine ⟨hpc, ?_, fun ht => ?_⟩
      · rintro k rfl
        exact left.elim Fault.noConfusion fun left => Bool.noConfusion left.1
      · obtain ⟨fetched, left⟩ := left.resolve_left ht
        refine ⟨fun h' => absurd h' (Bool.eq_false_iff.1 fetched), fun e he => ?_,
          fun op' _ hop' => ?_⟩
        · rw [hd] at he
          cases he
        · rw [hd] at hop'
          cases hop'
          exact left

/-! ### Runs that fault -/

/-- A run from an address out of range or not at a multiple of 4 faults there and then and changes
nothing.  Every other fault of a run lies at the program counter behind the last whole step, which
does not move it.  Unless the fault is the trace's, the machine is as it was behind that step if
the fault is the step limit or no instruction can be fetched, and else as the instruction at fault
leaves it. -/
theorem run_fault (limits : Limits) (start : Nat) (s : Session) :
    (memorySize ≤ start → s.run limits start = (s, .error ⟨none, .pcOutOfRange start⟩)) ∧
    (start < memorySize → start % 4 ≠ 0 →
      s.run limits start = (s, .error ⟨none, .misaligned .pc start⟩)) ∧
    ∀ t e, start < memorySize → start % 4 = 0 → s.run limits start = (t, .error e) →
      ∃ ops u, Reaches limits start s ops u ∧
        ((limits.maxSteps ≤ u.counters.steps ∧ e.cause = .stepLimit limits.maxSteps ∧ t = u) ∨
          (u.counters.steps < limits.maxSteps ∧ u.addStep.step limits = (t, .error e.cause))) ∧
        e.pc? = some u.machine.pc ∧ t.machine.pc = u.machine.pc ∧
        (e.cause ≠ .trace → u.machine.LeftByStep e.cause t.machine) := by
  refine ⟨fun h => ?_, fun h h' => ?_, fun t e h h' hrun => ?_⟩
  · exact run_of_pcFault? (if_pos h)
  · exact run_of_pcFault? ((if_neg (Nat.not_le.2 h)).trans (if_pos h'))
  · obtain ⟨ops, u, reaches, ends⟩ :=
      exists_ends_run limits s ((pcFault?_eq_none_iff start).2 ⟨h, h'⟩)
    refine ⟨ops, u, reaches, ?_⟩
    rw [hrun] at ends
    generalize hn : limits.maxSteps - u.counters.steps = n at ends
    cases ends with
    | limit =>
      exact ⟨.inl ⟨Nat.sub_eq_zero_iff_le.1 hn, rfl, rfl⟩, rfl, rfl, fun _ => .of_precedesFetch rfl⟩
    | fault hstep =>
      obtain ⟨hpc, -, left⟩ := step_eq_error hstep
      exact ⟨.inr ⟨by omega, hstep⟩, congrArg some hpc, hpc, left⟩

/-- The code cache gets an instruction that sets a base register and one that saves to a misaligned
address, and both are carried out. -/
def misalignedSave : Session :=
  ofProgram [.load .code 20 0, .continueLoad 1, .execute 0 2, .ret, .ret, .setBase .vbp 5,
    .save .both 1]

theorem run_fault_misalignedSave :
    let after := (misalignedSave.run {} 0).1.machine
    (misalignedSave.run {} 0).2 = .error ⟨some 8, .misaligned .save 1⟩ ∧ after.vbp = 5 ∧
      (∃ ops u, Reaches {} 0 misalignedSave ops u ∧ u.machine.pc = 8 ∧ after.pc = 8 ∧
        u.machine.LeftByStep (.misaligned .save 1) after) ∧
      misalignedSave.run {} 0x20000 = (misalignedSave, .error ⟨none, .pcOutOfRange 0x20000⟩) ∧
      misalignedSave.run {} 6 = (misalignedSave, .error ⟨none, .misaligned .pc 6⟩) := by
  have outcome : (misalignedSave.run {} 0).2 = .error ⟨some 8, .misaligned .save 1⟩ := rfl
  obtain ⟨-, -, fault⟩ := run_fault {} 0 misalignedSave
  obtain ⟨ops, u, reaches, -, located, same, left⟩ :=
    fault _ _ (by decide) rfl (Prod.ext rfl outcome)
  have hpc : u.machine.pc = 8 := (Option.some.inj located).symm
  refine ⟨outcome, rfl, ⟨ops, u, reaches, hpc, same.trans hpc, left Fault.noConfusion⟩, ?_, ?_⟩
  · exact (run_fault {} 0x20000 misalignedSave).1 (by decide)
  · exact (run_fault {} 6 misalignedSave).2.1 (by decide) (by decide)

end Session

end Macc
