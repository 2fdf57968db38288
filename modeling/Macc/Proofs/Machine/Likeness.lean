import Macc.Proofs.Machine.Faults

/-!
# Sessions that behave alike

A `Likeness` compares two sessions: their machines by a relation that no instruction can tell apart,
and their traces by the lines that they take.  Sessions that are alike (`Likeness.Alike`) stay so.
Whatever an action comes to in the first, it comes to in the second, unless the first session cannot
write a trace line that the second can; then the first stops, and its trace is behind
(`Likeness.Outcomes`).

Each layer of the simulator has its lemma, from the trace line up to the step.  For a run,
`Likeness.run_cases` says that both runs come to the same or where the first one stops.  That an
action respects every likeness (`Session.Respects`) is all that the applications need to know of it.
-/

namespace Macc

/-- A relation between sessions that no instruction can tell apart, apart from trace lines that the
first session refuses. -/
structure Likeness where
  machine : Machine → Machine → Prop
  /-- Traces of which neither has refused a line. -/
  level : Option Trace → Option Trace → Prop
  /-- Traces of which the first has refused a line that the second has taken. -/
  behind : Option Trace → Option Trace → Prop
  pc {m n : Machine} : machine m n → n.pc = m.pc
  stack {m n : Machine} : machine m n → n.stack = m.stack
  code {m n : Machine} : machine m n → n.code = m.code
  word {m n : Machine} : machine m n → ∀ a, n.mem.word a = m.mem.word a
  apply {m n : Machine} : machine m n → ∀ op,
    (n.apply op).2 = (m.apply op).2 ∧ machine (m.apply op).1 (n.apply op).1
  load {m n : Machine} : machine m n → ∀ cache src slot,
    machine (m.load cache src slot) (n.load cache src slot)
  control {m n : Machine} : machine m n → ∀ pc stack,
    machine { m with pc, stack } { n with pc, stack }
  hasRoomFor {t u : Option Trace} {l : TraceLine} : level t u →
    t.all (·.hasRoomFor l) → u.all (·.hasRoomFor l)
  push {t u : Option Trace} {l : TraceLine} : level t u → t.all (·.hasRoomFor l) →
    level (t.map (·.push l)) (u.map (·.push l))
  refuse {t u : Option Trace} {l : TraceLine} : level t u → t.all (·.hasRoomFor l) = false →
    u.all (·.hasRoomFor l) → behind t (u.map (·.push l))
  stay {t u : Option Trace} {l : TraceLine} : behind t u → behind t (u.map (·.push l))

theorem Machine.fetch_ne_trace (m : Machine) : m.fetch ≠ .error .trace := by
  unfold fetch
  split
  next f hpc => rcases pcFault?_eq_some hpc with rfl | rfl <;> exact fun h => by cases h
  next => split <;> exact fun h => by cases h

namespace Session

variable {s : Session} {op : Op} {effect : Effect}

/-! ### Actions in a row -/

/-- Go on with another action if one has succeeded. -/
def andThen {α : Type} (x : Session × Except Fault Unit) (f : Session → Session × Except Fault α) :
    Session × Except Fault α :=
  match x with
  | (s, .ok ()) => f s
  | (s, .error e) => (s, .error e)

theorem thenSkip_eq_andThen (n : Nat) (x : Session × Except Fault Unit) :
    thenSkip n x = andThen x fun s => (s.jump (s.machine.pc + n), .ok .next) := by
  obtain ⟨s, result⟩ := x
  cases result <;> rfl

theorem trace_thenSkip (n : Nat) (x : Session × Except Fault Unit) :
    (thenSkip n x).1.trace = x.1.trace := by
  obtain ⟨s, result⟩ := x
  cases result <;> rfl

theorem execSlots_succ (slot : Slot) (n : Nat) (s : Session) :
    execSlots slot (n + 1) s = andThen (s.execSlot slot) (execSlots (slot + 1) n) := by
  rw [execSlots]
  rfl

theorem perform_sync_eq (limits : Limits) (s : Session) :
    s.perform limits .sync =
      thenSkip 4 ((s.addCycles 8).record .sync (.cycles (s.addCycles 8).counters.cycles)) := rfl

theorem perform_call_eq {limits : Limits} (h : s.machine.depth < limits.maxDepth)
    (target : Word) :
    s.perform limits (.call target) =
      andThen (s.pushReturn.record (.call target) (.depth s.pushReturn.machine.depth))
        fun t => (t.jump target.toNat, .ok .next) := by
  rw [perform_call_of_lt h]
  generalize s.pushReturn.record _ _ = x
  obtain ⟨t, result⟩ := x
  cases result <;> rfl

/-- Go back to the newest address on the call stack, or halt if there is none. -/
def goBack (s : Session) : Session × Except Fault Flow :=
  match s.machine.stack.back? with
  | none => (s, .ok .halt)
  | some back => ({ s with machine := s.machine.returnTo back }, .ok .next)

theorem perform_ret_eq (limits : Limits) (s : Session) :
    s.perform limits .ret = andThen (s.record .ret (.depth s.machine.depth)) goBack := by
  unfold perform
  dsimp only
  generalize s.record _ _ = x
  obtain ⟨t, result⟩ := x
  cases result <;> rfl

theorem perform_execute_eq (limits : Limits) (s : Session) {slot len : Word}
    (h : len.toNat ≤ cacheSize) :
    s.perform limits (.execute slot len) =
      andThen (s.record (.execute slot len) (.microOps len.toNat))
        fun t => thenSkip 4 (execSlots (slot.setWidth 9) len.toNat t) := by
  unfold perform
  dsimp only
  rw [if_neg (Nat.not_lt.2 h)]
  generalize s.record _ _ = x
  obtain ⟨t, result⟩ := x
  cases result <;> rfl

theorem refuses_eq (s : Session) (l : TraceLine) : s.refuses l = !s.trace.all (·.hasRoomFor l) := by
  unfold refuses
  cases s.trace <;> rfl

theorem record_of_all_hasRoomFor (h : s.trace.all (·.hasRoomFor ⟨op, effect⟩)) :
    s.record op effect = (s.write ⟨op, effect⟩, .ok ()) := by
  refine if_neg ?_
  rw [refuses_eq, h]
  exact Bool.false_ne_true

theorem record_of_all_hasRoomFor_eq_false (h : s.trace.all (·.hasRoomFor ⟨op, effect⟩) = false) :
    s.record op effect = (s, .error .trace) := by
  refine if_pos ?_
  rw [refuses_eq, h]
  rfl

end Session

namespace Likeness

open Session

variable (L : Likeness) {limits : Limits} {s t u : Session} {op : Op} {ops : List Op} {start : Nat}

/-! ### Sessions and outcomes -/

/-- Sessions that behave alike. -/
structure Alike (s t : Session) : Prop where
  machine : L.machine s.machine t.machine
  counters : t.counters = s.counters
  trace : L.level s.trace t.trace

/-- What an action comes to in two sessions that were alike. -/
inductive Outcomes {α : Type} : Session × Except Fault α → Session × Except Fault α → Prop
  | same {s t : Session} (h : L.Alike s t) (result : Except Fault α) :
      Outcomes (s, result) (t, result)
  | behind {s t : Session} (h : L.behind s.trace t.trace) (result : Except Fault α) :
      Outcomes (s, .error .trace) (t, result)

variable {L}

theorem Outcomes.andThen {α : Type} {x y : Session × Except Fault Unit}
    {f g : Session → Session × Except Fault α} (h : L.Outcomes x y)
    (next : ∀ s t, L.Alike s t → L.Outcomes (f s) (g t))
    (stay : ∀ trace t, L.behind trace t.trace → L.behind trace (g t).1.trace) :
    L.Outcomes (andThen x f) (andThen y g) := by
  cases h with
  | same h result =>
    cases result with
    | ok => exact next _ _ h
    | error e => exact .same h _
  | behind h result =>
    cases result with
    | ok => exact .behind (stay _ _ h) _
    | error e => exact .behind h _

theorem behind_of_evolves {trace : Option Trace} (h : Evolves s t)
    (hs : L.behind trace s.trace) : L.behind trace t.trace :=
  h.trace (P := L.behind trace) (fun _ _ h => L.stay h) hs

namespace Alike

theorem jump (h : L.Alike s t) (pc : Nat) : L.Alike (s.jump pc) (t.jump pc) := by
  have moved := L.control h.machine pc s.machine.stack
  have same : (t.jump pc).machine = { t.machine with pc, stack := s.machine.stack } := by
    rw [← L.stack h.machine]
    rfl
  exact ⟨same ▸ moved, h.counters, h.trace⟩

theorem addCycles (h : L.Alike s t) (n : Nat) : L.Alike (s.addCycles n) (t.addCycles n) :=
  ⟨h.machine, by rw [Session.addCycles, Session.addCycles, h.counters], h.trace⟩

theorem addOp (h : L.Alike s t) : L.Alike s.addOp t.addOp :=
  ⟨h.machine, by rw [Session.addOp, Session.addOp, h.counters], h.trace⟩

theorem addStep (h : L.Alike s t) : L.Alike s.addStep t.addStep :=
  ⟨h.machine, by rw [Session.addStep, Session.addStep, h.counters], h.trace⟩

theorem withMachine {m n : Machine} (h : L.Alike s t) (hm : L.machine m n) :
    L.Alike { s with machine := m } { t with machine := n } :=
  ⟨hm, h.counters, h.trace⟩

end Alike

theorem Outcomes.thenSkip {x y : Session × Except Fault Unit} (h : L.Outcomes x y) (n : Nat) :
    L.Outcomes (thenSkip n x) (thenSkip n y) := by
  rw [thenSkip_eq_andThen, thenSkip_eq_andThen]
  refine h.andThen (fun s t alike => ?_) fun _ _ => id
  rw [L.pc alike.machine]
  exact .same (alike.jump _) _

/-! ### The datapath -/

theorem outcomes_record (h : L.Alike s t) (op : Op) (effect : Effect) :
    L.Outcomes (s.record op effect) (t.record op effect) := by
  cases hs : s.trace.all (·.hasRoomFor ⟨op, effect⟩) with
  | true =>
    rw [record_of_all_hasRoomFor hs, record_of_all_hasRoomFor (L.hasRoomFor h.trace hs)]
    have written : L.Alike (s.write ⟨op, effect⟩) (t.write ⟨op, effect⟩) :=
      ⟨h.machine, h.counters, L.push h.trace hs⟩
    exact .same written _
  | false =>
    rw [record_of_all_hasRoomFor_eq_false hs]
    cases ht : t.trace.all (·.hasRoomFor ⟨op, effect⟩) with
    | true =>
      rw [record_of_all_hasRoomFor ht]
      exact .behind (t := t.write ⟨op, effect⟩) (L.refuse h.trace hs ht) _
    | false =>
      rw [record_of_all_hasRoomFor_eq_false ht]
      exact .same h _

theorem outcomes_exec (h : L.Alike s t) (op : Op) : L.Outcomes (s.exec op) (t.exec op) := by
  obtain ⟨result, machine⟩ := L.apply h.machine op
  rcases s.exec_cases op with ⟨f, hs, hx⟩ | ⟨m, effect, hs, hx⟩ <;>
    rcases t.exec_cases op with ⟨g, ht, hy⟩ | ⟨n, effect', ht, hy⟩ <;>
    rw [hs, ht] at result machine <;> cases result
  · rw [hx, hy]
    exact .same (h.addCycles 1) _
  · have applied := (h.withMachine machine).addCycles 1
    rw [hx, hy]
    dsimp only
    split
    · exact outcomes_record applied.addOp op effect
    · exact outcomes_record applied op effect

theorem outcomes_execSlot (h : L.Alike s t) (slot : Slot) :
    L.Outcomes (s.execSlot slot) (t.execSlot slot) := by
  have same : t.machine.fetchSlot slot = s.machine.fetchSlot slot := by
    rw [Machine.fetchSlot, Machine.fetchSlot, L.code h.machine]
  cases hf : s.machine.fetchSlot slot with
  | error f =>
    rw [execSlot_of_fetchSlot_eq_error hf, execSlot_of_fetchSlot_eq_error (same.trans hf)]
    exact .same h _
  | ok op =>
    rw [execSlot_of_fetchSlot_eq_ok hf, execSlot_of_fetchSlot_eq_ok (same.trans hf)]
    exact outcomes_exec h op

theorem outcomes_execSlots (h : L.Alike s t) (slot : Slot) (n : Nat) :
    L.Outcomes (execSlots slot n s) (execSlots slot n t) := by
  induction n generalizing slot s t with
  | zero => exact .same h _
  | succ n ih =>
    rw [execSlots_succ, execSlots_succ]
    exact (outcomes_execSlot h slot).andThen (fun _ _ alike => ih alike _) fun _ t =>
      behind_of_evolves (evolves_execSlots _ n t)

/-! ### The sequencer -/

theorem loadMany {m n : Machine} (h : L.machine m n) (cache : Cache) (src : Address) (slot : Slot)
    (k : Nat) : L.machine (m.loadMany cache src slot k) (n.loadMany cache src slot k) := by
  induction k generalizing m n src slot with
  | zero => exact h
  | succ k ih => exact ih (L.load h cache src slot) _ _

theorem outcomes_load (h : L.Alike s t) (cache : Cache) (src slot : Word) :
    L.Outcomes (s.load cache src slot) (t.load cache src slot) := by
  have one : L.Alike (s.loadOne cache src slot) (t.loadOne cache src slot) :=
    (h.withMachine (L.load h.machine cache _ _)).addCycles 1
  have same : t.machine.lookAhead = s.machine.lookAhead := by
    rw [Machine.lookAhead, Machine.lookAhead, L.pc h.machine, L.word h.machine]
  rw [load_eq, load_eq, same]
  dsimp only
  split
  · exact .same one _
  · exact (outcomes_record one _ _).thenSkip 4
  next len _ =>
    split
    · exact .same one _
    · have rest : L.Alike ((s.loadOne cache src slot).loadRest cache src slot len.toNat)
          ((t.loadOne cache src slot).loadRest cache src slot len.toNat) :=
        (one.withMachine (loadMany one.machine cache _ _ _)).addCycles len.toNat
      exact (outcomes_record rest _ _).thenSkip 8

theorem Alike.depth (h : L.Alike s t) : t.machine.depth = s.machine.depth :=
  congrArg Array.size (L.stack h.machine)

theorem Alike.pushReturn (h : L.Alike s t) : L.Alike s.pushReturn t.pushReturn := by
  have pushed := L.control h.machine (s.machine.pc) (s.machine.stack.push (s.machine.pc + 4))
  have same : t.pushReturn.machine = { t.machine with
      pc := s.machine.pc, stack := s.machine.stack.push (s.machine.pc + 4) } := by
    rw [← L.pc h.machine, ← L.stack h.machine]
    rfl
  exact ⟨same ▸ pushed, h.counters, h.trace⟩

theorem outcomes_goBack (h : L.Alike s t) : L.Outcomes s.goBack t.goBack := by
  rw [goBack, goBack, L.stack h.machine]
  split
  · exact .same h _
  next back _ =>
    have returned := L.control h.machine back s.machine.stack.pop
    have same : t.machine.returnTo back =
        { t.machine with pc := back, stack := s.machine.stack.pop } := by
      rw [Machine.returnTo, L.stack h.machine]
    exact .same (h.withMachine (same ▸ returned)) _

theorem outcomes_perform (h : L.Alike s t) (limits : Limits) (op : Op) :
    L.Outcomes (s.perform limits op) (t.perform limits op) := by
  have datapath : L.Outcomes (thenSkip 4 (s.exec op)) (thenSkip 4 (t.exec op)) :=
    (outcomes_exec h op).thenSkip 4
  cases op with
  | sync =>
    have waited := h.addCycles 8
    rw [perform_sync_eq, perform_sync_eq, waited.counters]
    exact (outcomes_record waited _ _).thenSkip 4
  | call target =>
    rcases Nat.lt_or_ge s.machine.depth limits.maxDepth with hd | hd
    · rw [perform_call_eq hd, perform_call_eq (h.depth ▸ hd), h.pushReturn.depth]
      exact (outcomes_record h.pushReturn _ _).andThen (fun _ _ alike => .same (alike.jump _) _)
        fun _ _ => id
    · rw [perform_call_of_le hd, perform_call_of_le (h.depth ▸ hd)]
      exact .same h _
  | ret =>
    rw [perform_ret_eq, perform_ret_eq, h.depth]
    refine (outcomes_record h _ _).andThen (fun _ _ => outcomes_goBack) fun _ t behind => ?_
    unfold goBack
    split <;> exact behind
  | execute slot len =>
    rcases Nat.lt_or_ge cacheSize len.toNat with hlen | hlen
    · have excessive (u : Session) :
          u.perform limits (.execute slot len) = (u, .error (.countTooLarge len)) := if_pos hlen
      rw [excessive, excessive]
      exact .same h _
    · rw [perform_execute_eq _ _ hlen, perform_execute_eq _ _ hlen]
      refine (outcomes_record h _ _).andThen
        (fun _ _ alike => (outcomes_execSlots alike _ _).thenSkip 4) fun _ t behind => ?_
      rw [trace_thenSkip]
      exact behind_of_evolves (evolves_execSlots _ _ t) behind
  | load cache src slot => exact outcomes_load h cache src slot
  | continueLoad len => exact .same h _
  | _ => exact datapath

theorem Alike.fetch (h : L.Alike s t) : t.machine.fetch = s.machine.fetch := by
  rw [Machine.fetch, Machine.fetch, L.pc h.machine, L.word h.machine]

theorem outcomes_step (h : L.Alike s t) (limits : Limits) :
    L.Outcomes (s.step limits) (t.step limits) := by
  cases hf : s.machine.fetch with
  | error f =>
    rw [step_of_fetch_eq_error hf, step_of_fetch_eq_error (h.fetch.trans hf)]
    exact .same h _
  | ok op =>
    rw [step_of_fetch_eq_ok hf, step_of_fetch_eq_ok (h.fetch.trans hf)]
    exact outcomes_perform h limits op

/-! ### Runs -/

/-- Only an instruction that was fetched can fail for its trace line. -/
theorem exists_fetch_of_step_eq_trace (h : s.step limits = (t, .error .trace)) :
    ∃ op, s.machine.fetch = .ok op := by
  cases hf : s.machine.fetch with
  | ok op => exact ⟨op, rfl⟩
  | error f =>
    rw [step_of_fetch_eq_error hf] at h
    cases h
    exact absurd hf s.machine.fetch_ne_trace

theorem trace_runSteps {P : Option Trace → Prop} (keeps : ∀ t l, P t → P (t.map (·.push l)))
    (n : Nat) (h : P s.trace) : P (runSteps limits n s).1.trace := by
  induction n generalizing s with
  | zero => exact h
  | succ n ih =>
    have stepped := (evolves_step limits s.addStep).trace keeps h
    rw [runSteps]
    split
    next hx =>
      rw [hx] at stepped
      exact ih stepped
    next hx =>
      rw [hx] at stepped
      exact stepped
    next hx =>
      rw [hx] at stepped
      exact stepped

theorem exists_passes (h : L.Alike s t) (passes : Passes limits s ops u) :
    ∃ v, Passes limits t ops v ∧ L.Alike u v := by
  induction passes generalizing t with
  | nil => exact ⟨t, .nil t, h⟩
  | cons first _ ih =>
    have outcomes := outcomes_step h.addStep limits
    rw [first.step] at outcomes
    generalize hy : t.addStep.step limits = y at outcomes
    cases outcomes with
    | same alike =>
      obtain ⟨v, passes, alike⟩ := ih alike
      exact ⟨v, .cons ⟨h.fetch.trans first.fetch, hy⟩ passes, alike⟩

theorem exists_reaches (h : L.Alike s t) (reaches : Reaches limits start s ops u) :
    ∃ v, Reaches limits start t ops v ∧ L.Alike u v := by
  obtain ⟨v, passes, alike⟩ := exists_passes (h.jump start) reaches.passes
  exact ⟨v, ⟨reaches.valid, h.counters ▸ reaches.length_le, passes⟩, alike⟩

/-- Both runs come to the same, or the first one stops at an instruction that it cannot trace.  The
second one comes to that instruction too and goes on. -/
theorem run_cases (h : L.Alike s t) (limits : Limits) (start : Nat) :
    let x := s.run limits start
    let y := t.run limits start
    (x.2 = y.2 ∧ L.Alike x.1 y.1) ∨
      ∃ ops u v op, Reaches limits start s ops u ∧ Reaches limits start t ops v ∧ L.Alike u v ∧
        v.counters.steps < limits.maxSteps ∧ v.machine.fetch = .ok op ∧
        x.2 = .error ⟨some v.machine.pc, .trace⟩ ∧ L.behind x.1.trace y.1.trace := by
  cases hpc : pcFault? start with
  | some f =>
    rw [run_of_pcFault? hpc, run_of_pcFault? hpc]
    exact .inl ⟨rfl, h⟩
  | none =>
    obtain ⟨ops, u, reaches, ends⟩ := exists_ends_run limits s hpc
    obtain ⟨v, reaches', alike⟩ := exists_reaches h reaches
    have outcomes := outcomes_step alike.addStep limits
    rw [reaches'.run_eq, alike.counters]
    generalize hn : limits.maxSteps - u.counters.steps = n at ends
    generalize s.run limits start = x at ends
    cases ends with
    | limit =>
      rw [runSteps, L.pc alike.machine]
      exact .inl ⟨rfl, alike⟩
    | halt hstep =>
      rw [hstep] at outcomes
      rw [runSteps]
      generalize v.addStep.step limits = y at outcomes
      cases outcomes with
      | same alike => exact .inl ⟨rfl, alike⟩
    | @fault _ w f hstep =>
      rw [hstep] at outcomes
      rw [runSteps]
      generalize v.addStep.step limits = y at outcomes
      cases outcomes with
      | same alike =>
        dsimp only
        rw [L.pc alike.machine]
        exact .inl ⟨rfl, alike⟩
      | behind behind result =>
        obtain ⟨op, hf⟩ := exists_fetch_of_step_eq_trace hstep
        refine .inr ⟨ops, u, v, op, reaches, reaches', alike, by rw [alike.counters]; omega,
          alike.fetch.trans hf, ?_, ?_⟩
        · rw [(step_eq_error hstep).1, L.pc alike.machine]
          rfl
        · cases result with
          | error g => exact behind
          | ok flow =>
            cases flow with
            | halt => exact behind
            | next => exact trace_runSteps (P := L.behind w.trace) (fun _ _ h => L.stay h) _ behind

end Likeness

/-! ### Actions -/

namespace Session

/-- The action comes to the same in sessions that are alike, unless it stops in the first for a line
that its trace refuses; `failed` are the outcomes that it then may have, the second session given. -/
def Respects {ε α : Type} (action : Session → Session × Except ε α)
    (failed : Session → Except ε α → Prop) : Prop :=
  ∀ (L : Likeness) (s t : Session), L.Alike s t →
    ((action s).2 = (action t).2 ∧ L.Alike (action s).1 (action t).1) ∨
      failed t (action s).2 ∧ L.behind (action s).1.trace (action t).1.trace

/-- The run of a session from an address carries out an instruction at `pc`. -/
def CarriesOutAt (limits : Limits) (start : Nat) (s : Session) (pc : Nat) : Prop :=
  ∃ ops u op, Reaches limits start s ops u ∧ u.counters.steps < limits.maxSteps ∧
    u.machine.fetch = .ok op ∧ u.machine.pc = pc

theorem respects_exec (op : Op) :
    Respects (·.exec op) fun _ outcome => outcome = .error .trace := by
  intro L s t alike
  have outcomes := Likeness.outcomes_exec alike op
  dsimp only
  generalize s.exec op = x at outcomes
  generalize t.exec op = y at outcomes
  cases outcomes with
  | same alike result => exact .inl ⟨rfl, alike⟩
  | behind behind => exact .inr ⟨rfl, behind⟩

theorem respects_run (limits : Limits) (start : Nat) :
    Respects (·.run limits start) fun t outcome =>
      ∃ pc, outcome = .error ⟨some pc, .trace⟩ ∧ CarriesOutAt limits start t pc := by
  intro L s t alike
  rcases Likeness.run_cases alike limits start with
    same | ⟨ops, u, v, op, -, reaches, -, hv, hf, outcome, behind⟩
  · exact .inl same
  · exact .inr ⟨⟨_, outcome, ops, v, op, reaches, hv, hf, rfl⟩, behind⟩

end Session

end Macc
