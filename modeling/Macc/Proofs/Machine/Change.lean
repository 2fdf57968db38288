import Macc.Machine.Sequencer
import Macc.Proofs.Instruction.RoundTrip
import Mathlib.Logic.Relation

/-!
# What instructions change

Instructions work on a machine by a few kinds of changes (`Machine.Change`), and on a session by
these, by counting and by tracing (`Session.Change`).  Every action of a session, whether it
succeeds or faults, comes down to such changes one after another (`Session.Evolves`), so a law of
all actions is a law of the changes.

The lemmas whose names end in `_cases` say all that one action can come to.  What an action leaves
when it faults, and what it does when it succeeds, is read off them.

The datapath has no part in the control of the program: what an instruction from the code cache
leaves alone is `Machine.SameControl`.
-/

namespace Macc

open Relation

theorem pcFault?_eq_none_iff (pc : Nat) : pcFault? pc = none ↔ pc < memorySize ∧ pc % 4 = 0 := by
  unfold pcFault?
  split
  next h => exact iff_of_false (Option.some_ne_none _) fun k => Nat.not_lt.2 h k.1
  next h =>
    split
    next h' => exact iff_of_false (Option.some_ne_none _) fun k => h' k.2
    next h' => exact iff_of_true rfl ⟨Nat.not_le.1 h, Decidable.not_not.1 h'⟩

namespace Machine

/-! ### Changes of a machine -/

/-- A change of the machine by an instruction, or by the start of a run. -/
inductive Change (m : Machine) : Machine → Prop
  | apply (op : Op) : Change m (m.apply op).1
  | load (cache : Cache) (src : Address) (slot : Slot) : Change m (m.load cache src slot)
  | pushReturn (h : pcFault? m.pc = none) : Change m (m.pushReturn (m.pc + 4))
  | returnTo {back : Nat} (h : m.stack.back? = some back) : Change m (m.returnTo back)
  | jump {pc : Nat} (h : pc < memorySize) : Change m { m with pc := pc }
  | skip {n : Nat} (h : pcFault? m.pc = none) (hn : n = 4 ∨ n = 8) :
      Change m { m with pc := m.pc + n }

theorem changes_loadMany (m : Machine) (cache : Cache) (src : Address) (slot : Slot) (n : Nat) :
    ReflTransGen Change m (m.loadMany cache src slot n) := by
  induction n generalizing m src slot with
  | zero => exact .refl
  | succ n ih => exact .head (.load cache src slot) (ih _ _ _)

/-- The instruction in an entry of the code cache, which has to be the datapath's. -/
def fetchSlot (m : Machine) (slot : Slot) : Except Fault Op :=
  match Op.decode (m.code.get slot.toFin) with
  | .error e => .error (.decode e)
  | .ok op => if op.opcode.isSequencer then .error (.notDatapath op.opcode) else .ok op

/-! ### Frames -/

/-- The same program counter, call stack and caches. -/
structure SameControl (m n : Machine) : Prop where
  pc : n.pc = m.pc
  stack : n.stack = m.stack
  code : n.code = m.code
  coeff0 : n.coeff0 = m.coeff0
  coeff1 : n.coeff1 = m.coeff1

theorem SameControl.refl (m : Machine) : SameControl m m := ⟨rfl, rfl, rfl, rfl, rfl⟩

theorem SameControl.trans {m n k : Machine} (h : SameControl m n) (h' : SameControl n k) :
    SameControl m k :=
  ⟨h'.pc.trans h.pc, h'.stack.trans h.stack, h'.code.trans h.code, h'.coeff0.trans h.coeff0,
    h'.coeff1.trans h.coeff1⟩

/-- The datapath changes base registers, accumulators and memory only. -/
theorem sameControl_apply (m : Machine) (op : Op) : SameControl m (m.apply op).1 := by
  fun_cases apply m op with
  | case1 b v => cases b <;> exact ⟨rfl, rfl, rfl, rfl, rfl⟩
  | case2 b v => cases b <;> exact ⟨rfl, rfl, rfl, rfl, rfl⟩
  | case4 lanes => cases lanes <;> exact ⟨rfl, rfl, rfl, rfl, rfl⟩
  | case6 lanes => cases lanes <;> exact ⟨rfl, rfl, rfl, rfl, rfl⟩
  | _ => exact ⟨rfl, rfl, rfl, rfl, rfl⟩

theorem pc_load (m : Machine) (cache : Cache) (src : Address) (slot : Slot) :
    (m.load cache src slot).pc = m.pc := by
  cases cache <;> rfl

theorem stack_load (m : Machine) (cache : Cache) (src : Address) (slot : Slot) :
    (m.load cache src slot).stack = m.stack := by
  cases cache <;> rfl

theorem pc_loadMany (m : Machine) (cache : Cache) (src : Address) (slot : Slot) (n : Nat) :
    (m.loadMany cache src slot n).pc = m.pc := by
  induction n generalizing m src slot with
  | zero => rfl
  | succ n ih => exact (ih _ _ _).trans (m.pc_load cache src slot)

theorem stack_loadMany (m : Machine) (cache : Cache) (src : Address) (slot : Slot) (n : Nat) :
    (m.loadMany cache src slot n).stack = m.stack := by
  induction n generalizing m src slot with
  | zero => rfl
  | succ n ih => exact (ih _ _ _).trans (m.stack_load cache src slot)

/-- How many times a load at the program counter is to be repeated. -/
def lookAhead (m : Machine) : Except Fault (Option Word) :=
  repeats? (m.mem.word (.ofNat 17 (m.pc + 4)))

theorem lookAhead_load (m : Machine) (cache : Cache) (src : Address) (slot : Slot) :
    (m.load cache src slot).lookAhead = m.lookAhead := by
  rw [lookAhead, mem_load, pc_load, lookAhead]

end Machine

namespace Session

/-! ### Changes of a session -/

/-- Write a trace line that the trace can take. -/
def write (s : Session) (l : TraceLine) : Session := { s with trace := s.trace.map (·.push l) }

/-- A change of the session by an action. -/
inductive Change (s : Session) : Session → Prop
  | machine {m : Machine} (h : s.machine.Change m) : Change s { s with machine := m }
  | addCycles (n : Nat) : Change s (s.addCycles n)
  | addOp : Change s s.addOp
  | write (l : TraceLine) : Change s (s.write l)

/-- Changes one after another. -/
abbrev Evolves : Session → Session → Prop := ReflTransGen Change

theorem evolves_machine {s : Session} {m : Machine} (h : ReflTransGen Machine.Change s.machine m) :
    Evolves s { s with machine := m } := by
  induction h with
  | refl => exact .refl
  | tail _ change ih => exact .tail ih (.machine change)

theorem Evolves.changes {s t : Session} (h : Evolves s t) :
    ReflTransGen Machine.Change s.machine t.machine := by
  induction h with
  | refl => exact .refl
  | tail _ change ih =>
    cases change with
    | machine change => exact .tail ih change
    | _ => exact ih

/-- No action counts steps; the run does. -/
theorem Evolves.steps {s t : Session} (h : Evolves s t) : t.counters.steps = s.counters.steps := by
  induction h with
  | refl => rfl
  | tail _ change ih => cases change <;> exact ih

/-- Actions change the trace by writing lines only. -/
theorem Evolves.trace {P : Option Trace → Prop} (keeps : ∀ t l, P t → P (t.map (·.push l)))
    {s t : Session} (h : Evolves s t) (hs : P s.trace) : P t.trace := by
  induction h with
  | refl => exact hs
  | tail _ change ih =>
    cases change with
    | write l => exact keeps _ l ih
    | _ => exact ih

/-! ### Actions of the datapath -/

theorem record_cases (s : Session) (op : Op) (effect : Effect) :
    s.record op effect = (s, .error .trace) ∨
      s.record op effect = (s.write ⟨op, effect⟩, .ok ()) := by
  unfold record
  split
  · exact .inl rfl
  · exact .inr rfl

theorem evolves_record (s : Session) (op : Op) (effect : Effect) :
    Evolves s (s.record op effect).1 := by
  rcases s.record_cases op effect with h | h
  · rw [h]
  · rw [h]
    exact .single (.write _)

/-- An instruction of the datapath takes a cycle and faults, or is applied and then fails at most
for its trace line. -/
theorem exec_cases (s : Session) (op : Op) :
    (∃ f, s.machine.apply op = (s.machine, .error f) ∧ s.exec op = (s.addCycles 1, .error f)) ∨
    ∃ m effect, s.machine.apply op = (m, .ok effect) ∧
      s.exec op =
        let applied := ({ s with machine := m } : Session).addCycles 1
        (if op.isReduction then applied.addOp else applied).record op effect := by
  cases happly : s.machine.apply op with
  | mk m result =>
    cases result with
    | error f =>
      have same : (s.machine.apply op).1 = s.machine :=
        Machine.fst_apply_of_error (congrArg Prod.snd happly)
      rw [happly] at same
      obtain rfl : m = s.machine := same
      exact .inl ⟨f, rfl, by simp only [exec, addCycles, happly]⟩
    | ok effect => exact .inr ⟨m, effect, rfl, by simp only [exec, addCycles, happly]⟩

theorem machine_exec (s : Session) (op : Op) :
    (s.exec op).1.machine = (s.machine.apply op).1 := by
  rcases s.exec_cases op with ⟨f, happly, hexec⟩ | ⟨m, effect, happly, hexec⟩
  · rw [hexec, happly]
    rfl
  · rw [hexec, happly, machine_record]
    split <;> rfl

theorem evolves_exec (s : Session) (op : Op) : Evolves s (s.exec op).1 := by
  rcases s.exec_cases op with ⟨f, -, hexec⟩ | ⟨m, effect, happly, hexec⟩
  · rw [hexec]
    exact .single (.addCycles 1)
  · have applied : Evolves s (({ s with machine := m } : Session).addCycles 1) := by
      have change := Machine.Change.apply (m := s.machine) op
      rw [happly] at change
      exact .tail (.single (.machine change)) (.addCycles 1)
    rw [hexec]
    split
    · exact .trans (.tail applied .addOp) (evolves_record _ _ _)
    · exact .trans applied (evolves_record _ _ _)

theorem execSlot_of_fetchSlot_eq_error {s : Session} {slot : Slot} {f : Fault}
    (h : s.machine.fetchSlot slot = .error f) : s.execSlot slot = (s, .error f) := by
  have word : s.machine.code[slot.toFin] = s.machine.code.get slot.toFin := rfl
  unfold Machine.fetchSlot at h
  rw [execSlot, word]
  cases hd : Op.decode (s.machine.code.get slot.toFin) with
  | error e =>
    rw [hd] at h
    cases h
    rfl
  | ok op =>
    rw [hd] at h
    dsimp only at h ⊢
    by_cases hs : op.opcode.isSequencer
    · rw [if_pos hs] at h ⊢
      cases h
      rfl
    · rw [if_neg hs] at h
      cases h

theorem execSlot_of_fetchSlot_eq_ok {s : Session} {slot : Slot} {op : Op}
    (h : s.machine.fetchSlot slot = .ok op) : s.execSlot slot = s.exec op := by
  have word : s.machine.code[slot.toFin] = s.machine.code.get slot.toFin := rfl
  unfold Machine.fetchSlot at h
  rw [execSlot, word]
  cases hd : Op.decode (s.machine.code.get slot.toFin) with
  | error e =>
    rw [hd] at h
    cases h
  | ok op =>
    rw [hd] at h
    dsimp only at h ⊢
    by_cases hs : op.opcode.isSequencer
    · rw [if_pos hs] at h
      cases h
    · rw [if_neg hs] at h ⊢
      cases h
      rfl

theorem evolves_execSlot (s : Session) (slot : Slot) : Evolves s (s.execSlot slot).1 := by
  cases hf : s.machine.fetchSlot slot with
  | error f => rw [execSlot_of_fetchSlot_eq_error hf]
  | ok op =>
    rw [execSlot_of_fetchSlot_eq_ok hf]
    exact s.evolves_exec op

theorem sameControl_execSlot (s : Session) (slot : Slot) :
    s.machine.SameControl (s.execSlot slot).1.machine := by
  cases hf : s.machine.fetchSlot slot with
  | error f =>
    rw [execSlot_of_fetchSlot_eq_error hf]
    exact .refl _
  | ok op =>
    rw [execSlot_of_fetchSlot_eq_ok hf, machine_exec]
    exact s.machine.sameControl_apply op

/-- A law of single entries of the code cache, if it can be chained, is a law of several. -/
theorem execSlots_induction {R : Session → Session → Prop} (refl : ∀ s, R s s)
    (trans : ∀ {s t u}, R s t → R t u → R s u) (one : ∀ s slot, R s (s.execSlot slot).1)
    (slot : Slot) (n : Nat) (s : Session) : R s (execSlots slot n s).1 := by
  induction n generalizing slot s with
  | zero => exact refl s
  | succ n ih =>
    have first := one s slot
    rw [execSlots]
    split
    next t h =>
      rw [h] at first
      exact trans first (ih _ _)
    next t f h =>
      rw [h] at first
      exact first

theorem evolves_execSlots (slot : Slot) (n : Nat) (s : Session) :
    Evolves s (execSlots slot n s).1 :=
  execSlots_induction (fun _ => .refl) .trans evolves_execSlot slot n s

theorem sameControl_execSlots (slot : Slot) (n : Nat) (s : Session) :
    s.machine.SameControl (execSlots slot n s).1.machine :=
  execSlots_induction (R := fun s t => s.machine.SameControl t.machine) (fun _ => .refl _)
    .trans sameControl_execSlot slot n s

/-! ### Actions of the sequencer -/

variable {limits : Limits} {s : Session}

/-- The session with the address behind the instruction on the call stack. -/
def pushReturn (s : Session) : Session :=
  { s with machine := s.machine.pushReturn (s.machine.pc + 4) }

theorem perform_call_of_le (h : limits.maxDepth ≤ s.machine.depth) (target : Word) :
    s.perform limits (.call target) = (s, .error (.depthLimit limits.maxDepth)) := if_pos h

theorem perform_call_of_lt (h : s.machine.depth < limits.maxDepth) (target : Word) :
    s.perform limits (.call target) =
      match s.pushReturn.record (.call target) (.depth s.pushReturn.machine.depth) with
      | (s, .error f) => (s, .error f)
      | (s, .ok ()) => (s.jump target.toNat, .ok .next) := if_neg (Nat.not_le.2 h)

/-- A call is one too many, cannot be traced, or is carried out. -/
theorem perform_call_cases (limits : Limits) (s : Session) (target : Word) :
    limits.maxDepth ≤ s.machine.depth ∧
        s.perform limits (.call target) = (s, .error (.depthLimit limits.maxDepth)) ∨
      s.machine.depth < limits.maxDepth ∧
        (s.perform limits (.call target) = (s.pushReturn, .error .trace) ∨
          ∃ l, s.perform limits (.call target) =
            ((s.pushReturn.write l).jump target.toNat, .ok .next)) := by
  rcases Nat.lt_or_ge s.machine.depth limits.maxDepth with hd | hd
  · refine .inr ⟨hd, ?_⟩
    rw [perform_call_of_lt hd]
    rcases s.pushReturn.record_cases (.call target) (.depth s.pushReturn.machine.depth) with h | h
    · rw [h]
      exact .inl rfl
    · rw [h]
      exact .inr ⟨_, rfl⟩
  · exact .inl ⟨hd, perform_call_of_le hd target⟩

/-- A return cannot be traced, halts, or goes back. -/
theorem perform_ret_cases (limits : Limits) (s : Session) :
    s.perform limits .ret = (s, .error .trace) ∨
      ∃ l, s.machine.stack = #[] ∧ s.perform limits .ret = (s.write l, .ok .halt) ∨
        ∃ back, s.machine.stack.back? = some back ∧ s.perform limits .ret =
          ({ s.write l with machine := s.machine.returnTo back }, .ok .next) := by
  unfold perform
  dsimp only
  rcases s.record_cases .ret (.depth s.machine.depth) with h | h
  · rw [h]
    exact .inl rfl
  · rw [h]
    refine .inr ⟨⟨.ret, .depth s.machine.depth⟩, ?_⟩
    dsimp only [write]
    cases hb : s.machine.stack.back? with
    | none => exact .inl ⟨Array.back?_eq_none_iff.1 hb, rfl⟩
    | some back => exact .inr ⟨back, rfl, rfl⟩

/-- An execute is too long, cannot be traced, or is carried out. -/
theorem perform_execute_cases (limits : Limits) (s : Session) (slot len : Word) :
    cacheSize < len.toNat ∧
        s.perform limits (.execute slot len) = (s, .error (.countTooLarge len)) ∨
      len.toNat ≤ cacheSize ∧
        (s.perform limits (.execute slot len) = (s, .error .trace) ∨
          ∃ l, s.perform limits (.execute slot len) =
            thenSkip 4 (execSlots (slot.setWidth 9) len.toNat (s.write l))) := by
  unfold perform
  dsimp only
  by_cases hlen : cacheSize < len.toNat
  · exact .inl ⟨hlen, if_pos hlen⟩
  · refine .inr ⟨Nat.not_lt.1 hlen, ?_⟩
    rw [if_neg hlen]
    rcases s.record_cases (.execute slot len) (.microOps len.toNat) with h | h
    · rw [h]
      exact .inl rfl
    · rw [h]
      exact .inr ⟨_, rfl⟩

/-- The session after a load of one entry of a cache. -/
def loadOne (s : Session) (cache : Cache) (src slot : Word) : Session :=
  addCycles { s with machine := s.machine.load cache (src.setWidth 17) (slot.setWidth 9) } 1

/-- The session after the repeats of a load that has loaded its own entry. -/
def loadRest (s : Session) (cache : Cache) (src slot : Word) (n : Nat) : Session :=
  let src := src.setWidth 17 + BitVec.ofNat 17 cache.stride
  let machine := s.machine.loadMany cache src (slot.setWidth 9 + 1) n
  addCycles { s with machine } n

theorem load_eq (s : Session) (cache : Cache) (src slot : Word) :
    s.load cache src slot =
      let one := s.loadOne cache src slot
      match s.machine.lookAhead with
      | .error f => (one, .error f)
      | .ok none => thenSkip 4 (one.record (.load cache src slot) (.loaded none))
      | .ok (some len) =>
        if cacheSize ≤ len.toNat then (one, .error (.countTooLarge len))
        else
          thenSkip 8 ((one.loadRest cache src slot len.toNat).record (.load cache src slot)
            (.loaded (some len.toNat))) := by
  rw [← s.machine.lookAhead_load cache (src.setWidth 17) (slot.setWidth 9)]
  rfl

/-- A load loads its own entry.  Then what stands behind it is at fault, or it loads what else it
has to and is traced. -/
theorem load_cases (s : Session) (cache : Cache) (src slot : Word) :
    let one := s.loadOne cache src slot
    (∃ f, (repeats? (one.machine.mem.word (.ofNat 17 (one.machine.pc + 4))) = .error f ∨
          ∃ len, f = .countTooLarge len) ∧ s.load cache src slot = (one, .error f)) ∨
      ∃ t n effect, Evolves one t ∧ t.machine.pc = s.machine.pc ∧
        t.machine.stack = s.machine.stack ∧ (n = 4 ∨ n = 8) ∧
        s.load cache src slot = thenSkip n (t.record (.load cache src slot) effect) := by
  have hpc := s.machine.pc_load cache (src.setWidth 17) (slot.setWidth 9)
  have hstack := s.machine.stack_load cache (src.setWidth 17) (slot.setWidth 9)
  unfold load
  dsimp only
  split
  next f hr => exact .inl ⟨f, .inl hr, rfl⟩
  next => exact .inr ⟨s.loadOne cache src slot, 4, _, .refl, hpc, hstack, .inl rfl, rfl⟩
  next len _ =>
    split
    · exact .inl ⟨_, .inr ⟨len, rfl⟩, rfl⟩
    · refine .inr ⟨_, 8, _, .tail (evolves_machine (Machine.changes_loadMany _ cache _ _ _))
        (.addCycles len.toNat), ?_, ?_, .inr rfl, rfl⟩
      · exact (Machine.pc_loadMany _ _ _ _ _).trans hpc
      · exact (Machine.stack_loadMany _ _ _ _ _).trans hstack

theorem evolves_jump {pc : Nat} (h : pc < memorySize) : Evolves s (s.jump pc) :=
  .single (.machine (.jump h))

theorem evolves_thenSkip {x : Session × Except Fault Unit} {n : Nat} (hx : Evolves s x.1)
    (hpc : pcFault? x.1.machine.pc = none) (hn : n = 4 ∨ n = 8) : Evolves s (thenSkip n x).1 := by
  obtain ⟨t, result⟩ := x
  cases result with
  | error f => exact hx
  | ok => exact .tail hx (.machine (.skip hpc hn))

theorem evolves_loadOne (s : Session) (cache : Cache) (src slot : Word) :
    Evolves s (s.loadOne cache src slot) :=
  .tail (.single (.machine (.load _ _ _))) (.addCycles 1)

theorem evolves_load (hpc : pcFault? s.machine.pc = none) (cache : Cache) (src slot : Word) :
    Evolves s (s.load cache src slot).1 := by
  have loaded := s.evolves_loadOne cache src slot
  rcases s.load_cases cache src slot with ⟨f, -, h⟩ | ⟨t, n, effect, ht, same, -, hn, h⟩
  · rw [h]
    exact loaded
  · rw [h]
    refine evolves_thenSkip ((loaded.trans ht).trans (evolves_record _ _ _)) ?_ hn
    rw [machine_record, same]
    exact hpc

/-- Carrying out an instruction comes down to changes, if it stands at a valid address and its
operands fit their fields. -/
theorem evolves_perform {op : Op} (hpc : pcFault? s.machine.pc = none)
    (fits : op.Fits) : Evolves s (s.perform limits op).1 := by
  have datapath : Evolves s (thenSkip 4 (s.exec op)).1 := by
    refine evolves_thenSkip (s.evolves_exec op) ?_ (.inl rfl)
    rw [machine_exec, (s.machine.sameControl_apply op).pc]
    exact hpc
  cases op with
  | sync =>
    refine evolves_thenSkip (.trans (.single (.addCycles 8)) (evolves_record _ _ _)) ?_ (.inl rfl)
    rw [machine_record]
    exact hpc
  | call target =>
    have pushed : Evolves s s.pushReturn := .single (.machine (.pushReturn hpc))
    rcases perform_call_cases limits s target with ⟨-, h⟩ | ⟨-, h | ⟨l, h⟩⟩
    · rw [h]
    · rw [h]
      exact pushed
    · rw [h]
      exact (pushed.tail (.write l)).trans (evolves_jump fits.1)
  | ret =>
    rcases perform_ret_cases limits s with h | ⟨l, ⟨-, h⟩ | ⟨back, hb, h⟩⟩
    · rw [h]
    · rw [h]
      exact .single (.write l)
    · rw [h]
      exact .tail (.single (.write l)) (.machine (.returnTo hb))
  | execute slot len =>
    rcases perform_execute_cases limits s slot len with ⟨-, h⟩ | ⟨-, h | ⟨l, h⟩⟩
    · rw [h]
    · rw [h]
    · rw [h]
      refine evolves_thenSkip (.trans (.single (.write l)) (evolves_execSlots _ _ _)) ?_ (.inl rfl)
      rw [(sameControl_execSlots _ _ _).pc]
      exact hpc
  | load cache src slot => exact evolves_load hpc cache src slot
  | continueLoad len => exact .refl
  | _ => exact datapath

theorem evolves_step (limits : Limits) (s : Session) : Evolves s (s.step limits).1 := by
  unfold step
  split
  · exact .refl
  next hpc =>
    split
    · exact .refl
    next hd => exact evolves_perform hpc (Op.encode_of_decode hd).2

end Session

end Macc
