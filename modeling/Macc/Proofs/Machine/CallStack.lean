import Macc.Proofs.Machine.Runs

/-!
# The call stack

An instruction that the program goes on from adds the address behind it to the call stack, takes the
newest one off and goes there, or leaves the call stack alone (`Machine.StackStep`).  So the depth
of the call stack counts the calls that have not come back yet, what lies under the return address
of a call stays there until the call comes back (`Session.ComesBack`), and the program halts when it
returns with nothing to return to (`Session.HaltsAt`).  `Session.run_callStack` has these laws
together.
-/

namespace Macc

def Op.isCall : Op → Bool
  | call _ => true
  | _ => false

namespace Machine

variable {maxDepth : Nat} {m n : Machine} {op : Op}

/-- What an instruction that the program goes on from does to the call stack. -/
inductive StackStep (maxDepth : Nat) (m : Machine) : Op → Machine → Prop
  | call {target : Word} {n : Machine} (h : m.depth < maxDepth)
      (stack : n.stack = m.stack.push (m.pc + 4)) : StackStep maxDepth m (.call target) n
  | ret {n : Machine} (stack : m.stack = n.stack.push n.pc) : StackStep maxDepth m .ret n
  | other {op : Op} {n : Machine} (notCall : op.isCall = false) (notRet : op ≠ .ret)
      (stack : n.stack = m.stack) : StackStep maxDepth m op n

theorem StackStep.depth_add (h : StackStep maxDepth m op n) :
    n.depth + [op].count .ret = m.depth + [op].countP Op.isCall := by
  cases h with
  | call h stack =>
    rw [depth, stack, Array.size_push]
    rfl
  | ret stack =>
    rw [depth, depth, stack, Array.size_push]
    rfl
  | other notCall notRet stack =>
    rw [depth, stack, List.count_singleton, List.countP_singleton, notCall,
      if_neg (by simpa using notRet)]
    rfl

theorem StackStep.depth_le (h : StackStep maxDepth m op n) : n.depth ≤ max m.depth maxDepth := by
  cases h with
  | call h stack =>
    rw [depth, stack, Array.size_push]
    exact Nat.le_trans h (Nat.le_max_right _ _)
  | ret stack =>
    rw [depth, depth, stack, Array.size_push]
    exact Nat.le_trans (Nat.le_succ _) (Nat.le_max_left _ _)
  | other notCall notRet stack =>
    rw [depth, stack]
    exact Nat.le_max_left _ _

/-- A return address, with all that lies under it, stays on the call stack except for the return
that goes there. -/
theorem StackStep.keeps_or_returns {under : List Nat} {back : Nat} (h : StackStep maxDepth m op n)
    (hm : under ++ [back] <+: m.stack.toList) :
    under ++ [back] <+: n.stack.toList ∨ op = .ret ∧ n.pc = back ∧ n.stack.toList = under := by
  cases h with
  | call h stack =>
    rw [stack, Array.toList_push]
    exact .inl (hm.trans (List.prefix_append _ _))
  | ret stack =>
    rw [stack, Array.toList_push, List.prefix_concat_iff] at hm
    rcases hm with same | below
    · obtain ⟨hunder, hback⟩ := List.append_inj' same rfl
      exact .inr ⟨rfl, (List.singleton_inj.1 hback).symm, hunder.symm⟩
    · exact .inl below
  | other notCall notRet stack =>
    rw [stack]
    exact .inl hm

end Machine

namespace Session

variable {limits : Limits} {s t u v w x : Session} {op : Op} {ops : List Op} {start : Nat}

/-! ### Instructions that succeed -/

theorem thenSkip_eq_ok {n : Nat} {x : Session × Except Fault Unit} {flow : Flow}
    (h : thenSkip n x = (t, .ok flow)) : flow = .next ∧ t.machine.stack = x.1.machine.stack := by
  obtain ⟨u, result⟩ := x
  cases result with
  | error f => cases h
  | ok =>
    cases h
    exact ⟨rfl, rfl⟩

theorem load_eq_ok {cache : Cache} {src slot : Word} {flow : Flow}
    (h : s.load cache src slot = (t, .ok flow)) :
    flow = .next ∧ t.machine.stack = s.machine.stack := by
  rcases s.load_cases cache src slot with ⟨f, -, hx⟩ | ⟨u, n, effect, -, -, same, -, hx⟩
  · rw [hx] at h
    cases h
  · rw [hx] at h
    obtain ⟨hflow, stack⟩ := thenSkip_eq_ok h
    rw [machine_record] at stack
    exact ⟨hflow, stack.trans same⟩

/-- An instruction that succeeds either is one that the program goes on from, or is the return with
an empty call stack, which halts and changes nothing. -/
theorem perform_eq_ok {flow : Flow} (h : s.perform limits op = (t, .ok flow)) :
    (flow = .next ∧ s.machine.StackStep limits.maxDepth op t.machine) ∨
      (flow = .halt ∧ op = .ret ∧ s.machine.stack = #[] ∧ t.machine = s.machine) := by
  have other (notCall : op.isCall = false) (notRet : op ≠ .ret)
      (h : flow = .next ∧ t.machine.stack = s.machine.stack) :
      (flow = .next ∧ s.machine.StackStep limits.maxDepth op t.machine) ∨
        (flow = .halt ∧ op = .ret ∧ s.machine.stack = #[] ∧ t.machine = s.machine) :=
    .inl ⟨h.1, .other notCall notRet h.2⟩
  have datapath (h : thenSkip 4 (s.exec op) = (t, .ok flow)) :
      flow = .next ∧ t.machine.stack = s.machine.stack := by
    obtain ⟨hflow, stack⟩ := thenSkip_eq_ok h
    rw [machine_exec, (s.machine.sameControl_apply op).stack] at stack
    exact ⟨hflow, stack⟩
  cases op with
  | sync =>
    obtain ⟨hflow, stack⟩ := thenSkip_eq_ok h
    rw [machine_record] at stack
    exact other rfl Op.noConfusion ⟨hflow, stack⟩
  | call target =>
    rcases perform_call_cases limits s target with ⟨-, hx⟩ | ⟨hd, hx | ⟨l, hx⟩⟩ <;>
      rw [hx] at h <;> cases h
    exact .inl ⟨rfl, .call hd rfl⟩
  | ret =>
    rcases perform_ret_cases limits s with hx | ⟨l, ⟨empty, hx⟩ | ⟨back, hb, hx⟩⟩ <;>
      rw [hx] at h <;> cases h
    · exact .inr ⟨rfl, rfl, empty, rfl⟩
    · obtain ⟨rest, hrest⟩ := Array.back?_eq_some_iff.1 hb
      refine .inl ⟨rfl, .ret (hrest.trans ?_)⟩
      rw [Machine.returnTo, hrest, Array.pop_push]
  | execute slot len =>
    rcases perform_execute_cases limits s slot len with ⟨-, hx⟩ | ⟨-, hx | ⟨l, hx⟩⟩
    · rw [hx] at h
      cases h
    · rw [hx] at h
      cases h
    · rw [hx] at h
      obtain ⟨hflow, stack⟩ := thenSkip_eq_ok h
      rw [(sameControl_execSlots _ _ _).stack] at stack
      exact other rfl Op.noConfusion ⟨hflow, stack⟩
  | load cache src slot => exact other rfl Op.noConfusion (load_eq_ok h)
  | continueLoad len => cases h
  | _ => exact other rfl Op.noConfusion (datapath h)

theorem Completes.stackStep (h : Completes limits s op t) :
    s.machine.StackStep limits.maxDepth op t.machine := by
  rcases perform_eq_ok h.perform with ⟨-, step⟩ | ⟨halts, -⟩
  · exact step
  · cases halts

/-! ### Depth -/

theorem Passes.depth_add (h : Passes limits s ops u) :
    u.machine.depth + ops.count .ret = s.machine.depth + ops.countP Op.isCall := by
  induction h with
  | nil => rfl
  | cons first _ ih =>
    have step := first.stackStep.depth_add
    rw [← List.singleton_append, List.count_append, List.countP_append]
    omega

theorem Passes.depth_le (h : Passes limits s ops u) :
    u.machine.depth ≤ max s.machine.depth limits.maxDepth := by
  induction h with
  | nil => exact Nat.le_max_left _ _
  | cons first _ ih =>
    have step := first.stackStep.depth_le
    omega

/-! ### Calls that come back -/

theorem Passes.exists_of_append {ops' : List Op} (h : Passes limits s (ops ++ ops') u) :
    ∃ t, Passes limits s ops t ∧ Passes limits t ops' u := by
  induction ops generalizing s with
  | nil => exact ⟨s, .nil s, h⟩
  | cons op ops ih =>
    cases h with
    | cons first rest =>
      obtain ⟨t, front, back⟩ := ih rest
      exact ⟨t, .cons first front, back⟩

/-- From the session `u`, a call is carried out, then `inside` and then `op`, and only then, at `x`,
the call stack is as deep as it was. -/
structure ComesBack (limits : Limits) (u : Session) (target : Word) (inside : List Op) (op : Op)
    (x : Session) : Prop where
  passes : Passes limits u (.call target :: (inside ++ [op])) x
  depth : x.machine.depth = u.machine.depth
  first : ∀ front mid, front <+: inside → Passes limits u (.call target :: front) mid →
    mid.machine.depth ≠ u.machine.depth

/-- What lies on the call stack from the return address of a call down stays there as long as the
call has not come back. -/
theorem Passes.keeps_return {under : List Nat} {back : Nat} (h : Passes limits s ops u)
    (hs : under ++ [back] <+: s.machine.stack.toList)
    (inside : ∀ front mid, front <+: ops → Passes limits s front mid →
      mid.machine.depth ≠ under.length) : under ++ [back] <+: u.machine.stack.toList := by
  induction h with
  | nil => exact hs
  | cons first _ ih =>
    rcases first.stackStep.keeps_or_returns hs with kept | ⟨-, -, returned⟩
    · exact ih kept fun front mid hfront passes =>
        inside (_ :: front) mid ((List.prefix_cons_inj _).2 hfront) (.cons first passes)
    · exact absurd (congrArg List.length returned)
        (inside [_] _ ((List.prefix_cons_inj _).2 List.nil_prefix) (.cons first (.nil _)))

theorem ComesBack.returns {target : Word} {inside : List Op}
    (h : ComesBack limits u target inside op x) :
    op = .ret ∧ x.machine.pc = u.machine.pc + 4 ∧ x.machine.stack = u.machine.stack := by
  cases h.passes with
  | @cons _ v _ _ _ call rest =>
    obtain ⟨w, before, last⟩ := rest.exists_of_append
    cases last with
    | cons last done =>
      cases done
      cases call.stackStep with
      | other notCall => cases notCall
      | call _ stack =>
        have pushed : u.machine.stack.toList ++ [u.machine.pc + 4] <+: v.machine.stack.toList :=
          ⟨[], by rw [stack, Array.toList_push, List.append_nil]⟩
        have kept := before.keeps_return pushed fun front mid hfront passes =>
          h.first front mid hfront (.cons call passes)
        rcases last.stackStep.keeps_or_returns kept with kept | ⟨hop, hpc, hstack⟩
        · -- the return address is still there, so the call stack is too deep
          have deeper := kept.length_le
          rw [List.length_append, List.length_singleton] at deeper
          exact absurd h.depth (Nat.ne_of_gt deeper)
        · exact ⟨hop, hpc, Array.toList_inj.1 hstack⟩

/-! ### Halts -/

/-- No trace is kept, or one that has room for any line. -/
def TraceUnbounded (s : Session) : Prop := ∀ t ∈ s.trace, t.room = none

theorem Evolves.traceUnbounded (h : Evolves s t) (hs : s.TraceUnbounded) : t.TraceUnbounded :=
  h.trace (P := fun trace => ∀ t ∈ trace, t.room = none)
    (fun _ l unbounded => Trace.room_map_push unbounded l) hs

theorem Passes.traceUnbounded (h : Passes limits s ops u) (hs : s.TraceUnbounded) :
    u.TraceUnbounded := by
  induction h with
  | nil => exact hs
  | @cons s t _ _ _ first _ ih =>
    have evolves := evolves_step limits s.addStep
    rw [first.step] at evolves
    exact ih (evolves.traceUnbounded hs)

theorem refuses_of_traceUnbounded (h : s.TraceUnbounded) (l : TraceLine) : s.refuses l = false := by
  unfold refuses
  split
  · rfl
  next t ht =>
    rw [Trace.hasRoomFor_of_room_eq_none (h t ht)]
    rfl

theorem record_of_traceUnbounded (h : s.TraceUnbounded) (op : Op) (effect : Effect) :
    s.record op effect = (s.write ⟨op, effect⟩, .ok ()) :=
  if_neg (Bool.eq_false_iff.1 (refuses_of_traceUnbounded h _))

/-- The run of `s` from `start` carries out `ops` and then, at `u`, a return with an empty call
stack. -/
structure HaltsAt (limits : Limits) (start : Nat) (s : Session) (ops : List Op) (u : Session) :
    Prop extends Reaches limits start s ops u where
  steps_lt : u.counters.steps < limits.maxSteps
  fetch : u.machine.fetch = .ok .ret
  stack : u.machine.stack = #[]

theorem step_of_halt (hs : s.TraceUnbounded) (hf : s.machine.fetch = .ok .ret)
    (empty : s.machine.stack = #[]) :
    s.step limits = (s.write ⟨.ret, .depth s.machine.depth⟩, .ok .halt) := by
  rw [step_of_fetch_eq_ok hf]
  unfold perform
  dsimp only
  rw [record_of_traceUnbounded hs]
  dsimp only [write]
  rw [empty]
  rfl

theorem HaltsAt.run_eq (hs : s.TraceUnbounded) (h : HaltsAt limits start s ops u) :
    s.run limits start = (u.addStep.write ⟨.ret, .depth u.machine.depth⟩, .ok ()) := by
  obtain ⟨n, hn⟩ := Nat.exists_eq_succ_of_ne_zero (Nat.sub_ne_zero_of_lt h.steps_lt)
  have hu : u.addStep.TraceUnbounded := h.passes.traceUnbounded hs
  rw [h.toReaches.run_eq, hn, runSteps, step_of_halt hu h.fetch h.stack]
  rfl

theorem exists_haltsAt (h : (s.run limits start).2 = .ok ()) :
    ∃ ops u, HaltsAt limits start s ops u := by
  cases hpc : pcFault? start with
  | some f =>
    rw [run_of_pcFault? hpc] at h
    cases h
  | none =>
    obtain ⟨ops, u, reaches, ends⟩ := exists_ends_run limits s hpc
    refine ⟨ops, u, ?_⟩
    generalize hn : limits.maxSteps - u.counters.steps = n at ends
    generalize s.run limits start = result at ends h
    cases ends with
    | limit => cases h
    | fault => cases h
    | halt hstep =>
      obtain ⟨op, hf, hperform⟩ := exists_fetch_of_step hstep
      rcases perform_eq_ok hperform with ⟨next, -⟩ | ⟨-, rfl, empty, -⟩
      · cases next
      · exact ⟨reaches, by omega, hf, empty⟩

/-! ### The laws together -/

/-- Whatever instructions a run has carried out, the call stack is deeper by the calls and less deep
by the returns among them, and deeper than both at first and the limit it never is.  When a call
comes back, it does so by a return, to the instruction behind the call and with the call stack as it
was.  A run succeeds exactly when it comes to a return with an empty call stack; then the machine is
still at that return, and there was one return more than there were calls and entries on the call
stack at first. -/
theorem run_callStack (limits : Limits) (start : Nat) (s : Session) (hs : s.TraceUnbounded) :
    (∀ ops u, Reaches limits start s ops u →
      u.machine.depth + ops.count .ret = s.machine.depth + ops.countP Op.isCall ∧
        u.machine.depth ≤ max s.machine.depth limits.maxDepth) ∧
    (∀ ops u target inside op x, Reaches limits start s ops u →
      ComesBack limits u target inside op x →
        op = .ret ∧ x.machine.pc = u.machine.pc + 4 ∧ x.machine.stack = u.machine.stack) ∧
    ((s.run limits start).2 = .ok () ↔ ∃ ops u, HaltsAt limits start s ops u) ∧
    ∀ ops u, HaltsAt limits start s ops u →
      let after := (s.run limits start).1.machine
      let executed := ops ++ [.ret]
      after = u.machine ∧ after.depth = 0 ∧
        Op.decode (after.mem.word (.ofNat 17 after.pc)) = .ok .ret ∧
        executed.count .ret = executed.countP Op.isCall + s.machine.depth + 1 := by
  refine ⟨fun ops u reaches => ⟨reaches.passes.depth_add, reaches.passes.depth_le⟩,
    fun _ _ _ _ _ _ _ comesBack => comesBack.returns,
    ⟨exists_haltsAt, fun ⟨ops, u, halts⟩ => congrArg Prod.snd (halts.run_eq hs)⟩,
    fun ops u halts => ?_⟩
  have after : (s.run limits start).1.machine = u.machine :=
    congrArg (·.1.machine) (halts.run_eq hs)
  have empty : u.machine.depth = 0 := congrArg Array.size halts.stack
  have balance := halts.passes.depth_add
  have entries : (s.jump start).machine.depth = s.machine.depth := rfl
  have last : [Op.ret].count .ret = 1 ∧ [Op.ret].countP Op.isCall = 0 := ⟨rfl, rfl⟩
  dsimp only
  rw [after]
  refine ⟨rfl, empty, (Machine.fetch_eq_ok_iff.1 halts.fetch).2, ?_⟩
  rw [List.count_append, List.countP_append]
  omega

/-- A procedure that calls another, with a return address on the call stack from before. -/
def nestedCalls : Session :=
  let s := ofProgram [.call 8, .ret, .call 16, .ret, .ret]
  { s with machine := { s.machine with stack := #[4] } }

theorem run_callStack_nestedCalls :
    nestedCalls.TraceUnbounded ∧ (nestedCalls.run {} 0).2 = .ok () ∧
    (∃ u, HaltsAt {} 0 nestedCalls [.call 8, .call 16, .ret, .ret, .ret] u ∧
      (nestedCalls.run {} 0).1.machine = u.machine) ∧
    ∃ x, ComesBack {} (nestedCalls.jump 0) 8 [.call 16, .ret] .ret x ∧
      x.machine.pc = 4 ∧ x.machine.stack = #[4] := by
  have unbounded : nestedCalls.TraceUnbounded := fun _ ht => by cases ht
  obtain ⟨-, comesBack, halts, halted⟩ := run_callStack {} 0 nestedCalls unbounded
  obtain ⟨u, halt⟩ : ∃ u, HaltsAt {} 0 nestedCalls [.call 8, .call 16, .ret, .ret, .ret] u :=
    ⟨_, ⟨rfl, by decide, .cons ⟨rfl, rfl⟩ (.cons ⟨rfl, rfl⟩ (.cons ⟨rfl, rfl⟩ (.cons ⟨rfl, rfl⟩
      (.cons ⟨rfl, rfl⟩ (.nil _)))))⟩, by decide, rfl, rfl⟩
  obtain ⟨x, passes⟩ : ∃ x, Passes {} (nestedCalls.jump 0) [.call 8, .call 16, .ret, .ret] x :=
    ⟨_, .cons ⟨rfl, rfl⟩ (.cons ⟨rfl, rfl⟩ (.cons ⟨rfl, rfl⟩ (.cons ⟨rfl, rfl⟩ (.nil _))))⟩
  have outer : ComesBack {} (nestedCalls.jump 0) 8 [.call 16, .ret] .ret x := by
    refine ⟨passes, Nat.add_right_cancel passes.depth_add, fun front mid hfront before same => ?_⟩
    have balance := before.depth_add
    rw [same] at balance
    simp only [List.prefix_cons_iff, List.prefix_nil] at hfront
    obtain rfl | ⟨_, rfl, rfl | ⟨_, rfl, rfl⟩⟩ := hfront <;> cases Nat.add_left_cancel balance
  have reaches : Reaches {} 0 nestedCalls [] (nestedCalls.jump 0) := ⟨rfl, Nat.zero_le _, .nil _⟩
  obtain ⟨-, hpc, hstack⟩ := comesBack _ _ _ _ _ _ reaches outer
  exact ⟨unbounded, halts.2 ⟨_, u, halt⟩, ⟨u, halt, (halted _ u halt).1⟩, x, outer, hpc, hstack⟩

end Session

end Macc
