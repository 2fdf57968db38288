import Macc.Proofs.Machine.Faults
import Macc.Proofs.Machine.Tracing

/-!
# Limits

A limit cuts a run and does not change it (`Session.run_limits`).  A run that does not end by the
limit is the same under a higher one, and a run that the step limit cuts can be taken up where it
stopped, with no more to it than what would have followed.
-/

namespace Macc

namespace Session

variable {limits limits' : Limits} {s t u : Session} {op : Op} {ops : List Op} {start : Nat}

/-! ### Higher limits -/

/-- Only a call looks at the limits, and only at that of its depth. -/
theorem perform_eq_of_maxDepth_le (hd : limits.maxDepth ≤ limits'.maxDepth)
    (uncut : limits.maxDepth = limits'.maxDepth ∨
      ∀ k, (s.perform limits op).2 ≠ .error (.depthLimit k)) :
    s.perform limits' op = s.perform limits op := by
  cases op with
  | call target =>
    rcases Nat.lt_or_ge s.machine.depth limits.maxDepth with hlt | hge
    · rw [perform_call_of_lt hlt, perform_call_of_lt (Nat.lt_of_lt_of_le hlt hd)]
    · rcases uncut with same | uncut
      · rw [perform_call_of_le hge, perform_call_of_le (same ▸ hge), same]
      · exact absurd (congrArg Prod.snd (perform_call_of_le hge target)) (uncut _)
  | _ => rfl

theorem step_eq_of_maxDepth_le (hd : limits.maxDepth ≤ limits'.maxDepth)
    (uncut : limits.maxDepth = limits'.maxDepth ∨
      ∀ k, (s.step limits).2 ≠ .error (.depthLimit k)) :
    s.step limits' = s.step limits := by
  cases hf : s.machine.fetch with
  | error f => rw [step_of_fetch_eq_error hf, step_of_fetch_eq_error hf]
  | ok op =>
    rw [step_of_fetch_eq_ok hf] at uncut
    rw [step_of_fetch_eq_ok hf, step_of_fetch_eq_ok hf]
    exact perform_eq_of_maxDepth_le hd uncut

theorem runSteps_eq_of_le {n n' : Nat} (hn : n ≤ n') (hd : limits.maxDepth ≤ limits'.maxDepth)
    (steps : n = n' ∧ limits.maxSteps = limits'.maxSteps ∨
      ∀ pc? k, (runSteps limits n s).2 ≠ .error ⟨pc?, .stepLimit k⟩)
    (depth : limits.maxDepth = limits'.maxDepth ∨
      ∀ pc? k, (runSteps limits n s).2 ≠ .error ⟨pc?, .depthLimit k⟩) :
    runSteps limits' n' s = runSteps limits n s := by
  induction n generalizing n' s with
  | zero =>
    obtain ⟨rfl, same⟩ := steps.resolve_right fun uncut => uncut _ _ rfl
    rw [runSteps, runSteps, same]
  | succ n ih =>
    obtain ⟨n', rfl⟩ := Nat.exists_eq_succ_of_ne_zero (Nat.ne_zero_of_lt hn)
    rw [runSteps] at steps depth
    rw [runSteps, runSteps]
    cases hx : s.addStep.step limits with
    | mk t result =>
      rw [hx] at steps depth
      have same : s.addStep.step limits' = (t, result) := by
        refine (step_eq_of_maxDepth_le hd (depth.imp_right fun uncut k hk => ?_)).trans hx
        rw [hx] at hk
        obtain rfl : result = _ := hk
        exact uncut _ k rfl
      rw [same]
      cases result with
      | error f => rfl
      | ok flow =>
        cases flow with
        | halt => rfl
        | next =>
          exact ih (Nat.le_of_succ_le_succ hn) (steps.imp_left fun h => ⟨Nat.succ.inj h.1, h.2⟩)
            depth

theorem run_eq_of_le (hs : limits.maxSteps ≤ limits'.maxSteps)
    (hd : limits.maxDepth ≤ limits'.maxDepth)
    (steps : limits.maxSteps = limits'.maxSteps ∨
      ∀ pc? k, (s.run limits start).2 ≠ .error ⟨pc?, .stepLimit k⟩)
    (depth : limits.maxDepth = limits'.maxDepth ∨
      ∀ pc? k, (s.run limits start).2 ≠ .error ⟨pc?, .depthLimit k⟩) :
    s.run limits' start = s.run limits start := by
  cases hpc : pcFault? start with
  | some f => rw [run_of_pcFault? hpc, run_of_pcFault? hpc]
  | none =>
    simp only [run, hpc] at steps depth ⊢
    exact runSteps_eq_of_le (Nat.sub_le_sub_right hs _) hd
      (steps.imp_left fun h => ⟨by rw [h], h⟩) depth

/-! ### Taking up a run -/

theorem Passes.of_maxDepth_eq (h : limits.maxDepth = limits'.maxDepth)
    (passes : Passes limits s ops u) : Passes limits' s ops u := by
  induction passes with
  | nil s => exact .nil s
  | cons first _ ih =>
    refine .cons ⟨first.fetch, ?_⟩ ih
    exact (step_eq_of_maxDepth_le (Nat.le_of_eq h) (.inl h)).trans first.step

/-- What the step limit cuts off is what a run from there does. -/
theorem run_eq_of_stepLimit {p k : Nat}
    (cut : s.run limits start = (t, .error ⟨some p, .stepLimit k⟩)) (hp : pcFault? p = none)
    (hs : limits.maxSteps ≤ limits'.maxSteps) (hd : limits.maxDepth = limits'.maxDepth) :
    s.run limits' start = t.run limits' p := by
  have valid : pcFault? start = none := by
    cases hpc : pcFault? start with
    | none => rfl
    | some f =>
      rw [run_of_pcFault? hpc] at cut
      cases cut
  obtain ⟨ops, u, reaches, ends⟩ := exists_ends_run limits s valid
  rw [cut] at ends
  generalize limits.maxSteps - u.counters.steps = n at ends
  cases ends with
  | fault hstep => exact absurd rfl ((step_eq_error hstep).2.1 k)
  | limit =>
    have reaches' : Reaches limits' start s ops t :=
      ⟨valid, Nat.le_trans reaches.length_le (Nat.sub_le_sub_right hs _),
        reaches.passes.of_maxDepth_eq hd⟩
    rw [reaches'.run_eq, run, hp]
    rfl

/-- The session with a trace that has no lines yet. -/
def withoutLines (s : Session) : Session := s.retrace (Option.map fun t => ⟨#[], t.room⟩)

/-- The lines of the trace, none if no trace is kept. -/
def lines (s : Session) : Array TraceLine := (s.trace.map Trace.lines).getD #[]

theorem retrace_withoutLines (s : Session) :
    s.withoutLines.retrace (Option.map (Trace.behind s.lines)) = s := by
  obtain ⟨m, c, t⟩ := s
  cases t with
  | none => rfl
  | some t =>
    simp only [withoutLines, retrace, lines, Trace.behind, Option.map_some, Option.getD_some,
      Array.append_empty]

/-! ### The laws together -/

/-- Under a higher step limit, a run that did not end by the lower one is the same.  One that did
end by it at a valid address is the beginning of the run: run from there with a fresh trace, and
the outcome, the machine and the counters are those of the run without a break, and so are the
lines of both traces together.  A run that did not end by the depth limit is the same under a
higher one. -/
theorem run_limits (s : Session) (start maxDepth : Nat) {n m : Nat} (h : n ≤ m) :
    ((∀ pc? k, (s.run ⟨n, maxDepth⟩ start).2 ≠ .error ⟨pc?, .stepLimit k⟩) →
      s.run ⟨m, maxDepth⟩ start = s.run ⟨n, maxDepth⟩ start) ∧
    (∀ t p k, s.run ⟨n, maxDepth⟩ start = (t, .error ⟨some p, .stepLimit k⟩) →
      p < memorySize → p % 4 = 0 →
        let whole := s.run ⟨m, maxDepth⟩ start
        let rest := t.withoutLines.run ⟨m, maxDepth⟩ p
        whole.2 = rest.2 ∧ whole.1.machine = rest.1.machine ∧
          whole.1.counters = rest.1.counters ∧
          whole.1.trace = rest.1.trace.map (Trace.behind t.lines)) ∧
    ∀ maxDepth', maxDepth ≤ maxDepth' →
      (∀ pc? k, (s.run ⟨n, maxDepth⟩ start).2 ≠ .error ⟨pc?, .depthLimit k⟩) →
        s.run ⟨n, maxDepth'⟩ start = s.run ⟨n, maxDepth⟩ start := by
  refine ⟨fun uncut => ?_, fun t p k cut hp hp' => ?_, fun maxDepth' hd uncut => ?_⟩
  · exact run_eq_of_le h (Nat.le_refl _) (.inr uncut) (.inl rfl)
  · have whole : s.run ⟨m, maxDepth⟩ start = t.run ⟨m, maxDepth⟩ p :=
      run_eq_of_stepLimit cut ((pcFault?_eq_none_iff p).2 ⟨hp, hp'⟩) h rfl
    have rest := run_retrace (unnoticed_behind t.lines) (s := t.withoutLines) trivial
      ⟨m, maxDepth⟩ p
    rw [retrace_withoutLines] at rest
    rw [whole, rest]
    exact ⟨rfl, rfl, rfl, rfl⟩
  · exact run_eq_of_le (Nat.le_refl _) hd (.inl rfl) (.inr uncut)

/-- A call of a procedure that sets a base register. -/
def procedureCall : Session :=
  { ofProgram [.call 8, .ret, .setBase .vbp 5, .ret] with trace := some {} }

theorem run_limits_procedureCall :
    let cut := procedureCall.run ⟨2, 1⟩ 0
    let rest := cut.1.withoutLines.run ⟨100, 1⟩ 12
    let whole := procedureCall.run ⟨100, 1⟩ 0
    cut.2 = .error ⟨some 12, .stepLimit 2⟩ ∧ whole.2 = .ok () ∧ rest.2 = .ok () ∧
      whole.1.machine = rest.1.machine ∧ whole.1.counters = rest.1.counters ∧
      whole.1.trace = rest.1.trace.map (Trace.behind cut.1.lines) ∧
      procedureCall.run ⟨2, 7⟩ 0 = cut ∧ whole = procedureCall.run ⟨4, 1⟩ 0 := by
  have cut : (procedureCall.run ⟨2, 1⟩ 0).2 = .error ⟨some 12, .stepLimit 2⟩ := rfl
  have halted : (procedureCall.run ⟨4, 1⟩ 0).2 = .ok () := rfl
  obtain ⟨-, resumed, deeper⟩ := run_limits procedureCall 0 1 (by decide : 2 ≤ 100)
  obtain ⟨longer, -, -⟩ := run_limits procedureCall 0 1 (by decide : 4 ≤ 100)
  obtain ⟨outcome, machine, counters, trace⟩ :=
    resumed _ 12 2 (Prod.ext rfl cut) (by decide) (by decide)
  have whole : procedureCall.run ⟨100, 1⟩ 0 = procedureCall.run ⟨4, 1⟩ 0 := by
    refine longer fun pc? k h => ?_
    rw [halted] at h
    cases h
  have same : procedureCall.run ⟨2, 7⟩ 0 = procedureCall.run ⟨2, 1⟩ 0 := by
    refine deeper 7 (by decide) fun pc? k h => ?_
    rw [cut] at h
    cases h
  have succeeds : (procedureCall.run ⟨100, 1⟩ 0).2 = .ok () :=
    (congrArg Prod.snd whole).trans halted
  exact ⟨cut, succeeds, outcome ▸ succeeds, machine, counters, trace, same, whole⟩

end Session

end Macc
