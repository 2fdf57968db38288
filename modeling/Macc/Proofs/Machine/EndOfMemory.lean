import Macc.Proofs.Machine.CallStack
import Macc.Proofs.Machine.Faults
import Macc.Proofs.Machine.Reachable

/-!
# The end of memory

A program that runs off the end of memory is stopped there, with one exception.  The sequencer
checks the address of an instruction before it fetches it, but not that of the repeat behind a load:
memory is a ring, so what counts as standing behind a load in the last word is the word at address
zero.  `Session.staysInside_iff` says that a run stays inside memory exactly when it comes to no
such load in front of a repeat (`Machine.RepeatsPastEnd`), and how far it can get if it does.
-/

namespace Macc

open Relation

namespace Machine

variable {m : Machine} {op : Op}

/-! ### Where the program counter goes -/

/-- How many times an instruction at the program counter is to be repeated. -/
def repeatsOf (m : Machine) : Op → Except Fault (Option Word)
  | .load _ _ _ => m.lookAhead
  | _ => .ok none

/-- Where an instruction that the program goes on from takes the program counter. -/
inductive PcStep (m : Machine) : Op → Nat → Prop
  | next {op : Op} (single : m.repeatsOf op = .ok none) : PcStep m op (m.pc + 4)
  | repeated {op : Op} {len : Word} (more : m.repeatsOf op = .ok (some len)) :
      PcStep m op (m.pc + 8)
  | call (target : Word) : PcStep m (.call target) target.toNat
  | ret {back : Nat} (top : m.stack.back? = some back) : PcStep m .ret back

/-- The instruction at the program counter fills the last word of memory, and the word at address
zero is taken for a repeat of it. -/
structure RepeatsPastEnd (m : Machine) (op : Op) : Prop where
  fetch : m.fetch = .ok op
  last : m.pc + 4 = memorySize
  more : m.repeatsOf op ≠ .ok none

/-- The program counter gets at most to the end of memory, or past it by a repeat there. -/
theorem PcStep.le_memorySize {pc : Nat} (h : m.PcStep op pc) (fetch : m.fetch = .ok op)
    (control : m.ControlInRange) :
    pc ≤ memorySize ∨ pc = memorySize + 4 ∧ m.RepeatsPastEnd op := by
  obtain ⟨valid, decoded⟩ := fetch_eq_ok_iff.1 fetch
  -- the instruction lies at a multiple of 4, as the end of memory does
  obtain ⟨inside, aligned⟩ := (pcFault?_eq_none_iff _).1 valid
  rw [memorySize] at *
  cases h with
  | next => exact .inl (by omega)
  | repeated more =>
    by_cases last : m.pc + 4 = 131072
    · exact .inr ⟨by omega, fetch, last, fun alone => by cases more.symm.trans alone⟩
    · exact .inl (by omega)
  | call target => exact .inl (Nat.le_of_lt (Op.encode_of_decode decoded).2.1)
  | ret top => exact .inl (control.back _ (Array.mem_of_back? top)).2.2

theorem PcStep.of_load {cache : Cache} {src slot : Word} {pc : Nat}
    (h : m.PcStep (.load cache src slot) pc) :
    m.lookAhead = .ok none ∧ pc = m.pc + 4 ∨
      ∃ len, m.lookAhead = .ok (some len) ∧ pc = m.pc + 8 := by
  cases h with
  | next single => exact .inl ⟨single, rfl⟩
  | repeated more => exact .inr ⟨_, more, rfl⟩

/-! ### Words taken for instructions -/

/-- The word at an address is taken for an instruction when the next one is carried out. -/
inductive Interprets (m : Machine) : Nat → Prop
  | fetched (valid : pcFault? m.pc = none) : Interprets m m.pc
  | behind {op : Op} (fetch : m.fetch = .ok op) (more : m.repeatsOf op ≠ .ok none) :
      Interprets m (m.pc + 4)

theorem Interprets.inside {a : Nat} (h : m.Interprets a) (never : ∀ op, ¬ m.RepeatsPastEnd op) :
    a + 4 ≤ memorySize := by
  cases h with
  | fetched valid =>
    obtain ⟨inside, aligned⟩ := (pcFault?_eq_none_iff _).1 valid
    rw [memorySize] at *
    omega
  | @behind op fetch more =>
    obtain ⟨inside, aligned⟩ := (pcFault?_eq_none_iff _).1 (fetch_eq_ok_iff.1 fetch).1
    have early : m.pc + 4 ≠ memorySize := fun last => never op ⟨fetch, last, more⟩
    rw [memorySize] at *
    omega

end Machine

namespace Session

variable {limits : Limits} {s t u : Session} {op : Op} {ops : List Op} {start : Nat}

/-! ### Single instructions -/

theorem pc_of_thenSkip {n : Nat} {x : Session × Except Fault Unit} {flow : Flow}
    (h : thenSkip n x = (t, .ok flow)) : t.machine.pc = x.1.machine.pc + n := by
  obtain ⟨u, result⟩ := x
  cases result with
  | error f => cases h
  | ok =>
    cases h
    rfl

theorem load_pcStep {cache : Cache} {src slot : Word}
    (h : s.load cache src slot = (t, .ok .next)) :
    s.machine.PcStep (.load cache src slot) t.machine.pc := by
  have loaded : (s.loadOne cache src slot).machine.pc = s.machine.pc := Machine.pc_load _ _ _ _
  rw [load_eq] at h
  dsimp only at h
  split at h
  next => cases h
  next single =>
    rw [pc_of_thenSkip h, machine_record, loaded]
    exact .next single
  next len more =>
    split at h
    · cases h
    · have rest : ((s.loadOne cache src slot).loadRest cache src slot len.toNat).machine.pc = _ :=
        Machine.pc_loadMany _ _ _ _ _
      rw [pc_of_thenSkip h, machine_record, rest, loaded]
      exact .repeated more

theorem perform_pcStep (h : s.perform limits op = (t, .ok .next)) :
    s.machine.PcStep op t.machine.pc := by
  have goesOn {x : Session × Except Fault Unit} (skip : thenSkip 4 x = (t, .ok .next))
      (same : x.1.machine.pc = s.machine.pc) (single : s.machine.repeatsOf op = .ok none) :
      s.machine.PcStep op t.machine.pc := by
    rw [pc_of_thenSkip skip, same]
    exact .next single
  cases op with
  | sync => exact goesOn h (congrArg Machine.pc (machine_record _ _ _)) rfl
  | call target =>
    rcases perform_call_cases limits s target with ⟨-, hx⟩ | ⟨-, hx | ⟨l, hx⟩⟩ <;>
      rw [hx] at h <;> cases h
    exact .call target
  | ret =>
    rcases perform_ret_cases limits s with hx | ⟨l, ⟨-, hx⟩ | ⟨back, top, hx⟩⟩ <;>
      rw [hx] at h <;> cases h
    exact .ret top
  | execute slot len =>
    rcases perform_execute_cases limits s slot len with ⟨-, hx⟩ | ⟨-, hx | ⟨l, hx⟩⟩ <;> rw [hx] at h
    · cases h
    · cases h
    · exact goesOn h (sameControl_execSlots _ _ _).pc rfl
  | load cache src slot => exact load_pcStep h
  | continueLoad len => cases h
  | _ =>
    refine goesOn h ?_ rfl
    rw [machine_exec]
    exact (s.machine.sameControl_apply _).pc

theorem Completes.pcStep (h : Completes limits s op t) : s.machine.PcStep op t.machine.pc :=
  perform_pcStep (s := s.addStep) h.perform

/-- A load in front of a repeat is a step. -/
theorem exists_completes_of_repeats (limits : Limits) {cache : Cache} {src slot len : Word}
    (hs : s.TraceUnbounded) (fetch : s.machine.fetch = .ok (.load cache src slot))
    (more : s.machine.lookAhead = .ok (some len)) (short : len.toNat < cacheSize) :
    ∃ t, Completes limits s (.load cache src slot) t := by
  have load := s.addStep.load_eq cache src slot
  rw [show s.addStep.machine.lookAhead = _ from more] at load
  dsimp only at load
  rw [if_neg (Nat.not_le.2 short), record_of_traceUnbounded
    (s := (s.addStep.loadOne cache src slot).loadRest cache src slot len.toNat) hs] at load
  exact ⟨_, fetch, (step_of_fetch_eq_ok (s := s.addStep) fetch).trans load⟩

theorem runSteps_of_pcFault? {n : Nat} {f : Fault} (h : pcFault? s.machine.pc = some f) :
    runSteps limits (n + 1) s = (s.addStep, .error ⟨some s.machine.pc, f⟩) := by
  have stops : s.addStep.step limits = (s.addStep, .error f) := by
    rw [step, show pcFault? s.addStep.machine.pc = _ from h]
  rw [runSteps, stops]
  rfl

theorem step_eq_pcOutOfRange {k : Nat} (h : s.step limits = (t, .error (.pcOutOfRange k))) :
    k = s.machine.pc ∧ memorySize ≤ k := by
  unfold step at h
  split at h
  next f hpc =>
    cases h
    unfold pcFault? at hpc
    split at hpc
    next outside =>
      cases hpc
      exact ⟨rfl, outside⟩
    next => split at hpc <;> cases hpc
  next =>
    split at h
    · cases h
    · rcases (perform_eq_error h).2 with hf | ⟨hf, -⟩ <;> cases hf

/-! ### Runs -/

/-- The program counter is past the end of memory at most right behind a repeat there. -/
theorem Passes.pc_le (h : Passes limits s ops u) (control : s.machine.ControlInRange)
    (inside : s.machine.pc ≤ memorySize) :
    u.machine.pc ≤ memorySize ∨ u.machine.pc = memorySize + 4 ∧
      ∃ front v op, Passes limits s front v ∧ front.length < ops.length ∧
        v.machine.RepeatsPastEnd op := by
  rcases List.eq_nil_or_concat ops with rfl | ⟨front, op, rfl⟩
  · cases h
    exact .inl inside
  · rw [List.concat_eq_append] at *
    obtain ⟨v, before, last⟩ := h.exists_of_append
    cases last with
    | cons last rest =>
      cases rest
      have control := Machine.ControlInRange.of_changes before.changes control
      refine (last.pcStep.le_memorySize last.fetch control).imp_right ?_
      rintro ⟨pc, past⟩
      exact ⟨pc, front, v, op, before, by simp, past⟩

theorem Ends.pc {n : Nat} {result : Session × Except LocatedFault Unit}
    (h : Ends limits u n result) : result.1.machine.pc = u.machine.pc := by
  cases h with
  | limit => rfl
  | halt hstep =>
    obtain ⟨op, -, performed⟩ := exists_fetch_of_step hstep
    rcases perform_eq_ok performed with ⟨next, -⟩ | ⟨-, -, -, same⟩
    · cases next
    · exact congrArg Machine.pc same
  | fault hstep => exact (step_eq_error hstep).1

/-- A run does not leave memory: not with its program counter, nor with a word that it takes for an
instruction, and it is stopped at the end if it gets there. -/
structure StaysInside (limits : Limits) (start : Nat) (s : Session) : Prop where
  pc_le : ∀ ops u, Reaches limits start s ops u → u.machine.pc ≤ memorySize
  last_le : (s.run limits start).1.machine.pc ≤ memorySize
  inside : ∀ ops u a, Reaches limits start s ops u → u.counters.steps < limits.maxSteps →
    u.machine.Interprets a → a + 4 ≤ memorySize
  fault : ∀ t pc? k, s.run limits start = (t, .error ⟨pc?, .pcOutOfRange k⟩) → k = memorySize

theorem run_eq_pcOutOfRange {pc? : Option Nat} {k : Nat} (valid : pcFault? start = none)
    (h : s.run limits start = (t, .error ⟨pc?, .pcOutOfRange k⟩)) :
    ∃ ops u, Reaches limits start s ops u ∧ u.machine.pc = k ∧ memorySize ≤ k := by
  obtain ⟨ops, u, reaches, ends⟩ := exists_ends_run limits s valid
  refine ⟨ops, u, reaches, ?_⟩
  rw [h] at ends
  generalize limits.maxSteps - u.counters.steps = n at ends
  cases ends with
  | fault hstep =>
    obtain ⟨rfl, outside⟩ := step_eq_pcOutOfRange hstep
    exact ⟨rfl, outside⟩

/-- A run from a valid address stays inside memory exactly if no load that it comes to fills the
last word of memory and is repeated by the word at address zero.  Even then its program counter gets
one word past the end at most. -/
theorem staysInside_iff (limits : Limits) (reachable : s.Reachable)
    (valid : pcFault? start = none) :
    (s.StaysInside limits start ↔
      ∀ ops u op, Reaches limits start s ops u → u.counters.steps < limits.maxSteps →
        ¬ u.machine.RepeatsPastEnd op) ∧
    ∀ ops u, Reaches limits start s ops u →
      u.machine.pc ≤ memorySize ∨ u.machine.pc = memorySize + 4 := by
  have inside : start ≤ memorySize := Nat.le_of_lt ((pcFault?_eq_none_iff _).1 valid).1
  have control : (s.jump start).machine.ControlInRange :=
    ⟨Nat.le_add_right_of_le inside, reachable.controlInRange.back⟩
  refine ⟨⟨fun stays ops u op reaches left past => ?_, fun never => ?_⟩, fun ops u reaches => ?_⟩
  · have behind := stays.inside ops u _ reaches left (.behind past.fetch past.more)
    have last := past.last
    omega
  · have pc_le (ops : List Op) (u : Session) (reaches : Reaches limits start s ops u) :
        u.machine.pc ≤ memorySize := by
      refine (reaches.passes.pc_le control inside).resolve_right ?_
      rintro ⟨-, front, v, op, before, fewer, past⟩
      -- the repeat was carried out, so there were steps left for it
      have reached : Reaches limits start s front v :=
        ⟨valid, Nat.le_trans (Nat.le_of_lt fewer) reaches.length_le, before⟩
      refine never front v op reached ?_ past
      rw [reached.steps]
      have := reaches.length_le
      omega
    refine ⟨pc_le, ?_, fun ops u a reaches left interprets => ?_, fun t pc? k run => ?_⟩
    · obtain ⟨ops, u, reaches, ends⟩ := exists_ends_run limits s valid
      exact ends.pc ▸ pc_le ops u reaches
    · exact interprets.inside fun op => never ops u op reaches left
    · obtain ⟨ops, u, reaches, rfl, outside⟩ := run_eq_pcOutOfRange valid run
      exact Nat.le_antisymm (pc_le ops u reaches) outside
  · exact (reaches.passes.pc_le control inside).imp_right And.left

/-- The address of the last word of memory. -/
def lastWord : Nat := 0x1fffc

/-- A machine with a load in the last word of memory and an instruction at address zero. -/
def loadAtEnd (first : Op) : Session where
  machine :=
    { mem := Image.empty.setWords
        [(0, first.encode), (lastWord, (Op.load .code 0 0).encode)] }

theorem word_loadAtEnd (first : Op) :
    (loadAtEnd first).machine.mem.word (.ofNat 17 0) = first.encode ∧
      (loadAtEnd first).machine.mem.word (.ofNat 17 lastWord) = (Op.load .code 0 0).encode := by
  let words := [(0, first.encode), (lastWord, (Op.load .code 0 0).encode)]
  have inside : ∀ w ∈ words, w.1 + 4 ≤ memorySize := by simp [words, lastWord, memorySize]
  have apart : words.Pairwise Image.Apart := by simp [words, Image.Apart, lastWord]
  exact ⟨Image.word_setWords _ inside apart (w := (0, first.encode)) (by simp [words]),
    Image.word_setWords _ inside apart (w := (lastWord, (Op.load .code 0 0).encode))
      (by simp [words])⟩

theorem valid_lastWord : pcFault? lastWord = none := by decide

theorem fetch_loadAtEnd (first : Op) :
    ((loadAtEnd first).jump lastWord).machine.fetch = .ok (.load .code 0 0) := by
  refine Machine.fetch_eq_ok_iff.2 ⟨valid_lastWord, ?_⟩
  exact (congrArg Op.decode (word_loadAtEnd first).2).trans
    ((Op.decode_encode_eq_self_iff _).2 ⟨by decide, by decide⟩)

theorem lookAhead_loadAtEnd (first : Op) :
    ((loadAtEnd first).jump lastWord).machine.lookAhead = repeats? first.encode := by
  have around : BitVec.ofNat 17 (lastWord + 4) = .ofNat 17 0 := by decide
  rw [Machine.lookAhead, show Machine.pc _ = lastWord from rfl, around]
  exact congrArg repeats? (word_loadAtEnd first).1

theorem staysInside_loadAtEnd :
    (loadAtEnd .ret).StaysInside {} lastWord ∧
      ¬ (loadAtEnd (.continueLoad 0)).StaysInside {} lastWord := by
  have fresh (first : Op) : (loadAtEnd first).Reachable := ⟨_, .refl⟩
  constructor
  · refine (staysInside_iff {} (fresh .ret) valid_lastWord).1.2 fun ops u op reaches _ past => ?_
    have alone : ((loadAtEnd .ret).jump lastWord).machine.lookAhead = .ok none :=
      lookAhead_loadAtEnd .ret
    cases reaches.passes with
    | nil =>
      cases (fetch_loadAtEnd .ret).symm.trans past.fetch
      exact past.more alone
    | @cons _ t _ _ _ first rest =>
      cases (fetch_loadAtEnd .ret).symm.trans first.fetch
      obtain ⟨-, pc⟩ : _ ∧ t.machine.pc = memorySize := first.pcStep.of_load.resolve_right
        fun ⟨len, more, _⟩ => nomatch alone.symm.trans more
      -- nothing can be fetched from the end of memory
      cases rest with
      | nil => exact absurd (pc ▸ past.last) (by decide)
      | cons second =>
        exact absurd (pc ▸ (Machine.fetch_eq_ok_iff.1 second.fetch).1) (by decide)
  · intro stays
    have never := (staysInside_iff {} (fresh (.continueLoad 0)) valid_lastWord).1.1 stays
    have more : ((loadAtEnd (.continueLoad 0)).jump lastWord).machine.lookAhead = .ok (some 0) :=
      lookAhead_loadAtEnd (.continueLoad 0)
    refine never [] _ _ ⟨valid_lastWord, Nat.zero_le _, .nil _⟩ (by decide)
      ⟨fetch_loadAtEnd _, rfl, ?_⟩
    exact fun alone => nomatch alone.symm.trans more

/-- The repeat at address zero is carried out, and the program counter is past the end of memory. -/
theorem run_loadAtEnd :
    ∃ t, (loadAtEnd (.continueLoad 0)).run {} lastWord =
      (t, .error ⟨some (memorySize + 4), .pcOutOfRange (memorySize + 4)⟩) := by
  have more : ((loadAtEnd (.continueLoad 0)).jump lastWord).machine.lookAhead = .ok (some 0) :=
    lookAhead_loadAtEnd (.continueLoad 0)
  have untraced : ((loadAtEnd (.continueLoad 0)).jump lastWord).TraceUnbounded :=
    fun _ ht => by cases ht
  obtain ⟨t, first⟩ :=
    exists_completes_of_repeats {} untraced (fetch_loadAtEnd _) more (by decide)
  have pc : t.machine.pc = memorySize + 4 := by
    rcases first.pcStep.of_load with ⟨alone, -⟩ | ⟨-, -, pc⟩
    · cases alone.symm.trans more
    · exact pc
  have reaches : Reaches {} lastWord (loadAtEnd (.continueLoad 0)) _ t :=
    ⟨valid_lastWord, by decide, .cons first (.nil t)⟩
  have outside : pcFault? t.machine.pc = some (.pcOutOfRange (memorySize + 4)) := by
    rw [pc]
    rfl
  have run := reaches.run_eq
  rw [reaches.steps] at run
  exact ⟨_, run.trans ((runSteps_of_pcFault? (n := 99999998) outside).trans (by rw [pc]))⟩

theorem not_forall_staysInside :
    ¬ ∀ (limits : Limits) (start : Nat) (s : Session), s.Reachable → pcFault? start = none →
      s.StaysInside limits start := by
  intro h
  have stays := h {} lastWord (loadAtEnd (.continueLoad 0)) ⟨_, .refl⟩ valid_lastWord
  obtain ⟨t, run⟩ := run_loadAtEnd
  exact absurd (stays.fault t _ _ run) (by decide)

end Session

end Macc
