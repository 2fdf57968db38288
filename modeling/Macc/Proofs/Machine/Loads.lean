import Macc.Proofs.Machine.StraightLine

/-!
# Loads that are not repeated

A load whose next word does not decode to a repeat is carried out alone: it loads its own entry in
one cycle and goes on to that word (`Session.LoadsSingly`).  There is one exception.  The sequencer
looks for a repeat by its number first, and a word that has the number but is no instruction is a
fault of the load in front of it, not of the word.  `Session.loadsSingly_iff` says that this is the
only one.
-/

namespace Macc

/-- A word with the number of a repeat either is one or has a cache address. -/
theorem decode_of_number_continueLoad {w : Word}
    (h : Opcode.continueLoad.number = (opcodeField w).toNat)
    (single : ∀ len, Op.decode w ≠ .ok (.continueLoad len)) :
    Op.decode w = .error (.nonZeroField .continueLoad .caddr (wordField w .caddr)) := by
  -- a repeat uses its memory address field, so only the cache address can be refused
  rw [Op.decode_of_number h] at single ⊢
  split
  next lost => exact absurd rfl lost
  next kept =>
    rw [if_neg kept] at single
    split
    next => rfl
    next both =>
      rw [if_neg both] at single
      exact absurd rfl (single _)

theorem repeats?_of_single {w : Word} (single : ∀ len, Op.decode w ≠ .ok (.continueLoad len)) :
    repeats? w =
      if (opcodeField w).toNat ≠ Opcode.continueLoad.number then .ok none
      else .error (.decode (.nonZeroField .continueLoad .caddr (wordField w .caddr))) := by
  unfold repeats?
  split
  next => rfl
  next h => rw [decode_of_number_continueLoad (Decidable.not_not.1 h).symm single]

namespace Machine

variable {m : Machine}

/-- The word behind the instruction at the program counter. -/
def behind (m : Machine) : Word := m.mem.word (.ofNat 17 (m.pc + 4))

theorem fetch_eq_error_of_decode {e : DecodeError} (valid : pcFault? m.pc = none)
    (h : Op.decode (m.mem.word (.ofNat 17 m.pc)) = .error e) : m.fetch = .error (.decode e) := by
  rw [fetch, valid]
  dsimp only
  rw [h]

end Machine

namespace Session

variable {limits : Limits} {s t : Session} {cache : Cache} {src slot : Word}

/-- A step from `s` to `t` loads one entry in one cycle and goes on to the next word.  That word is
at fault, if it is no instruction, when it is fetched itself. -/
structure LoadsSingly (limits : Limits) (s : Session) (cache : Cache) (src slot : Word)
    (t : Session) : Prop where
  step : s.step limits = (t, .ok .next)
  machine : t.machine = (s.machine.load cache (src.setWidth 17) (slot.setWidth 9)).advance
  counters : t.counters = (s.addCycles 1).counters
  later : ∀ e, pcFault? t.machine.pc = none → Op.decode s.machine.behind = .error e →
    t.step limits = (t, .error (.decode e))

theorem loadsSingly_of_lookAhead (fetch : s.machine.fetch = .ok (.load cache src slot))
    (room : s.refuses ⟨.load cache src slot, .loaded none⟩ = false)
    (alone : s.machine.lookAhead = .ok none) : ∃ t, LoadsSingly limits s cache src slot t := by
  let line : TraceLine := ⟨.load cache src slot, .loaded none⟩
  let one := s.loadOne cache src slot
  have recorded : one.record (.load cache src slot) (.loaded none) = (one.write line, .ok ()) :=
    if_neg (Bool.eq_false_iff.1 room)
  have pc : one.machine.pc = s.machine.pc := Machine.pc_load _ _ _ _
  have load := s.load_eq cache src slot
  rw [alone] at load
  dsimp only at load
  rw [recorded] at load
  refine ⟨_, (step_of_fetch_eq_ok fetch).trans load, rfl, rfl, fun e valid undecodable => ?_⟩
  have next : one.machine.mem.word (.ofNat 17 (one.machine.pc + 4)) = s.machine.behind := by
    rw [show one.machine.mem = s.machine.mem from Machine.mem_load _ _ _ _, pc]
    rfl
  have decoded := (congrArg Op.decode next).trans undecodable
  exact step_of_fetch_eq_error (Machine.fetch_eq_error_of_decode valid decoded)

/-- A load in front of a word that is not a repeat is carried out alone exactly if the word does not
have the number of a repeat.  Otherwise the load loads its entry, and what is wrong with the word is
a fault at the load. -/
theorem loadsSingly_iff (limits : Limits) (fetch : s.machine.fetch = .ok (.load cache src slot))
    (room : s.refuses ⟨.load cache src slot, .loaded none⟩ = false)
    (single : ∀ len, Op.decode s.machine.behind ≠ .ok (.continueLoad len)) :
    ((∃ t, LoadsSingly limits s cache src slot t) ↔
      (opcodeField s.machine.behind).toNat ≠ Opcode.continueLoad.number) ∧
    ((opcodeField s.machine.behind).toNat = Opcode.continueLoad.number →
      s.step limits = (s.loadOne cache src slot, .error (.decode
        (.nonZeroField .continueLoad .caddr (wordField s.machine.behind .caddr)))) ∧
      (s.loadOne cache src slot).machine.pc = s.machine.pc) := by
  have ahead := repeats?_of_single single
  have refused (h : (opcodeField s.machine.behind).toNat = Opcode.continueLoad.number) :
      s.step limits = (s.loadOne cache src slot, .error (.decode
        (.nonZeroField .continueLoad .caddr (wordField s.machine.behind .caddr)))) := by
    rw [if_neg (Decidable.not_not.2 h)] at ahead
    rw [step_of_fetch_eq_ok fetch]
    refine (s.load_eq cache src slot).trans ?_
    rw [show s.machine.lookAhead = _ from ahead]
  refine ⟨⟨fun ⟨t, loads⟩ number => ?_, fun number => ?_⟩, fun number => ⟨refused number, ?_⟩⟩
  · cases (loads.step.symm.trans (refused number))
  · exact loadsSingly_of_lookAhead fetch room (ahead.trans (if_pos number))
  · exact Machine.pc_load _ _ _ _

/-- A load in front of a word. -/
def loadBefore (w : Word) : Session where
  machine := { mem := Image.empty.setWords [(0, (Op.load .code 0 0).encode), (4, w)] }

/-- A word with the number of a repeat and a cache address. -/
def strayWord : Word := 0x47

theorem decode_strayWord :
    Op.decode strayWord = .error (.nonZeroField .continueLoad .caddr 1) := rfl

theorem loadsSingly_loadBefore :
    (∃ t, LoadsSingly {} (loadBefore 0x3f) .code 0 0 t) ∧
      (loadBefore strayWord).step {} = ((loadBefore strayWord).loadOne .code 0 0,
        .error (.decode (.nonZeroField .continueLoad .caddr 1))) := by
  constructor
  · have unknown : Op.decode (loadBefore 0x3f).machine.behind = .error (.unknownOpcode 0x3f) := rfl
    refine (loadsSingly_iff {} rfl rfl fun len h => ?_).1.2 (by decide +kernel)
    cases unknown.symm.trans h
  · have stray : (loadBefore strayWord).machine.behind = strayWord := rfl
    refine ((loadsSingly_iff {} rfl rfl fun len h => ?_).2 ?_).1
    · rw [stray, decode_strayWord] at h
      cases h
    · rw [stray]
      rfl

theorem not_forall_loadsSingly :
    ¬ ∀ (limits : Limits) (s : Session) (cache : Cache) (src slot : Word),
      s.machine.fetch = .ok (.load cache src slot) →
      s.refuses ⟨.load cache src slot, .loaded none⟩ = false →
      (∀ len, Op.decode s.machine.behind ≠ .ok (.continueLoad len)) →
      ∃ t, LoadsSingly limits s cache src slot t := by
  intro h
  have stray : Op.decode (loadBefore strayWord).machine.behind =
    .error (.nonZeroField .continueLoad .caddr 1) := rfl
  obtain ⟨t, loads⟩ := h {} (loadBefore strayWord) .code 0 0 rfl rfl
    fun len h => nomatch stray.symm.trans h
  have refused : ((loadBefore strayWord).step {}).2 =
    .error (.decode (.nonZeroField .continueLoad .caddr 1)) := rfl
  rw [loads.step] at refused
  cases refused

end Session

end Macc
