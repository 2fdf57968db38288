import Macc.Proofs.Machine.Frame
import Macc.Proofs.Machine.Reduction
import Mathlib.Data.Rat.Floor

/-!
# Transfers between accumulators and memory

A save writes accumulators to memory as words, and a load that sets them reads them back.  The two
come to nothing, whatever is carried out in between, as long as the bytes of the save are left alone
(`Session.Avoids`) and the load is from where the save was to (`Session.exec_fetch_of_save`).

A store writes accumulators as bytes.  The byte is the accumulator divided by a power of two, rounded
down and moved into the range of the instruction (`storedValue`); `Session.exec_store` says so of
both lanes.  Addresses go around the end of memory, inside a word and between the lanes.
-/

namespace Macc

namespace Machine

variable {m n : Machine} {lanes : Lanes} {addr : Word} {effect : Effect}

/-- A save that is carried out has its address even, and the accumulators in memory. -/
theorem words_of_apply_save (h : m.apply (.save lanes addr) = (n, .ok effect)) :
    let ea := m.sbp + addr.setWidth 17
    ea.getLsbD 0 = false ∧ (lanes.has0 → n.mem.word ea = m.acc0) ∧
      (lanes.has1 → n.mem.word (ea + 4) = m.acc1) := by
  intro ea
  have even : ea.getLsbD 0 = false := by
    cases odd : ea.getLsbD 0 with
    | false => rfl
    | true => cases congrArg Prod.snd (h.symm.trans (if_pos odd))
  obtain rfl := eq_of_guarded h
  rw [withMem_ite, withMem_ite]
  refine ⟨even, fun selected => ?_, fun selected => ?_⟩
  · -- the word of the second lane lies behind that of the first
    have kept := (Image.writtenAt_setWord (m.mem.setWord ea m.acc0) (ea + 4) m.acc1).ite lanes.has1
    rw [selected]
    exact (kept.word fun x hx written => Image.not_inWord_add_four hx written.2).trans
      (Image.word_setWord _ _ _)
  · rw [selected]
    exact Image.word_setWord _ _ _

theorem apply_fetch_set (even : (m.lbp + addr.setWidth 17).getLsbD 0 = false) :
    let ea := m.lbp + addr.setWidth 17
    let acc0 := if lanes.has0 then m.mem.word ea else m.acc0
    let acc1 := if lanes.has1 then m.mem.word (ea + 4) else m.acc1
    m.apply (.fetch .set lanes addr) = ({ m with acc0, acc1 }, .ok (.fetched acc0 acc1)) :=
  if_neg (Bool.eq_false_iff.1 even)

end Machine

namespace Session

variable {P : Address → Prop} {s t : Session} {op : Op} {ops : List Op}

/-! ### Instructions in between -/

/-- Carry out instructions of the datapath one after another, also behind those that fault. -/
def execEach (ops : List Op) (s : Session) : Session := ops.foldl (fun s op => (s.exec op).1) s

/-- Carried out one after another, the instructions write none of the bytes with `P`. -/
def Avoids (P : Address → Prop) : List Op → Session → Prop
  | [], _ => True
  | op :: ops, s =>
    (s.machine.Impossible op ∨ ∀ x, P x → ¬ s.machine.Writes op x) ∧ Avoids P ops (s.exec op).1

/-- An instruction that does not write a byte keeps it. -/
theorem byte_exec {x : Address} (h : s.machine.Impossible op ∨ ¬ s.machine.Writes op x) :
    (s.exec op).1.machine.mem.byte x = s.machine.mem.byte x := by
  rw [machine_exec]
  cases applied : s.machine.apply op with
  | mk n result =>
    cases result with
    | error f =>
      have same := Machine.fst_apply_of_error (congrArg Prod.snd applied)
      rw [applied] at same
      exact congrArg (·.mem.byte x) same
    | ok effect =>
      refine (Machine.frame_apply applied).mem.byte x (h.resolve_left fun impossible => ?_)
      obtain ⟨f, fault⟩ := (Machine.impossible_iff _ _).1 impossible
      rw [applied] at fault
      cases fault

theorem byte_execEach {x : Address} (avoids : s.Avoids P ops) (hx : P x) :
    (execEach ops s).machine.mem.byte x = s.machine.mem.byte x := by
  induction ops generalizing s with
  | nil => rfl
  | cons op ops ih =>
    obtain ⟨first, rest⟩ := avoids
    exact (ih rest).trans (byte_exec (first.imp_right fun spares => spares x hx))

theorem word_execEach {a : Address} (avoids : s.Avoids P ops)
    (inside : ∀ x, Image.InWord a x → P x) :
    (execEach ops s).machine.mem.word a = s.machine.mem.word a :=
  Image.word_congr fun _ hk => byte_execEach avoids (inside _ (Image.inWord_add a hk))

/-! ### Save and load -/

/-- An instruction that the datapath carries out succeeds, unless its trace line is refused. -/
theorem outcome_exec_of_apply {n : Machine} {effect : Effect}
    (h : s.machine.apply op = (n, .ok effect)) :
    (s.exec op).2 = .ok () ∨ (s.exec op).2 = .error .trace ∧ s.refuses ⟨op, effect⟩ := by
  let applied := ({ s with machine := n } : Session).addCycles 1
  have same : (if op.isReduction then applied.addOp else applied).refuses ⟨op, effect⟩ =
      s.refuses ⟨op, effect⟩ := by
    cases op.isReduction <;> rfl
  rw [exec_of_apply_eq_ok h]
  dsimp only
  rw [record, same]
  cases refused : s.refuses ⟨op, effect⟩ with
  | true => exact .inr ⟨rfl, rfl⟩
  | false => exact .inl rfl

/-- A load from where the accumulators were saved to, behind instructions that leave the saved bytes
alone, sets the selected accumulators to what they were at the save and changes nothing else.  It
succeeds unless its trace line is refused. -/
theorem exec_fetch_of_save (s : Session) (lanes : Lanes) (a b : Word) (ops : List Op)
    (saves : (s.exec (.save lanes a)).2 = .ok ()) :
    let m := s.machine
    let saved := (s.exec (.save lanes a)).1
    let t := execEach ops saved
    let x := t.exec (.fetch .set lanes b)
    let n := x.1.machine
    saved.Avoids (m.Writes (.save lanes a)) ops →
    t.machine.lbp + b.setWidth 17 = m.sbp + a.setWidth 17 →
      (x.2 = .ok () ∨
        x.2 = .error .trace ∧ t.refuses ⟨.fetch .set lanes b, .fetched n.acc0 n.acc1⟩) ∧
      n = { t.machine with
        acc0 := if lanes.has0 then m.acc0 else t.machine.acc0
        acc1 := if lanes.has1 then m.acc1 else t.machine.acc1 } := by
  intro m saved t x n avoids same
  obtain ⟨effect, applied⟩ := exec_eq_ok (t := saved) (Prod.ext rfl saves)
  obtain ⟨even, word0, word1⟩ := Machine.words_of_apply_save applied
  have kept0 (selected : lanes.has0) : t.machine.mem.word (m.sbp + a.setWidth 17) = m.acc0 :=
    (word_execEach avoids fun x hx => .inl ⟨selected, hx⟩).trans (word0 selected)
  have kept1 (selected : lanes.has1) : t.machine.mem.word (m.sbp + a.setWidth 17 + 4) = m.acc1 :=
    (word_execEach avoids fun x hx => .inr ⟨selected, hx⟩).trans (word1 selected)
  rw [← same] at even kept0 kept1
  have fetched : t.machine.apply (.fetch .set lanes b) = _ := Machine.apply_fetch_set even
  rw [ite_congr rfl kept0 fun _ => rfl, ite_congr rfl kept1 fun _ => rfl] at fetched
  have machine : n = _ := (t.machine_exec (.fetch .set lanes b)).trans (congrArg Prod.fst fetched)
  refine ⟨?_, machine⟩
  rw [machine]
  exact outcome_exec_of_apply fetched

/-- A machine that saves both accumulators across the end of memory. -/
def savingAcrossTheEnd : Session where
  machine := { sbp := 0x1fffa, acc0 := 0x80000001, acc1 := 0x7654321f }

/-- Both accumulators are lost, a byte is stored behind those that were saved, and a store to one of
these has too large a shift. -/
def losingBoth : List Op :=
  [.fetch .set .both 0x100, .store .lane0 false 0xc 0, .store .lane0 false 4 32, .setBase .lbp 0x10]

theorem exec_fetch_of_save_acrossTheEnd :
    let t := execEach losingBoth (savingAcrossTheEnd.exec (.save .both 4)).1
    let n := (t.exec (.fetch .set .both 0x1ffee)).1.machine
    t.machine.acc0 = 0 ∧ t.machine.acc1 = 0 ∧ n.acc0 = 0x80000001 ∧ n.acc1 = 0x7654321f := by
  have unsaved : ¬ savingAcrossTheEnd.machine.Writes (.save .both 4) 6 := by
    rintro (⟨-, inside⟩ | ⟨-, inside⟩) <;> revert inside <;> unfold Image.InWord <;> decide
  have avoids : (savingAcrossTheEnd.exec (.save .both 4)).1.Avoids
      (savingAcrossTheEnd.machine.Writes (.save .both 4)) losingBoth := by
    refine ⟨.inr fun x _ => id, .inr ?_, .inl (Nat.le_refl 32), .inr fun x _ => id, trivial⟩
    have sbp : ((savingAcrossTheEnd.exec (.save .both 4)).1.exec
      (.fetch .set .both 0x100)).1.machine.sbp = 0x1fffa := by decide +kernel
    rintro x written (⟨-, hx⟩ | ⟨second, -⟩)
    · rw [hx, sbp] at written
      exact unsaved written
    · cases second
  have restored := (exec_fetch_of_save savingAcrossTheEnd .both 4 0x1ffee losingBoth rfl avoids
    (by decide +kernel)).2
  dsimp only
  rw [restored]
  exact ⟨by decide +kernel, by decide +kernel, rfl, rfl⟩

end Session

/-! ### Stores -/

/-- The number that a store makes of an accumulator: shifted right, rounded down, and moved into the
range of a signed byte or its non-negative half. -/
def storedValue (relu : Bool) (shift : Nat) (acc : Word) : Int :=
  max (if relu then 0 else -128) (min 127 ⌊(acc.toInt : ℚ) / 2 ^ shift⌋)

theorem toInt_sshiftRight_eq_floor (acc : Word) (shift : Nat) :
    (acc.sshiftRight shift).toInt = ⌊(acc.toInt : ℚ) / 2 ^ shift⌋ := by
  have power : (2 ^ shift : ℚ) = ((2 ^ shift : ℕ) : ℚ) := by push_cast; rfl
  rw [BitVec.toInt_sshiftRight, Int.shiftRight_eq_div_pow, power, Rat.floor_intCast_div_natCast]

namespace Image

variable {m n k : Image} {a x : Address} {selected : Bool} {value : Int}

/-- Both images have the same at an address. -/
def SameAt (x : Address) (m n : Image) : Prop :=
  n.byte x = m.byte x ∧ n.isDefined x = m.isDefined x

/-- The byte at an address, if its lane is selected, has the value in the second image and is
defined.  If not, it is as in the first image. -/
structure LaneStored (selected : Bool) (a : Address) (value : Int) (m n : Image) : Prop where
  stored : selected → (n.byte a).toInt = value ∧ n.isDefined a
  kept : selected = false → SameAt a m n

theorem laneStored_ite (selected : Bool) (a : Address) (v : Byte) (m : Image) :
    LaneStored selected a v.toInt m (if selected then m.setByte a v else m) := by
  cases selected with
  | true =>
    refine ⟨fun _ => ⟨?_, ?_⟩, nofun⟩
    · rw [if_pos rfl, byte_setByte, if_pos rfl]
    · rw [if_pos rfl, isDefined_setByte]
      exact .inl rfl
  | false => exact ⟨nofun, fun _ => ⟨rfl, rfl⟩⟩

theorem sameAt_ite_setByte (selected : Bool) (h : x ≠ a) (v : Byte) (m : Image) :
    SameAt x m (if selected then m.setByte a v else m) := by
  cases selected with
  | true =>
    rw [SameAt, if_pos rfl, byte_setByte, if_neg h, Bool.eq_iff_iff, isDefined_setByte]
    exact ⟨rfl, or_iff_right h⟩
  | false => exact ⟨rfl, rfl⟩

theorem LaneStored.trans_sameAt (h : LaneStored selected a value m n) (same : SameAt a n k) :
    LaneStored selected a value m k where
  stored lane := by
    rw [same.1, same.2]
    exact h.stored lane
  kept lane := ⟨same.1.trans (h.kept lane).1, same.2.trans (h.kept lane).2⟩

theorem SameAt.trans_laneStored (same : SameAt a m n) (h : LaneStored selected a value n k) :
    LaneStored selected a value m k where
  stored := h.stored
  kept lane := ⟨(h.kept lane).1.trans same.1, (h.kept lane).2.trans same.2⟩

end Image

/-- A store with a shift that an accumulator has room for changes the bytes of its lanes. -/
theorem Machine.exists_apply_store_lanes (m : Machine) (lanes : Lanes) (relu : Bool)
    (addr : Word) {shift : Word} (small : shift.toNat < 32) :
    let ea := m.sbp + addr.setWidth 17
    ∃ mem effect, m.apply (.store lanes relu addr shift) = ({ m with mem }, .ok effect) ∧
      Image.LaneStored lanes.has0 ea (storedValue relu shift.toNat m.acc0) m.mem mem ∧
      Image.LaneStored lanes.has1 (ea + 1) (storedValue relu shift.toNat m.acc1) m.mem mem := by
  intro ea
  have value (acc : Word) :
      (saturate relu shift.toNat acc).toInt = storedValue relu shift.toNat acc := by
    rw [toInt_saturate, toInt_sshiftRight_eq_floor, storedValue]
  have apart : ea ≠ ea + 1 := by bv_omega
  dsimp only [apply]
  rw [if_neg (Nat.not_le.2 small), withMem_ite, withMem_ite, ← value, ← value]
  refine ⟨_, _, rfl, ?_, ?_⟩
  · exact (Image.laneStored_ite _ _ _ _).trans_sameAt (Image.sameAt_ite_setByte _ apart _ _)
  · exact (Image.sameAt_ite_setByte _ apart.symm _ _).trans_laneStored (Image.laneStored_ite _ _ _ _)

namespace Session

/-- A store with a shift below 32 fails at most for its trace line.  The byte of a selected lane is
its accumulator divided by the power of two, rounded down and moved into range; that of the other
lane and the accumulators stay as they are. -/
theorem exec_store (s : Session) (lanes : Lanes) (relu : Bool) (addr : Word) {shift : Word}
    (small : shift.toNat < 32) :
    let m := s.machine
    let ea := m.sbp + addr.setWidth 17
    let x := s.exec (.store lanes relu addr shift)
    let n := x.1.machine
    (∀ f, x.2 = .error f → f = .trace) ∧
      Image.LaneStored lanes.has0 ea (storedValue relu shift.toNat m.acc0) m.mem n.mem ∧
      Image.LaneStored lanes.has1 (ea + 1) (storedValue relu shift.toNat m.acc1) m.mem n.mem ∧
      n.acc0 = m.acc0 ∧ n.acc1 = m.acc1 := by
  intro m ea x n
  obtain ⟨mem, effect, applied, lane0, lane1⟩ := m.exists_apply_store_lanes lanes relu addr small
  have machine : n = { m with mem } := (s.machine_exec _).trans (congrArg Prod.fst applied)
  rw [machine]
  exact ⟨fun f => eq_trace_of_exec applied, lane0, lane1, rfl, rfl⟩

/-- A machine that stores to the last byte of memory and the first. -/
def storingAtTheEnd : Session where
  machine := { sbp := 0x1ff00, acc0 := 0xfffffffb, acc1 := 0x91a }

theorem exec_store_storingAtTheEnd :
    let both := (storingAtTheEnd.exec (.store .both false 0xff 1)).1.machine.mem
    let one := (storingAtTheEnd.exec (.store .lane0 true 0xff 31)).1.machine.mem
    (both.byte 0x1ffff).toInt = -3 ∧ (both.byte 0).toInt = 127 ∧ both.isDefined 0 ∧
      (one.byte 0x1ffff).toInt = 0 ∧ one.isDefined 0 = false := by
  obtain ⟨-, lane0, lane1, -⟩ := exec_store storingAtTheEnd .both false 0xff
    (show (1 : Word).toNat < 32 by decide)
  obtain ⟨-, clamped, other, -⟩ := exec_store storingAtTheEnd .lane0 true 0xff
    (show (31 : Word).toNat < 32 by decide)
  have values : storedValue false 1 0xfffffffb = -3 ∧ storedValue false 1 0x91a = 127 ∧
      storedValue true 31 0xfffffffb = 0 := by
    simp only [storedValue, ← toInt_sshiftRight_eq_floor]
    decide
  refine ⟨(lane0.stored rfl).1.trans values.1, (lane1.stored rfl).1.trans values.2.1,
    (lane1.stored rfl).2, (clamped.stored rfl).1.trans values.2.2, ?_⟩
  exact (other.kept rfl).2.trans (Image.isDefined_empty 0)

end Session

end Macc
