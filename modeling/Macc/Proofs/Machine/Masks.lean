import Macc.Proofs.Machine.Likeness
import Mathlib.Data.Set.Basic

/-!
# The mask and the program

Programs define bytes and never ask which bytes are defined.  To define the bytes of a mask as well
(`Image.mark`) before an instruction or after it comes to the same, and so it is for everything that
respects likenesses (`Session.Respects.mark`).  So two runs that differ only in what is defined
before them differ only in what is defined after them, and both define the same addresses
(`Session.run_masks`).
-/

namespace Macc

namespace Image

/-- The addresses of the defined bytes. -/
def defined (m : Image) : Set Address := {a | m.isDefined a}

/-- The image with the bytes of a mask defined too. -/
def mark (mask : Vector Bool memorySize) (m : Image) : Image :=
  ⟨m.bytes, Vector.zipWith (· || ·) mask m.mask⟩

variable (mask : Vector Bool memorySize) (m : Image)

theorem isDefined_mark (a : Address) :
    (m.mark mask).isDefined a = (mask[a.toFin] || m.isDefined a) :=
  Vector.getElem_zipWith a.isLt

theorem defined_mark :
    (m.mark mask).defined = ({ m with mask } : Image).defined ∪ m.defined := by
  ext a
  change (m.mark mask).isDefined a = true ↔ mask[a.toFin] = true ∨ m.isDefined a = true
  rw [isDefined_mark, Bool.or_eq_true]

theorem setByte_mark (a : Address) (v : Byte) :
    (m.mark mask).setByte a v = (m.setByte a v).mark mask := by
  refine ext_view (fun x => rfl) fun x => ?_
  rw [Bool.eq_iff_iff, isDefined_setByte, isDefined_mark, isDefined_mark, Bool.or_eq_true,
    Bool.or_eq_true, isDefined_setByte, or_left_comm]

theorem write_mark (a : Address) (bs : List Byte) :
    (m.mark mask).write a bs = (m.write a bs).mark mask := by
  induction bs generalizing m a with
  | nil => rfl
  | cons b bs ih => rw [write, setByte_mark, ih, write]

theorem setWord_mark (a : Address) (v : Word) :
    (m.mark mask).setWord a v = (m.setWord a v).mark mask :=
  m.write_mark mask a (wordBytes v)

end Image

namespace Machine

/-- The machine with the bytes of a mask defined in its memory too. -/
def mark (mask : Vector Bool memorySize) (m : Machine) : Machine :=
  { m with mem := m.mem.mark mask }

variable (mask : Vector Bool memorySize) (m : Machine)

theorem load_mark (cache : Cache) (src : Address) (slot : Slot) :
    (m.mark mask).load cache src slot = (m.load cache src slot).mark mask := by
  cases cache <;> rfl

theorem ite_setByte_mark (c : Bool) (a : Address) (v : Byte) :
    (if c then { m.mark mask with mem := (m.mark mask).mem.setByte a v } else m.mark mask) =
      (if c then { m with mem := m.mem.setByte a v } else m).mark mask := by
  cases c with
  | true => exact congrArg (fun mem => { m with mem }) (m.mem.setByte_mark mask a v)
  | false => rfl

theorem ite_setWord_mark (c : Bool) (a : Address) (v : Word) :
    (if c then { m.mark mask with mem := (m.mark mask).mem.setWord a v } else m.mark mask) =
      (if c then { m with mem := m.mem.setWord a v } else m).mark mask := by
  cases c with
  | true => exact congrArg (fun mem => { m with mem }) (m.mem.setWord_mark mask a v)
  | false => rfl

theorem apply_mark (op : Op) : (m.mark mask).apply op = (m.apply op).map (mark mask) id := by
  fun_cases apply m op with
  | case1 b v => cases b <;> rfl
  | case2 b v => cases b <;> rfl
  | case3 lanes relu addr shift h => exact if_pos h
  | case4 lanes relu addr shift h =>
    refine (if_neg h).trans (Prod.ext ?_ rfl)
    dsimp only
    rw [ite_setByte_mark, ite_setByte_mark]
    rfl
  | case5 lanes addr ea h => exact if_pos h
  | case6 lanes addr ea h =>
    refine (if_neg h).trans (Prod.ext ?_ rfl)
    dsimp only
    rw [ite_setWord_mark, ite_setWord_mark]
    rfl
  | case7 combine lanes addr ea h => exact if_pos h
  | case8 combine lanes addr ea h => exact if_neg h
  | case9 reduce addr slot ea h => exact if_pos h
  | case10 reduce addr slot ea h ci data coeff0 coeff1 acc0 acc1 folded =>
    exact (if_neg h).trans (congrArg (fun acc : Word × Word =>
      (({ m with acc0 := acc.1, acc1 := acc.2 } : Machine).mark mask,
        Except.ok (Effect.reduced data ea coeff0 coeff1 ci acc.1 acc.2))) folded)
  | case11 op => rw [apply] <;> first | rfl | assumption

end Machine

/-- The likeness of sessions that differ in a mask of defined bytes. -/
def Likeness.marked (mask : Vector Bool memorySize) : Likeness where
  machine m n := n = m.mark mask
  level t u := u = t
  behind _ _ := False
  pc h := by rw [h]; rfl
  stack h := by rw [h]; rfl
  code h := by rw [h]; rfl
  word h a := by rw [h]; rfl
  apply {m _} h op := by
    rw [h, m.apply_mark mask op]
    exact ⟨rfl, rfl⟩
  load {m _} h cache src slot := by
    rw [h]
    exact m.load_mark mask cache src slot
  control h pc stack := congrArg (fun m => { m with pc, stack }) h
  hasRoomFor h room := by rw [h, room]
  push h _ := congrArg _ h
  refuse h full room := by
    rw [h, full] at room
    cases room
  stay := id

namespace Session

/-- The session with the bytes of a mask defined in its memory too. -/
def mark (mask : Vector Bool memorySize) (s : Session) : Session :=
  { s with machine := s.machine.mark mask }

/-- The session with just the bytes of a mask defined in its memory. -/
def withMask (mask : Vector Bool memorySize) (s : Session) : Session :=
  { s with machine := { s.machine with mem := { s.machine.mem with mask } } }

/-- The same outcome, and sessions that differ at most in which bytes of memory are defined. -/
structure SameButMask {ε α : Type} (x y : Session × Except ε α) : Prop where
  outcome : x.2 = y.2
  session : ∀ mask, x.1.withMask mask = y.1.withMask mask

variable (mask : Vector Bool memorySize) (s : Session)

theorem withMask_eq_mark :
    s.withMask mask = (s.withMask (Vector.replicate memorySize false)).mark mask := by
  have whole : Vector.zipWith (· || ·) mask (Vector.replicate memorySize false) = mask := by
    ext i hi
    rw [Vector.getElem_zipWith, Vector.getElem_replicate, Bool.or_false]
  rw [mark, Machine.mark, Image.mark, withMask, withMask, whole]

theorem alike_mark : (Likeness.marked mask).Alike s (s.mark mask) := ⟨rfl, rfl, rfl⟩

theorem eq_mark_of_alike {t : Session} (alike : (Likeness.marked mask).Alike s t) :
    t = s.mark mask := by
  obtain ⟨m, c, trace⟩ := t
  obtain ⟨machine, counters, trace⟩ := alike
  obtain rfl : m = s.machine.mark mask := machine
  obtain rfl : c = s.counters := counters
  exact congrArg (Session.mk _ _) trace

/-- What respects likenesses has nothing to do with the mask. -/
theorem Respects.mark {ε α : Type} {action : Session → Session × Except ε α}
    {failed : Session → Except ε α → Prop} (h : Respects action failed) :
    action (s.mark mask) = (action s).map (mark mask) id := by
  rcases h _ _ _ (s.alike_mark mask) with ⟨same, alike⟩ | ⟨-, behind⟩
  · exact Prod.ext (eq_mark_of_alike mask _ alike) same.symm
  · exact behind.elim

theorem run_mark (limits : Limits) (start : Nat) :
    (s.mark mask).run limits start = (s.run limits start).map (mark mask) id :=
  (respects_run limits start).mark mask s

/-- Runs that differ only in which bytes are defined before them come to the same, and there are
addresses that both define in addition to those. -/
theorem run_masks (limits : Limits) (start : Nat) (mask₁ mask₂ : Vector Bool memorySize) :
    let x := (s.withMask mask₁).run limits start
    let y := (s.withMask mask₂).run limits start
    SameButMask x y ∧ ∃ written : Set Address,
      x.1.machine.mem.defined = (s.withMask mask₁).machine.mem.defined ∪ written ∧
      y.1.machine.mem.defined = (s.withMask mask₂).machine.mem.defined ∪ written := by
  let unmasked := s.withMask (Vector.replicate memorySize false)
  have marked (mask : Vector Bool memorySize) : (s.withMask mask).run limits start =
      (unmasked.run limits start).map (mark mask) id := by
    rw [withMask_eq_mark]
    exact unmasked.run_mark mask limits start
  dsimp only
  rw [marked mask₁, marked mask₂]
  exact ⟨⟨rfl, fun _ => rfl⟩, (unmasked.run limits start).1.machine.mem.defined,
    Image.defined_mark mask₁ _, Image.defined_mark mask₂ _⟩

end Session

/-- What a program leaves in memory does not depend on which bytes were defined, apart from these
being still defined. -/
theorem Image.run_mark (mask : Vector Bool memorySize) (m : Image) (start : Nat) :
    (m.mark mask).run start = (m.run start).map (mark mask) := by
  have marked : Session.run {} start { machine := { mem := m.mark mask } } =
      (Session.run {} start { machine := { mem := m } }).map (Session.mark mask) id :=
    Session.run_mark mask { machine := { mem := m } } {} start
  rw [run, run, marked]
  generalize Session.run {} start { machine := { mem := m } } = x
  obtain ⟨t, result⟩ := x
  cases result <;> rfl

end Macc
