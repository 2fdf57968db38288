import Macc.Proofs.Machine.Likeness

/-!
# Traces from outside

A change of the trace that does not show in which lines the trace takes (`Unnoticed`) goes unnoticed
by whatever respects likenesses: changing the trace before or after it comes to the same
(`Session.Respects.retrace`).  Lines written earlier are an example (`unnoticed_behind`).
-/

namespace Macc

/-- The likeness of sessions that differ in their traces only. -/
def Likeness.ofTraces (level behind : Option Trace → Option Trace → Prop)
    (hasRoomFor : ∀ t u l, level t u → t.all (·.hasRoomFor l) → u.all (·.hasRoomFor l))
    (push : ∀ t u l, level t u → t.all (·.hasRoomFor l) →
      level (t.map (·.push l)) (u.map (·.push l)))
    (refuse : ∀ t u l, level t u → t.all (·.hasRoomFor l) = false → u.all (·.hasRoomFor l) →
      behind t (u.map (·.push l)))
    (stay : ∀ t u l, behind t u → behind t (u.map (·.push l))) : Likeness where
  machine m n := n = m
  level := level
  behind := behind
  pc h := congrArg Machine.pc h
  stack h := congrArg Machine.stack h
  code h := congrArg Machine.code h
  word h a := congrArg (·.mem.word a) h
  apply h op := ⟨congrArg (·.apply op |>.2) h, congrArg (·.apply op |>.1) h⟩
  load h cache src slot := congrArg (·.load cache src slot) h
  control h pc stack := congrArg (fun m => { m with pc, stack }) h
  hasRoomFor := hasRoomFor _ _ _
  push := push _ _ _
  refuse := refuse _ _ _
  stay := stay _ _ _

/-- Changing traces that satisfy `P` with `φ` does not show in the lines that they take, neither now
nor later. -/
structure Unnoticed (P : Option Trace → Prop) (φ : Option Trace → Option Trace) : Prop where
  hasRoomFor : ∀ t l, P t → (φ t).all (·.hasRoomFor l) = t.all (·.hasRoomFor l)
  push : ∀ t l, P t → φ (t.map (·.push l)) = (φ t).map (·.push l)
  keeps : ∀ t l, P t → P (t.map (·.push l))

/-- The trace with lines in front of it. -/
def Trace.behind (front : Array TraceLine) (t : Trace) : Trace := ⟨front ++ t.lines, t.room⟩

theorem unnoticed_behind (front : Array TraceLine) :
    Unnoticed (fun _ => True) (Option.map (Trace.behind front)) where
  hasRoomFor t l _ := by cases t <;> rfl
  push t l _ := by
    cases t with
    | none => rfl
    | some t => exact congrArg (fun lines => some (Trace.mk lines _)) (Array.append_push ..)
  keeps _ _ _ := trivial

variable {P : Option Trace → Prop} {φ : Option Trace → Option Trace}

/-- The likeness of sessions before and after an unnoticed change. -/
def Unnoticed.likeness (h : Unnoticed P φ) : Likeness :=
  .ofTraces (fun t u => P t ∧ u = φ t) (fun _ _ => False)
    (fun t _ l level room => by rw [level.2, h.hasRoomFor t l level.1, room])
    (fun t _ l level _ => ⟨h.keeps t l level.1, by rw [level.2, h.push t l level.1]⟩)
    (fun t _ l level full room => by
      rw [level.2, h.hasRoomFor t l level.1, full] at room
      cases room)
    (fun _ _ _ => id)

namespace Session

/-- The session with its trace changed. -/
def retrace (φ : Option Trace → Option Trace) (s : Session) : Session :=
  { s with trace := φ s.trace }

variable (h : Unnoticed P φ) {s : Session}

include h

theorem alike_retrace (hs : P s.trace) : h.likeness.Alike s (s.retrace φ) :=
  ⟨rfl, rfl, hs, rfl⟩

theorem eq_retrace_of_alike {t : Session} (alike : h.likeness.Alike s t) : t = s.retrace φ := by
  obtain ⟨m, c, trace⟩ := t
  obtain ⟨machine, counters, -, trace⟩ := alike
  obtain rfl : m = s.machine := machine
  obtain rfl : c = s.counters := counters
  exact congrArg (Session.mk _ _) trace

/-- What respects likenesses does not notice the change of a trace. -/
theorem Respects.retrace {ε α : Type} {action : Session → Session × Except ε α}
    {failed : Session → Except ε α → Prop} (respects : Respects action failed) (hs : P s.trace) :
    action (s.retrace φ) = (action s).map (retrace φ) id := by
  rcases respects _ _ _ (alike_retrace h hs) with ⟨same, alike⟩ | ⟨-, behind⟩
  · exact Prod.ext (eq_retrace_of_alike h alike) same.symm
  · exact behind.elim

theorem run_retrace (hs : P s.trace) (limits : Limits) (start : Nat) :
    (s.retrace φ).run limits start = (s.run limits start).map (retrace φ) id :=
  (respects_run limits start).retrace h hs

end Session

end Macc
