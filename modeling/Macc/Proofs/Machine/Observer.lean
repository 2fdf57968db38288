import Mathlib.Algebra.GroupWithZero.Nat
import Macc.Proofs.Machine.Limits

/-!
# The trace as an observer

A trace tells what a session does and has no part in it.  With a trace that takes every line, an
action comes to what it comes to without a trace.  With one that does not, this is so too, or the
action stops at the first line that the trace refuses (`Session.Observed`).  The lines received are
the first ones of the trace that takes every line, as many as there is room for.

`Session.observed` says so of instructions of the datapath and of runs.
-/

namespace Macc

/-! ### Lines and room -/

/-- The bytes that lines take with their line feeds. -/
def lineBytes (lines : List TraceLine) : Nat := (lines.map (·.text.utf8ByteSize + 1)).sum

theorem lineBytes_append (ls ms : List TraceLine) :
    lineBytes (ls ++ ms) = lineBytes ls + lineBytes ms := by
  rw [lineBytes, List.map_append, List.sum_append, lineBytes, lineBytes]

theorem lineBytes_singleton (l : TraceLine) : lineBytes [l] = l.text.utf8ByteSize + 1 := rfl

theorem lineBytes_pos {ls : List TraceLine} (h : ls ≠ []) : 0 < lineBytes ls := by
  obtain ⟨l, ls, rfl⟩ := List.exists_cons_of_ne_nil h
  rw [← List.singleton_append, lineBytes_append, lineBytes_singleton]
  omega

/-- As many lines as fit into the bytes of the first `n` are these. -/
theorem eq_take_of_lineBytes {taken rest : List TraceLine} {n : Nat}
    (fits : lineBytes taken ≤ lineBytes ((taken ++ rest).take n))
    (full : ∀ l ∈ rest.head?, lineBytes ((taken ++ rest).take n) < lineBytes (taken ++ [l])) :
    taken = (taken ++ rest).take n := by
  rw [List.take_append] at fits full ⊢
  rw [lineBytes_append] at fits full
  rcases Nat.lt_or_ge n taken.length with hn | hn
  · have more : 0 < lineBytes (taken.drop n) := lineBytes_pos (by simpa using hn)
    have whole := lineBytes_append (taken.take n) (taken.drop n)
    rw [List.take_append_drop] at whole
    have nothing : lineBytes (rest.take 0) = 0 := rfl
    rw [Nat.sub_eq_zero_of_le (Nat.le_of_lt hn), nothing] at fits
    omega
  · rw [List.take_of_length_le hn] at full ⊢
    cases hr : rest.take (n - taken.length) with
    | nil => rw [List.append_nil]
    | cons l ls =>
      have head : l ∈ rest.head? := by
        cases rest with
        | nil => simp at hr
        | cons l' rest =>
          cases hk : n - taken.length with
          | zero => simp [hk] at hr
          | succ k =>
            rw [hk, List.take_succ_cons, List.cons.injEq] at hr
            exact congrArg some hr.1
      have overflow := full l head
      rw [hr, ← List.singleton_append, lineBytes_append, lineBytes_append] at overflow
      omega

namespace Trace

/-- The trace with room for any line. -/
def unbounded (t : Trace) : Trace := { t with room := none }

def pushAll (t : Trace) (ls : List TraceLine) : Trace := ls.foldl push t

/-- There is room for all of the lines. -/
def Takes (t : Trace) (ls : List TraceLine) : Prop := ∀ room ∈ t.room, lineBytes ls ≤ room

theorem pushAll_concat (t : Trace) (ls : List TraceLine) (l : TraceLine) :
    t.pushAll (ls ++ [l]) = (t.pushAll ls).push l := List.foldl_append

theorem toList_lines_pushAll (t : Trace) (ls : List TraceLine) :
    (t.pushAll ls).lines.toList = t.lines.toList ++ ls := by
  induction ls generalizing t with
  | nil => exact (List.append_nil _).symm
  | cons l ls ih =>
    rw [← List.singleton_append, ← List.append_assoc, ← toList_lines_push]
    exact ih (t.push l)

theorem room_pushAll (t : Trace) (ls : List TraceLine) :
    (t.pushAll ls).room = t.room.map (· - lineBytes ls) := by
  induction ls generalizing t with
  | nil =>
    obtain ⟨lines, room⟩ := t
    cases room <;> rfl
  | cons l ls ih =>
    refine (ih (t.push l)).trans ?_
    rw [push, Option.map_map, ← List.singleton_append, lineBytes_append, lineBytes_singleton]
    congr 1
    funext room
    exact Nat.sub_sub _ _ _

theorem hasRoomFor_pushAll_iff {t : Trace} {ls : List TraceLine} (h : t.Takes ls) (l : TraceLine) :
    (t.pushAll ls).hasRoomFor l ↔ t.Takes (ls ++ [l]) := by
  unfold hasRoomFor Takes
  rw [room_pushAll, lineBytes_append, lineBytes_singleton]
  cases hr : t.room with
  | none => exact iff_of_true rfl fun _ hroom => nomatch hroom
  | some room =>
    have fits := h room hr
    simp only [Option.map_some, decide_eq_true_eq, Option.mem_some_iff, forall_eq']
    omega

/-- Two traces that began as `t`, the second with room for any line: both have taken the same lines,
and then the first has refused the first one of the lines `rest` that the second has taken. -/
def Parts (t : Trace) (rest : List TraceLine) (x y : Option Trace) : Prop :=
  ∃ taken, x = some (t.pushAll taken) ∧ y = some (t.unbounded.pushAll (taken ++ rest)) ∧
    t.Takes taken ∧ ∀ l ∈ rest.head?, ¬ t.Takes (taken ++ [l])

theorem Parts.push_right {t : Trace} {rest : List TraceLine} {x y : Option Trace} {l : TraceLine}
    (h : t.Parts rest x y) (refused : rest = [] → x.all (·.hasRoomFor l) = false) :
    t.Parts (rest ++ [l]) x (y.map (·.push l)) := by
  obtain ⟨taken, rfl, rfl, fits, full⟩ := h
  refine ⟨taken, rfl, ?_, fits, ?_⟩
  · rw [Option.map_some, ← pushAll_concat, List.append_assoc]
  · cases rest with
    | nil =>
      have hl := refused rfl
      intro l' hl' takes
      obtain rfl : l = l' := Option.some.inj hl'
      rw [Option.all_some, (hasRoomFor_pushAll_iff fits l).2 takes] at hl
      cases hl
    | cons l' rest => exact full

theorem Parts.push_both {t : Trace} {x y : Option Trace} {l : TraceLine} (h : t.Parts [] x y)
    (room : x.all (·.hasRoomFor l)) : t.Parts [] (x.map (·.push l)) (y.map (·.push l)) := by
  obtain ⟨taken, rfl, rfl, fits, -⟩ := h
  refine ⟨taken ++ [l], ?_, ?_, (hasRoomFor_pushAll_iff fits l).1 room, fun _ h => nomatch h⟩
  · rw [Option.map_some, ← pushAll_concat]
  · rw [Option.map_some, ← pushAll_concat, List.append_nil, List.append_nil]

theorem Parts.all_hasRoomFor {t : Trace} {rest : List TraceLine} {x y : Option Trace}
    (h : t.Parts rest x y) (l : TraceLine) : y.all (·.hasRoomFor l) := by
  obtain ⟨taken, -, rfl, -, -⟩ := h
  refine hasRoomFor_of_room_eq_none ?_ l
  rw [room_pushAll]
  rfl

end Trace

namespace Likeness

/-- The likeness of sessions with a trace and with one that takes every line. -/
def bounded (t : Trace) : Likeness :=
  .ofTraces (t.Parts []) (fun x y => ∃ l ls, t.Parts (l :: ls) x y)
    (fun _ _ l level _ => level.all_hasRoomFor l)
    (fun _ _ _ level room => level.push_both room)
    (fun _ _ l level full _ => ⟨l, [], level.push_right fun _ => full⟩)
    (fun _ _ l ⟨l', ls, behind⟩ => ⟨l', ls ++ [l], behind.push_right fun h => nomatch h⟩)

/-- The likeness of sessions with any trace and without one. -/
def untraced : Likeness :=
  .ofTraces (fun _ y => y = none) (fun _ _ => True)
    (fun _ _ _ level _ => by rw [level]; rfl)
    (fun _ _ _ level _ => by rw [level]; rfl)
    (fun _ _ _ _ _ _ => trivial)
    (fun _ _ _ _ => trivial)

end Likeness

theorem unnoticed_drop : Unnoticed (fun trace => ∀ t ∈ trace, t.room = none) fun _ => none where
  hasRoomFor trace l h := by
    cases trace with
    | none => rfl
    | some t => exact (Trace.hasRoomFor_of_room_eq_none (h t rfl) l).symm
  push _ _ _ := rfl
  keeps _ l h := Trace.room_map_push h l

namespace Session

/-- The session with another trace, or without one. -/
def withTrace (trace : Option Trace) (s : Session) : Session := { s with trace }

/-- The same outcome, machine and counters. -/
structure SameButTrace {ε α : Type} (x y : Session × Except ε α) : Prop where
  outcome : x.2 = y.2
  machine : x.1.machine = y.1.machine
  counters : x.1.counters = y.1.counters

/-- What the trace `t` has to do with what an action comes to, given the outcomes `failed` of an
action that stops at a line that its trace refuses. -/
structure Observed {ε α : Type} (action : Session → Session × Except ε α)
    (failed : Except ε α → Prop) (s : Session) (t : Trace) : Prop where
  /-- With a trace that takes every line, the action comes to what it comes to without one. -/
  unbounded : SameButTrace (action (s.withTrace (some t.unbounded))) (action (s.withTrace none))
  /-- With a trace that does not, the same holds or the action stops. -/
  bounded : SameButTrace (action (s.withTrace (some t))) (action (s.withTrace none)) ∨
    failed (action (s.withTrace (some t))).2
  /-- The lines received are a prefix of those that the trace with room for every line receives. -/
  lines : (action (s.withTrace (some t))).1.lines.toList <+:
    (action (s.withTrace (some t.unbounded))).1.lines.toList
  /-- Any number of the new lines is all that is received for some bound on the room. -/
  room : ∀ n, ∃ room, (action (s.withTrace (some { t with room := some room }))).1.lines.toList =
    (action (s.withTrace (some t.unbounded))).1.lines.toList.take (t.lines.size + n)

section Respects

variable {ε α : Type} {action : Session → Session × Except ε α}
  {failed : Session → Except ε α → Prop} (h : Respects action failed) (s : Session) (t : Trace)

include h

theorem Respects.sameButTrace :
    SameButTrace (action (s.withTrace (some t.unbounded))) (action (s.withTrace none)) := by
  let traced := s.withTrace (some t.unbounded)
  have room : ∀ t' ∈ traced.trace, t'.room = none := fun t' ht' => Option.some.inj ht' ▸ rfl
  have dropped : action (s.withTrace none) =
      (action traced).map (Session.retrace fun _ => none) id :=
    Respects.retrace (s := traced) unnoticed_drop h room
  rw [dropped]
  exact ⟨rfl, rfl, rfl⟩

theorem Respects.sameButTrace_or_failed :
    SameButTrace (action (s.withTrace (some t))) (action (s.withTrace none)) ∨
      failed (s.withTrace none) (action (s.withTrace (some t))).2 := by
  have alike : Likeness.untraced.Alike (s.withTrace (some t)) (s.withTrace none) := ⟨rfl, rfl, rfl⟩
  rcases h _ _ _ alike with ⟨same, alike⟩ | ⟨stopped, -⟩
  · exact .inl ⟨same, alike.machine.symm, alike.counters.symm⟩
  · exact .inr stopped

/-- The lines that an action writes to a trace with and without a bound on its room. -/
theorem Respects.exists_lines :
    ∃ taken rest, t.Takes taken ∧ (∀ l ∈ rest.head?, ¬ t.Takes (taken ++ [l])) ∧
      (action (s.withTrace (some t))).1.lines.toList = t.lines.toList ++ taken ∧
      (action (s.withTrace (some t.unbounded))).1.lines.toList =
        t.lines.toList ++ (taken ++ rest) := by
  have alike : (Likeness.bounded t).Alike (s.withTrace (some t))
      (s.withTrace (some t.unbounded)) :=
    ⟨rfl, rfl, [], rfl, rfl, fun _ _ => Nat.zero_le _, fun _ h => nomatch h⟩
  obtain ⟨rest, taken, hx, hy, takes, full⟩ : ∃ rest, t.Parts rest
      (action (s.withTrace (some t))).1.trace
      (action (s.withTrace (some t.unbounded))).1.trace := by
    rcases h _ _ _ alike with ⟨-, alike⟩ | ⟨-, l, ls, behind⟩
    · exact ⟨[], alike.trace⟩
    · exact ⟨l :: ls, behind⟩
  refine ⟨taken, rest, takes, full, ?_, ?_⟩
  · rw [lines, hx]
    exact t.toList_lines_pushAll taken
  · rw [lines, hy]
    exact t.unbounded.toList_lines_pushAll (taken ++ rest)

theorem Respects.observes : Observed action (failed (s.withTrace none)) s t where
  unbounded := h.sameButTrace s t
  bounded := h.sameButTrace_or_failed s t
  lines := by
    obtain ⟨taken, rest, -, -, hx, hy⟩ := h.exists_lines s t
    rw [hx, hy, ← List.append_assoc]
    exact List.prefix_append _ _
  room n := by
    obtain ⟨taken, rest, -, -, -, whole⟩ := h.exists_lines s t
    let room := lineBytes ((taken ++ rest).take n)
    obtain ⟨taken', rest', takes, full, hx, hy⟩ :=
      h.exists_lines s { t with room := some room }
    have same : taken ++ rest = taken' ++ rest' := List.append_cancel_left (whole.symm.trans hy)
    refine ⟨room, ?_⟩
    have first : taken' = (taken' ++ rest').take n := by
      refine eq_take_of_lineBytes ?_ fun l hl => ?_
      · rw [← same]
        exact takes room rfl
      · rw [← same]
        exact Nat.lt_of_not_le fun le => full l hl fun _ h => Option.some.inj h ▸ le
    have front : t.lines.toList.take (t.lines.size + n) = t.lines.toList :=
      List.take_of_length_le (Nat.le_add_right _ _)
    rw [hx, whole, same, List.take_append, Array.length_toList, Nat.add_sub_cancel_left, ← first,
      front]

end Respects

/-! ### Instructions and runs -/

/-- Tracing is a pure observer, of every instruction of the datapath and of every run.  A run that
stops for its trace does so at an instruction that the run without a trace carries out too. -/
theorem observed (s : Session) (t : Trace) :
    (∀ op, Observed (·.exec op) (· = .error .trace) s t) ∧
      ∀ limits start, Observed (·.run limits start)
        (fun outcome => ∃ pc, outcome = .error ⟨some pc, .trace⟩ ∧
          CarriesOutAt limits start (s.withTrace none) pc) s t :=
  ⟨fun op => (respects_exec op).observes s t,
    fun limits start => (respects_run limits start).observes s t⟩

end Session

end Macc
