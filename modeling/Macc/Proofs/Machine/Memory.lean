import Macc.Proofs.Image.Overlay
import Macc.Proofs.Machine.Runs

/-!
# Memory after a run

Instructions write memory by way of the mask only, so the mask of the memory after a run is a
record of everything that the program wrote (`Session.records_run`).
-/

namespace Macc

open Relation

namespace Machine

theorem records_apply (m : Machine) (op : Op) : m.mem.Records (m.apply op).1.mem := by
  fun_cases apply m op with
  | case1 b v => cases b <;> exact .refl _
  | case2 b v => cases b <;> exact .refl _
  | case4 lanes =>
    cases lanes with
    | both => exact (Image.records_setByte _ _ _).trans (Image.records_setByte _ _ _)
    | lane0 => exact Image.records_setByte _ _ _
    | lane1 => exact Image.records_setByte _ _ _
  | case6 lanes =>
    cases lanes with
    | both => exact (Image.records_setWord _ _ _).trans (Image.records_setWord _ _ _)
    | lane0 => exact Image.records_setWord _ _ _
    | lane1 => exact Image.records_setWord _ _ _
  | _ => exact .refl _

theorem Change.records {m n : Machine} (h : m.Change n) : m.mem.Records n.mem := by
  cases h with
  | apply op => exact m.records_apply op
  | load cache src slot =>
    rw [mem_load]
    exact .refl _
  | _ => exact .refl _

theorem records_of_changes {m n : Machine} (h : ReflTransGen Change m n) :
    m.mem.Records n.mem := by
  induction h with
  | refl => exact .refl _
  | tail _ change ih => exact ih.trans change.records

end Machine

/-- However a run ends, the bytes defined before it are still defined, and a byte that is not
defined after it is what it was.  So the defined bytes after the run, listed and put on top of the
memory before it, give the memory after it. -/
theorem Session.records_run (limits : Limits) (start : Nat) (s : Session) :
    let before := s.machine.mem
    let after := (s.run limits start).1.machine.mem
    (∀ x, before.isDefined x → after.isDefined x) ∧
      (∀ x, after.isDefined x = false → after.byte x = before.byte x) ∧
      (Image.ofHex (after.toHex .bytes)).map before.overlay = .ok after := by
  have records := Machine.records_of_changes (changes_run limits start s)
  exact ⟨records.isDefined, records.byte, Image.map_overlay_ofHex records⟩

end Macc
