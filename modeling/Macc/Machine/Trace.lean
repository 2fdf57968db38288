import Macc.Image.Basic
import Macc.Instruction.Printing

/-!
# Traces

A trace has one line for every instruction that was carried out: the instruction and its `Effect`.
A `Trace` may have bounded room; `hasRoomFor` says whether a line still fits and `push` adds it.
-/

namespace Macc

open Text

/-! ### Effects -/

/-- What an instruction did, as far as its trace line tells. -/
inductive Effect
  | cycles (total : Nat)
  | depth (entries : Nat)
  /-- The number of instructions to carry out from the code cache. -/
  | microOps (count : Nat)
  /-- The number of cache entries loaded behind the first one, if the load was repeated. -/
  | loaded (repeats : Option Nat)
  | base (value : Word)
  /-- The accumulators, the bytes they became and the address of the first. -/
  | stored (acc0 acc1 : Word) (byte0 byte1 : Byte) (addr : Address)
  /-- The accumulators and the address of the first word. -/
  | saved (acc0 acc1 : Word) (addr : Address)
  | fetched (acc0 acc1 : Word)
  /-- The data with its address, the coefficients with their entry and the new accumulators. -/
  | reduced (data : Dword) (addr : Address) (coeff0 coeff1 : Dword) (slot : Slot)
      (acc0 acc1 : Word)
  deriving DecidableEq, Repr

/-- A number with its radix and as many hexadecimal digits as its width asks for. -/
def hexLiteral (v : BitVec n) : String := "0x" ++ hex ((n + 3) / 4) v.toNat

def Effect.text : Effect → String
  | cycles total => s!"{total} cycles"
  | depth entries => s!"depth {entries}"
  | microOps count => s!"{count} micro-ops"
  | loaded none => "1 entry"
  | loaded (some repeats) => s!"{repeats + 1} entries"
  | base value => "-> 0x" ++ hex 5 value.toNat
  | stored acc0 acc1 byte0 byte1 addr =>
    s!"{hexLiteral acc0} {hexLiteral acc1} -> {hexLiteral byte0} {hexLiteral byte1}" ++
      s!" @ {hexLiteral addr}"
  | saved acc0 acc1 addr => s!"{hexLiteral acc0} {hexLiteral acc1} @ {hexLiteral addr}"
  | fetched acc0 acc1 => s!"-> {hexLiteral acc0} {hexLiteral acc1}"
  | reduced data addr coeff0 coeff1 slot acc0 acc1 =>
    s!"{hexLiteral data} @ {hexLiteral addr}, {hexLiteral coeff0} {hexLiteral coeff1}" ++
      s!" @ {hexLiteral slot} -> {hexLiteral acc0} {hexLiteral acc1}"

/-! ### Lines -/

structure TraceLine where
  op : Op
  effect : Effect
  deriving DecidableEq, Repr

/-- The line as text, without a line feed. -/
def TraceLine.text (l : TraceLine) : String := l.op.text ++ " // " ++ l.effect.text

/-- The lines written so far, and the bytes that may still be written if there is a bound. -/
structure Trace where
  lines : Array TraceLine := #[]
  room : Option Nat := none

namespace Trace

/-- A line and its line feed may still be written. -/
def hasRoomFor (t : Trace) (l : TraceLine) : Bool :=
  match t.room with
  | none => true
  | some room => l.text.utf8ByteSize < room

/-- Write a line, which takes as much room as its text and a line feed. -/
def push (t : Trace) (l : TraceLine) : Trace :=
  ⟨t.lines.push l, t.room.map (· - (l.text.utf8ByteSize + 1))⟩

theorem toList_lines_push (t : Trace) (l : TraceLine) :
    (t.push l).lines.toList = t.lines.toList ++ [l] := by
  simp [push]

theorem hasRoomFor_of_room_eq_none {t : Trace} (h : t.room = none) (l : TraceLine) :
    t.hasRoomFor l := by
  simp [hasRoomFor, h]

/-- Writing a line puts no bound on the room. -/
theorem room_map_push {trace : Option Trace} (h : ∀ t ∈ trace, t.room = none) (l : TraceLine) :
    ∀ t ∈ trace.map (·.push l), t.room = none := by
  intro t ht
  obtain ⟨t', ht', rfl⟩ := Option.map_eq_some_iff.1 ht
  rw [push, h t' ht']
  rfl

end Trace

end Macc
