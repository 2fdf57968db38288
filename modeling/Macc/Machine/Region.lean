import Macc.Machine.Session
import Macc.Text.Style

/-!
# Dumps

What a session looks like to its user: `Session.stateLines` draws the registers and counters in a
box, and `regionLines` prints a `Region` of memory in rows of sixteen bytes.
-/

namespace Macc

open Text

/-! ### Regions -/

/-- A part of memory to print, byte by byte or word by word. -/
structure Region where
  addr : Nat
  len : Nat
  words : Bool := false
  deriving DecidableEq, Repr

namespace Region

/-- The number of bytes to print.  No address is printed twice. -/
def size (r : Region) : Nat := min r.len memorySize

def stride (r : Region) : Nat := if r.words then 4 else 1

/-- The address of a byte of the region.  Addresses wrap around. -/
def address (r : Region) (offset : Nat) : Address := BitVec.ofNat 17 (r.addr + offset)

/-- The offsets of the cells of the row that begins at an offset. -/
def cellOffsets (r : Region) (row : Nat) : List Nat :=
  ((List.range (16 / r.stride)).map (row + r.stride * ·)).filter (· < r.size)

/-- The offsets at which the rows begin. -/
def rowOffsets (r : Region) : List Nat := (List.range ((r.size + 15) / 16)).map (16 * ·)

theorem length_rowOffsets (r : Region) : r.rowOffsets.length = (r.size + 15) / 16 := by
  simp [rowOffsets]

end Region

/-- A byte of memory, or two dashes if it is not defined. -/
def Image.byteCell (m : Image) (a : Address) : String :=
  if m.isDefined a then hex 2 (m.byte a).toNat else "--"

/-- A word of memory, dimmed if its first byte is not defined. -/
def Image.wordCell (m : Image) (a : Address) : String :=
  let digits := hex 8 (m.word a).toNat
  if m.isDefined a then digits else Style.dim.paint digits

/-- The rows of a region, each with the address that it begins at. -/
def Image.regionLines (m : Image) (r : Region) : List String :=
  r.rowOffsets.map fun row =>
    let cells := (r.cellOffsets row).map fun offset =>
      if r.words then m.wordCell (r.address offset) else m.byteCell (r.address offset)
    hex 5 (r.address row).toNat ++ " : " ++ " ".intercalate cells

theorem Image.length_regionLines (m : Image) (r : Region) :
    (m.regionLines r).length = (r.size + 15) / 16 := by
  simp [regionLines, r.length_rowOffsets]

/-! ### Registers and counters -/

/-- The upper and lower border of the registers. -/
def registerBorder : String := " +-------------+-------------+------------------------+"

/-- The border below counters and regions. -/
def border : String := " +----------------------------------------------------+"

/-- An accumulator as a word and as a signed number. -/
def accumulatorText (acc : Word) : String :=
  hex 8 acc.toNat ++ " " ++ padLeft 11 (toString acc.toInt)

/-- The box with the registers and the counters. -/
def Session.stateLines (s : Session) : List String :=
  let m := s.machine
  let c := s.counters
  [registerBorder,
    " | VBP: " ++ hex 5 m.vbp.toNat ++ "  | LBP: " ++ hex 5 m.lbp.toNat ++ "  | acc0: " ++
      accumulatorText m.acc0 ++ " |",
    " | SBP: " ++ hex 5 m.sbp.toNat ++ "  | CBP:   " ++ hex 3 m.cbp.toNat ++ "  | acc1: " ++
      accumulatorText m.acc1 ++ " |",
    registerBorder,
    " | cycles: " ++ padRight 12 (toString c.cycles) ++ " ops: " ++
      padRight 12 (toString c.ops) ++ " steps: " ++ padRight 9 (toString c.steps) ++ "|",
    border]

def Session.regionBox (s : Session) (r : Region) : List String :=
  (s.machine.mem.regionLines r).map (" | " ++ ·) ++ [border]

end Macc
