import Macc.Image.Basic
import Macc.Text.Blank
import Macc.Text.Line

/-!
# Sparse hex text

Sparse hex text lists the defined parts of an image.  A line `@` with an address begins a section;
the lines behind it hold its bytes in hexadecimal.

`toHex` writes an image in one of two styles: as words, every word with a defined byte whole and on a
line of its own, or as bytes, only the defined ones and sixteen to a line.  `sections` is the
decomposition of the listed bytes into maximal runs that both styles print.  `ofHex` reads text of
either style; it goes through `HexItem`, what a line says without regard to where it stands.
-/

namespace Macc

open Text

/-! ### Writing -/

/-- What is listed and how long the lines are. -/
inductive HexStyle
  /-- Words with a defined byte, one to a line. -/
  | words
  /-- Defined bytes, sixteen to a line. -/
  | bytes
  deriving DecidableEq, Repr

/-- The number of bytes on a full line. -/
def HexStyle.rowLength : HexStyle → Nat
  | words => 4
  | bytes => 16

/-- A run of consecutive bytes from an address on. -/
structure HexSection where
  start : Nat
  bytes : List Byte
  deriving DecidableEq, Repr

namespace HexSection

/-- Put the byte of an address in front: into the first section if that begins at the next address,
else as a section of its own. -/
def cons (n : Nat) (b : Byte) : List HexSection → List HexSection
  | [] => [⟨n, [b]⟩]
  | s :: rest =>
    if s.start = n + 1 then ⟨n, b :: s.bytes⟩ :: rest else ⟨n, [b]⟩ :: s :: rest

/-- The bytes in rows of the given length, of which only the last may be shorter. -/
def rows (length : Nat) (bytes : List Byte) : List (List Byte) :=
  if length = 0 ∨ bytes = [] then []
  else bytes.take length :: rows length (bytes.drop length)
termination_by bytes.length
decreasing_by
  rename_i h
  have : 0 < bytes.length := List.length_pos_iff.2 fun e => h (.inr e)
  rw [List.length_drop]
  omega

theorem flatten_rows {length : Nat} (h : length ≠ 0) (bytes : List Byte) :
    (rows length bytes).flatten = bytes := by
  fun_induction rows length bytes with
  | case1 bytes hb => simp [hb.resolve_left h]
  | case2 bytes hb ih => rw [List.flatten_cons, ih, List.take_append_drop]

/-- The lines of a section. -/
def lines (style : HexStyle) (s : HexSection) : List String :=
  ("@" ++ hex 5 s.start) ::
    (rows style.rowLength s.bytes).map fun row => " ".intercalate (row.map fun b => hex 2 b.toNat)

end HexSection

namespace Image

/-- The style lists the byte at an address. -/
def lists (m : Image) (style : HexStyle) (n : Nat) : Bool :=
  match style with
  | .words => (List.range 4).any fun i => m.isDefined (BitVec.ofNat 17 (4 * (n / 4) + i))
  | .bytes => m.isDefined (BitVec.ofNat 17 n)

/-- The listed bytes as sections with gaps between them. -/
def sections (m : Image) (style : HexStyle) : List HexSection :=
  (List.range memorySize).foldr
    (fun n rest =>
      if m.lists style n then HexSection.cons n (m.byte (BitVec.ofNat 17 n)) rest else rest) []

/-- The image as sparse hex text. -/
def toHex (m : Image) (style : HexStyle) : String :=
  unlines ((m.sections style).flatMap (HexSection.lines style))

end Image

/-! ### Reading -/

/-- What sparse hex text says, piece by piece. -/
inductive HexItem
  /-- The next byte lies at this address. -/
  | origin (addr : Nat)
  /-- The next byte. -/
  | byte (value : Byte)
  /-- Text that is neither, with the number and the text of its line. -/
  | malformed (line : Nat) (text : String)
  deriving DecidableEq, Repr

/-- The items of a line. -/
def HexItem.ofLine (number : Nat) (line : List Char) : List HexItem :=
  let line := trim line
  let orMalformed (item : Option HexItem) := item.getD (.malformed number (String.ofList line))
  if line.head? = some '@' then
    [orMalformed ((readBounded? 16 UInt64.size line.tail).map .origin)]
  else
    (words isBlank line).map fun w =>
      orMalformed ((readBounded? 16 256 w).map fun v => .byte (BitVec.ofNat 8 v))

/-- The items of a text, line by line. -/
def HexItem.ofText (text : List Char) : List HexItem :=
  ((lines text).zipIdx 1).flatMap fun (line, number) => HexItem.ofLine number line

namespace Image

/-- Carry out an item on an image and the address of the next byte. -/
def place : Image × Nat → HexItem → Except ImageError (Image × Nat)
  | (m, _), .origin addr => .ok (m, addr)
  | (m, addr), .byte v =>
    if addr ≥ memorySize then .error (.outOfRange addr)
    else .ok (m.setByte (BitVec.ofNat 17 addr) v, addr + 1)
  | _, .malformed line text => .error (.hexSyntax line text)

/-- The image that sparse hex text describes.  Listed bytes are defined, all others zero. -/
def ofHex (text : String) : Except ImageError Image :=
  ((HexItem.ofText text.toList).foldlM place (empty, 0)).map (·.1)

end Image

end Macc
