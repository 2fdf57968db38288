import Macc.Instruction.Encoding
import Macc.Text.Numeral
import Macc.Text.Style

/-!
# Instruction text

`Op.text` writes an instruction in assembly syntax, and `Op.styled` does so in columns and colours
for listings.  `DecodeError.message` says why a word is no instruction.
-/

namespace Macc

open Text

/-- An operand as a literal, with as many digits as its field needs. -/
def Field.literal (f : Field) (value : Word) : String :=
  match f with
  | .maddr => "0x" ++ hex 5 value.toNat
  | .caddr => "0x" ++ hex 3 value.toNat

namespace Op

/-- The operands as literals, in source order. -/
def operands (op : Op) : List String :=
  op.opcode.format.fields.map fun f => f.literal (op.field f)

def text (op : Op) : String :=
  match op.operands with
  | [] => op.opcode.mnemonic
  | operands => op.opcode.mnemonic ++ " " ++ ", ".intercalate operands

/-- The instruction in two coloured columns. -/
def styled (op : Op) : String :=
  Style.red.on ++ padRight 13 op.opcode.mnemonic ++ Style.yellow.on ++
    ", ".intercalate op.operands ++ Style.yellow.off

end Op

def DecodeError.message : DecodeError → String
  | unknownOpcode number => s!"Unknown opcode: {number.toNat}"
  | nonZeroField opcode field value =>
    s!"{opcode.mnemonic}: {field.name} field must be zero but is 0x{hex 0 value.toNat}"

end Macc
