import Macc.Image.Basic

/-!
# Assembly errors

The reasons why a source text has no program, each with its text.  `LocatedError` adds the line.
Addresses have 64 bits, and an address that would need more is no such reason: it `aborts` the
program.
-/

namespace Macc

open Text

inductive AssemblyError
  | unknownOperation (name : String)
  | arity (opcode : Opcode) (given : Nat)
  | unknownDirective (name : String)
  /-- `.sym` stands without a name and a value. -/
  | symbolOperands
  /-- The value of `.sym` is no integer literal. -/
  | notInteger (text : String)
  /-- A section directive has more than one operand. -/
  | sectionOperands
  /-- The operand of a section directive is no integer literal. -/
  | notAddress (text : String)
  /-- A section directive asks for an address in front of the cursor. -/
  | backward (cursor : Nat) (addr : Int64)
  /-- A section directive asks for an address inside a word. -/
  | misaligned (addr : Int64)
  /-- An instruction or a data row stands before the first section directive. -/
  | outsideSection (head : String)
  | dataRow (length : Nat)
  /-- A datum is no integer literal or no byte. -/
  | byteLiteral (text : String)
  | redefined (name : String) (line : Nat)
  | undefined (name : String)
  /-- The value of a symbol, times its factor, has no exact quotient by the divisor. -/
  | notMultiple (name : String) (value divisor : Int64)
  | image (e : ImageError)
  /-- The cursor leaves the addresses of 64 bits.  Nothing is told then: the program stops. -/
  | overflow
  deriving DecidableEq, Repr

/-- The program stops, without an error that could be reported. -/
def AssemblyError.aborts : AssemblyError → Bool
  | overflow | image .overflow => true
  | _ => false

def AssemblyError.message : AssemblyError → String
  | unknownOperation name => s!"Unknown operation: `{name}`"
  | arity opcode given =>
    s!"`{opcode.mnemonic}` takes {opcode.format.arity} operand(s) but {given} were given"
  | unknownDirective name => s!"Syntax Error: Unknown directive `{name}`"
  | symbolOperands => "Syntax Error: `.sym` takes a name and a value"
  | notInteger text => s!"Syntax Error: Cannot parse `{text}` as integer"
  | sectionOperands => "Syntax Error: Section directive takes at most one address"
  | notAddress text => s!"Syntax Error: Cannot parse `{text}` as address"
  | backward cursor addr =>
    s!"Cursor cannot move backward from 0x{hex 5 cursor} to {addr.toInt}"
  | misaligned addr => s!"Section address 0x{hex 0 addr.toUInt64.toNat} is not word aligned"
  | outsideSection head => s!"Syntax Error: `{head}` outside of a .code or .data section"
  | dataRow length => s!"Data row has {length} bytes, which is not a multiple of 4"
  | byteLiteral text => s!"Cannot parse `{text}` as a byte (0 to 255)"
  | redefined name line => s!"Re-defined symbol: `{name}` (first defined in line {line})"
  | undefined name => s!"Symbol `{name}` used but not defined"
  | notMultiple name value divisor =>
    s!"Value {value.toInt} of `{name}` is not a multiple of divisor {divisor.toInt}"
  | image e => e.message
  | overflow => ImageError.overflow.message

/-- An error with the number of the source line that it is about. -/
structure LocatedError where
  line : Nat
  cause : AssemblyError
  deriving DecidableEq, Repr

def LocatedError.message (e : LocatedError) : String := s!"line {e.line}: {e.cause.message}"

end Macc
