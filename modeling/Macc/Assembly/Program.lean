import Macc.Assembly.Assembler
import Macc.Text.Line

/-!
# Programs

When all lines are known, `Assembler.finish` adds the values of the symbols to the instructions that
wait for them (`SymbolTable.relocations`) and writes the instruction words into the image.
`Program.assemble` takes a whole source text; its errors carry the line.
-/

namespace Macc

/-! ### Relocations -/

/-- An amount to be added into an operand of an instruction. -/
structure Relocation where
  insn : Nat
  field : Field
  amount : Int64
  deriving DecidableEq, Repr

/-- The quotient of two 64-bit integers if it is exact and representable. -/
def exactQuotient? (value divisor : Int64) : Option Int64 :=
  if divisor = 0 ∨ (value = Int64.minValue ∧ divisor = -1) ∨ value % divisor ≠ 0 then none
  else some (value / divisor)

/-- What a reference adds when its symbol has a value. -/
def Reference.relocation (r : Reference) (name : String) (position : Int64) :
    Except LocatedError Relocation :=
  let value := position * r.factor
  match exactQuotient? value r.divisor with
  | some amount => .ok ⟨r.insn, r.field, amount⟩
  | none => .error ⟨r.line, .notMultiple name value r.divisor⟩

/-- What the references of a symbol add. -/
def Symbol.relocations (s : Symbol) : Except LocatedError (List Relocation) :=
  match s.definition with
  | none => .error ⟨(s.references[0]?.map Reference.line).getD 0, .undefined s.name⟩
  | some d => s.references.toList.mapM fun r => r.relocation s.name d.position

/-- What all references add, symbol by symbol. -/
def SymbolTable.relocations (t : SymbolTable) : Except LocatedError (List Relocation) :=
  (t.symbols.mapM Symbol.relocations).map List.flatten

/-- Add relocations to the instructions they name. -/
def relocate (insns : Array Insn) (relocations : List Relocation) : Array Insn :=
  relocations.foldl (fun insns r => insns.modify r.insn (·.add r.field r.amount)) insns

/-! ### Assembly -/

/-- An assembled source text. -/
structure Program where
  image : Image
  symbols : SymbolTable
  insns : Array Insn
  rows : Array Row

def Image.writeInsn (m : Image) (i : Insn) : Except LocatedError Image :=
  match m.writeWord i.position i.encode with
  | (m, .ok ()) => .ok m
  | (_, .error e) => .error ⟨i.line, .image e⟩

/-- The program of the lines taken so far. -/
def Assembler.finish (a : Assembler) : Except LocatedError Program :=
  match a.symbols.relocations with
  | .error e => .error e
  | .ok relocations =>
    let insns := relocate a.insns relocations
    (insns.toList.foldlM Image.writeInsn a.image).map fun image => ⟨image, a.symbols, insns, a.rows⟩

namespace Program

/-- Take a numbered line that must not fail. -/
def feedLine (a : Assembler) (line : List Char × Nat) : Except LocatedError Assembler :=
  match a.feed line.2 line.1 with
  | (a, .ok ()) => .ok a
  | (_, .error e) => .error ⟨line.2, e⟩

def ofLines (lines : List (List Char)) : Except LocatedError Program :=
  match (lines.zipIdx 1).foldlM feedLine {} with
  | .error e => .error e
  | .ok a => a.finish

def assemble (source : String) : Except LocatedError Program := ofLines (Text.lines source.toList)

end Program

end Macc
