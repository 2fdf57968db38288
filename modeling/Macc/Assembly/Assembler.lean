import Macc.Assembly.Error
import Macc.Assembly.Expr
import Macc.Assembly.Statement
import Macc.Assembly.SymbolTable

/-!
# The assembler

An `Assembler` is what is known after some source lines.  `feed` takes the next line and changes the
assembler step by step: what a line has done when it fails stays done.

Data words go into the image at once.  Instructions wait for their symbols: an `Insn` holds the sum
of its literals, and the symbol table holds what is still to be added.  The cursor is an address of
64 bits, and moving it beyond them stops the program.
-/

namespace Macc

/-! ### Instructions and rows -/

/-- An instruction with the sums of its operands so far. -/
structure Insn where
  position : Nat
  opcode : Opcode
  maddr : Int64
  caddr : Int64
  line : Nat
  deriving DecidableEq, Repr

namespace Insn

def add (i : Insn) (f : Field) (v : Int64) : Insn :=
  match f with
  | .maddr => { i with maddr := i.maddr + v }
  | .caddr => { i with caddr := i.caddr + v }

/-- The instruction word.  Operands are cut to their fields. -/
def encode (i : Insn) : Word :=
  pack (BitVec.ofNat 6 i.opcode.number) (i.maddr.toBitVec.setWidth 17) (i.caddr.toBitVec.setWidth 9)

end Insn

/-- A word that a source line puts out, with the index of its instruction if it is one. -/
structure Row where
  line : Nat
  addr : Nat
  insn : Option Nat
  deriving DecidableEq, Repr

/-! ### State -/

structure Assembler where
  current : Option SectionKind := none
  /-- The address of the next word. -/
  cursor : Nat := 0
  insns : Array Insn := #[]
  symbols : SymbolTable := {}
  image : Image := .empty
  rows : Array Row := #[]

namespace Assembler

/-- Move the cursor behind a word. -/
def advance (a : Assembler) : Assembler × Except AssemblyError Unit :=
  let a := { a with cursor := a.cursor + 4 }
  if a.cursor < UInt64.size then (a, .ok ()) else (a, .error .overflow)

/-! ### Symbols and sections -/

/-- Give a symbol its value. -/
def define (line : Nat) (name : List Char) (position : Int64) (a : Assembler) :
    Assembler × Except AssemblyError Unit :=
  let name := String.ofList name
  match a.symbols.define? name ⟨position, line⟩ with
  | (symbols, .ok ()) => ({ a with symbols }, .ok ())
  | (symbols, .error previous) => ({ a with symbols }, .error (.redefined name previous.line))

/-- Begin a section, at the cursor or at a later word. -/
def enter (kind : SectionKind) (operands : List (List Char)) (a : Assembler) :
    Assembler × Except AssemblyError Unit :=
  match operands with
  | [] => ({ a with current := some kind }, .ok ())
  | [text] =>
    match Literal.value? text with
    | none => (a, .error (.notAddress (String.ofList text)))
    | some v =>
      let addr := Int64.ofInt v
      if addr < Int64.ofNat a.cursor then (a, .error (.backward a.cursor addr))
      else if addr % 4 ≠ 0 then (a, .error (.misaligned addr))
      else
        let a := { a with cursor := addr.toUInt64.toNat }
        ({ a with current := some kind }, .ok ())
  | _ => (a, .error .sectionOperands)

/-! ### Instructions -/

/-- Take a term of an operand.  A number is added to the instruction at once, a symbol is put down
in the table as a reference of the instruction with the index. -/
def takeTerm (index line : Nat) (f : Field) : SymbolTable × Insn → Term → SymbolTable × Insn
  | (t, i), .literal v => (t, i.add f v)
  | (t, i), .symbol name factor divisor =>
    (t.addReference name ⟨index, f, factor, divisor, line⟩, i)

/-- Take the operands of an instruction, each for its field. -/
def takeOperands (index line : Nat) (operands : List (Field × List Char))
    (s : SymbolTable × Insn) : SymbolTable × Insn :=
  operands.foldl (fun s (f, text) => (Term.ofOperand text).foldl (takeTerm index line f) s) s

/-- Put out an instruction, which needs a known name and as many operands as its layout says. -/
def putInsn (line : Nat) (head : List Char) (operands : List (List Char)) (a : Assembler) :
    Assembler × Except AssemblyError Unit :=
  match Opcode.ofMnemonic? (String.ofList head) with
  | none => (a, .error (.unknownOperation (String.ofList head)))
  | some o =>
    if o.format.arity ≠ operands.length then (a, .error (.arity o operands.length))
    else
      let index := a.insns.size
      let (symbols, insn) :=
        takeOperands index line (o.format.fields.zip operands) (a.symbols, ⟨a.cursor, o, 0, 0, line⟩)
      let a := { a with symbols }
      let a := { a with insns := a.insns.push insn }
      let a := { a with rows := a.rows.push ⟨line, a.cursor, some index⟩ }
      a.advance

/-! ### Data -/

/-- The byte that a datum writes. -/
def byteOf (text : List Char) : Except AssemblyError Byte :=
  match Literal.value? text with
  | some v =>
    if 0 ≤ v ∧ v < 256 then .ok (BitVec.ofInt 8 v) else .error (.byteLiteral (String.ofList text))
  | none => .error (.byteLiteral (String.ofList text))

/-- Put out bytes by words, lowest byte first.  Bytes that fill no word are left out. -/
def putWords (line : Nat) : List Byte → Assembler → Assembler × Except AssemblyError Unit
  | b0 :: b1 :: b2 :: b3 :: rest, a =>
    match a.image.writeWord a.cursor (b3 ++ b2 ++ b1 ++ b0) with
    | (image, .error e) => ({ a with image }, .error (.image e))
    | (image, .ok ()) =>
      let a := { a with image }
      let a := { a with rows := a.rows.push ⟨line, a.cursor, none⟩ }
      match a.advance with
      | (a, .error e) => (a, .error e)
      | (a, .ok ()) => putWords line rest a
  | _, a => (a, .ok ())

/-- Put out a row of data, which fills words with bytes. -/
def putData (line : Nat) (data : List (List Char)) (a : Assembler) :
    Assembler × Except AssemblyError Unit :=
  if data.length % 4 ≠ 0 then (a, .error (.dataRow data.length))
  else
    match data.mapM byteOf with
    | .error e => (a, .error e)
    | .ok bytes => putWords line bytes a

/-! ### Lines -/

/-- Carry out a statement of the line with the number. -/
def take (line : Nat) (a : Assembler) : Statement → Assembler × Except AssemblyError Unit
  | .blank => (a, .ok ())
  | .symbol [name, text] =>
    match Literal.value? text with
    | none => (a, .error (.notInteger (String.ofList text)))
    | some v => a.define line name (Int64.ofInt v)
  | .symbol _ => (a, .error .symbolOperands)
  | .enter kind operands => a.enter kind operands
  | .unknownDirective name => (a, .error (.unknownDirective (String.ofList name)))
  | .label name => a.define line name (Int64.ofNat a.cursor)
  | .row head operands =>
    match a.current with
    | some .code => a.putInsn line head operands
    | some .data => a.putData line (head :: operands)
    | none => (a, .error (.outsideSection (String.ofList head)))

/-- Take the next source line, which has the given number. -/
def feed (a : Assembler) (line : Nat) (text : List Char) :
    Assembler × Except AssemblyError Unit :=
  a.take line (Statement.ofLine a.current text)

end Assembler

end Macc
