import Macc.Assembly.Assembler
import Macc.Proofs.Assembly.SymbolTable

/-!
# What source lines ask for

`Assembler.feed` changes the assembler while it reads a line.  Here a line is taken in two steps:
`check` decides what the line asks for, an `Action`, and whether that is possible, and `perform`
carries it out.  The two ways agree (`feed_eq`), so a line that `check` refuses changes nothing.

A data row can fail later, at the first of its words that does not fit into the image, and the
words in front of it stay.  So can any line that would move the cursor beyond 64 bits.
-/

namespace Macc

/-! ### Terms of an instruction -/

/-- Add the literals among some terms to the operands they belong to. -/
def Insn.addLiterals (i : Insn) (terms : List (Field × Term)) : Insn :=
  terms.foldl
    (fun
      | i, (f, .literal v) => i.add f v
      | i, (_, .symbol _ _ _) => i) i

/-- Record the symbols among some terms as references of an instruction. -/
def SymbolTable.addTerms (t : SymbolTable) (insn line : Nat) (terms : List (Field × Term)) :
    SymbolTable :=
  terms.foldl
    (fun
      | t, (_, .literal _) => t
      | t, (f, .symbol name factor divisor) => t.addReference name ⟨insn, f, factor, divisor, line⟩) t

/-- The terms of the operands of an operation, each with the field that it is added into. -/
def Opcode.terms (o : Opcode) (operands : List (List Char)) : List (Field × Term) :=
  (o.format.fields.zip operands).flatMap fun (f, text) => (Term.ofOperand text).map (f, ·)

/-- What a source line asks for. -/
inductive Action
  | nothing
  | define (name : String) (position : Int64)
  | enter (kind : SectionKind) (addr : Nat)
  | emit (opcode : Opcode) (terms : List (Field × Term))
  | data (words : List Word)
  deriving DecidableEq, Repr

namespace Assembler

/-! ### Checking a line -/

/-- A symbol may be defined once. -/
def checkDefine (a : Assembler) (name : List Char) (position : Int64) :
    Except AssemblyError Action :=
  let name := String.ofList name
  match a.symbols.definition? name with
  | some previous => .error (.redefined name previous.line)
  | none => .ok (.define name position)

/-- A section begins at the cursor or at a later word. -/
def checkEnter (a : Assembler) (kind : SectionKind) : List (List Char) →
    Except AssemblyError Action
  | [] => .ok (.enter kind a.cursor)
  | [text] =>
    match Literal.value? text with
    | none => .error (.notAddress (String.ofList text))
    | some v =>
      let addr := Int64.ofInt v
      if addr < Int64.ofNat a.cursor then .error (.backward a.cursor addr)
      else if addr % 4 ≠ 0 then .error (.misaligned addr)
      else .ok (.enter kind addr.toUInt64.toNat)
  | _ => .error .sectionOperands

/-- An instruction has a known name and as many operands as its layout says. -/
def checkInsn (head : List Char) (operands : List (List Char)) : Except AssemblyError Action :=
  match Opcode.ofMnemonic? (String.ofList head) with
  | none => .error (.unknownOperation (String.ofList head))
  | some o =>
    if o.format.arity ≠ operands.length then .error (.arity o operands.length)
    else .ok (.emit o (o.terms operands))

/-- The little-endian words of bytes.  Bytes that fill no word are left out. -/
def wordsOf : List Byte → List Word
  | b0 :: b1 :: b2 :: b3 :: rest => (b3 ++ b2 ++ b1 ++ b0) :: wordsOf rest
  | _ => []

/-- A data row fills words with bytes. -/
def checkData (data : List (List Char)) : Except AssemblyError Action :=
  if data.length % 4 ≠ 0 then .error (.dataRow data.length)
  else (data.mapM byteOf).map fun bytes => .data (wordsOf bytes)

/-- What a statement asks for. -/
def check (a : Assembler) : Statement → Except AssemblyError Action
  | .blank => .ok .nothing
  | .symbol [name, text] =>
    match Literal.value? text with
    | none => .error (.notInteger (String.ofList text))
    | some v => a.checkDefine name (Int64.ofInt v)
  | .symbol _ => .error .symbolOperands
  | .enter kind operands => a.checkEnter kind operands
  | .unknownDirective name => .error (.unknownDirective (String.ofList name))
  | .label name => a.checkDefine name (Int64.ofNat a.cursor)
  | .row head operands =>
    match a.current with
    | some .code => checkInsn head operands
    | some .data => checkData (head :: operands)
    | none => .error (.outsideSection (String.ofList head))

/-! ### Carrying it out -/

/-- Append an instruction at the cursor. -/
def emitInsn (line : Nat) (o : Opcode) (terms : List (Field × Term)) (a : Assembler) : Assembler :=
  let insn : Insn := ⟨a.cursor, o, 0, 0, line⟩
  let index := a.insns.size
  { a with
    cursor := a.cursor + 4
    insns := a.insns.push (insn.addLiterals terms)
    symbols := a.symbols.addTerms index line terms
    rows := a.rows.push ⟨line, insn.position, some index⟩ }

/-- Append a word of data at the cursor. -/
def emitWord (line : Nat) (w : Word) (a : Assembler) : Assembler :=
  let addr := a.cursor
  { a with
    cursor := addr + 4
    image := a.image.setWord (BitVec.ofNat 17 addr) w
    rows := a.rows.push ⟨line, addr, none⟩ }

/-- Why a word cannot be written at an address. -/
def unwritable (addr : Nat) : AssemblyError :=
  .image (if UInt64.size ≤ addr + 4 then .overflow else .outOfRange addr)

/-- Append words of data until one does not fit. -/
def emitWords (line : Nat) : List Word → Assembler → Assembler × Except AssemblyError Unit
  | [], a => (a, .ok ())
  | w :: ws, a =>
    if a.cursor + 4 > memorySize then (a, .error (unwritable a.cursor))
    else emitWords line ws (a.emitWord line w)

/-- Carry out what a line asks for. -/
def perform (line : Nat) : Action → Assembler → Assembler × Except AssemblyError Unit
  | .nothing, a => (a, .ok ())
  | .define name position, a =>
    ({ a with symbols := a.symbols.define name ⟨position, line⟩ }, .ok ())
  | .enter kind addr, a => ({ a with current := some kind, cursor := addr }, .ok ())
  | .emit o terms, a =>
    (a.emitInsn line o terms, if a.cursor + 4 < UInt64.size then .ok () else .error .overflow)
  | .data words, a => emitWords line words a

/-! ### Both are the line -/

theorem define_eq (line : Nat) (name : List Char) (position : Int64) (a : Assembler) :
    a.define line name position =
      match a.checkDefine name position with
      | .error e => (a, .error e)
      | .ok action => perform line action a := by
  unfold define checkDefine
  dsimp only
  rw [SymbolTable.define?_eq]
  cases a.symbols.definition? (String.ofList name) <;> rfl

theorem enter_eq (line : Nat) (kind : SectionKind) (operands : List (List Char)) (a : Assembler) :
    a.enter kind operands =
      match a.checkEnter kind operands with
      | .error e => (a, .error e)
      | .ok action => perform line action a := by
  rcases operands with _ | ⟨text, _ | ⟨second, more⟩⟩
  · rfl
  · unfold enter checkEnter
    dsimp only
    cases Literal.value? text with
    | none => rfl
    | some v =>
      dsimp only
      split
      · rfl
      · split <;> rfl
  · rfl

/-- The terms of an operand go to the table and to the instruction, which know nothing of each
other. -/
theorem foldl_takeTerm (index line : Nat) (f : Field) (terms : List Term)
    (s : SymbolTable × Insn) :
    terms.foldl (takeTerm index line f) s =
      (s.1.addTerms index line (terms.map (f, ·)), s.2.addLiterals (terms.map (f, ·))) := by
  induction terms generalizing s with
  | nil => rfl
  | cons term terms ih =>
    rw [List.foldl_cons, ih]
    cases term <;> rfl

theorem takeOperands_eq (index line : Nat) (operands : List (Field × List Char))
    (s : SymbolTable × Insn) :
    takeOperands index line operands s =
      (s.1.addTerms index line
          (operands.flatMap fun (f, text) => (Term.ofOperand text).map (f, ·)),
        s.2.addLiterals (operands.flatMap fun (f, text) => (Term.ofOperand text).map (f, ·))) := by
  induction operands generalizing s with
  | nil => rfl
  | cons operand operands ih =>
    obtain ⟨f, text⟩ := operand
    show takeOperands index line operands
      ((Term.ofOperand text).foldl (takeTerm index line f) s) = _
    rw [ih, foldl_takeTerm, List.flatMap_cons, SymbolTable.addTerms, SymbolTable.addTerms,
      ← List.foldl_append, Insn.addLiterals, Insn.addLiterals, ← List.foldl_append]
    rfl

/-- References are put down before the instruction is there, and the cursor moves last. -/
theorem putInsn_eq (line : Nat) (head : List Char) (operands : List (List Char)) (a : Assembler) :
    a.putInsn line head operands =
      match checkInsn head operands with
      | .error e => (a, .error e)
      | .ok action => perform line action a := by
  unfold putInsn checkInsn
  cases Opcode.ofMnemonic? (String.ofList head) with
  | none => rfl
  | some o =>
    dsimp only
    split
    · rfl
    · rw [takeOperands_eq]
      unfold perform advance
      dsimp only
      split <;> rfl

/-- Words are written one by one.  Behind a word that fits into the image there is room for the
cursor. -/
theorem putWords_eq (line : Nat) (bytes : List Byte) (a : Assembler) :
    putWords line bytes a = emitWords line (wordsOf bytes) a := by
  fun_induction wordsOf bytes generalizing a with
  | case1 b0 b1 b2 b3 rest ih =>
    unfold putWords emitWords
    by_cases outside : memorySize < a.cursor + 4
    · rw [Image.writeWord_of_lt _ _ outside, if_pos outside]
      rfl
    · have fits : a.cursor + 4 ≤ memorySize := Nat.not_lt.1 outside
      have room : a.cursor + 4 < UInt64.size := Nat.lt_of_le_of_lt fits (by decide)
      rw [Image.writeWord_of_le _ _ fits, if_neg outside, ← ih]
      unfold advance
      dsimp only
      rw [if_pos room]
      rfl
  | case2 bytes short =>
    rw [putWords, emitWords]
    exact short

theorem putData_eq (line : Nat) (data : List (List Char)) (a : Assembler) :
    a.putData line data =
      match checkData data with
      | .error e => (a, .error e)
      | .ok action => perform line action a := by
  unfold putData checkData
  split
  · rfl
  · cases data.mapM byteOf with
    | error e => rfl
    | ok bytes => exact putWords_eq line bytes a

/-- What a line asks for is decided in front of the first change, or might as well be. -/
theorem take_eq (line : Nat) (a : Assembler) (s : Statement) :
    a.take line s =
      match a.check s with
      | .error e => (a, .error e)
      | .ok action => perform line action a := by
  cases s with
  | blank => rfl
  | unknownDirective name => rfl
  | label name => exact define_eq line name _ a
  | enter kind operands => exact enter_eq line kind operands a
  | symbol operands =>
    rcases operands with _ | ⟨name, _ | ⟨text, _ | ⟨third, more⟩⟩⟩
    · rfl
    · rfl
    · unfold take check
      dsimp only
      cases Literal.value? text with
      | none => rfl
      | some v => exact define_eq line name _ a
    · rfl
  | row head operands =>
    unfold take check
    cases a.current with
    | none => rfl
    | some kind =>
      cases kind with
      | code => exact putInsn_eq line head operands a
      | data => exact putData_eq line (head :: operands) a

theorem feed_eq (a : Assembler) (line : Nat) (text : List Char) :
    a.feed line text =
      match a.check (.ofLine a.current text) with
      | .error e => (a, .error e)
      | .ok action => perform line action a := take_eq line a _

theorem feed_of_error {a : Assembler} {line : Nat} {text : List Char} {e : AssemblyError}
    (h : a.check (.ofLine a.current text) = .error e) : a.feed line text = (a, .error e) := by
  simp only [feed_eq, h]

theorem feed_of_ok {a : Assembler} {line : Nat} {text : List Char} {action : Action}
    (h : a.check (.ofLine a.current text) = .ok action) :
    a.feed line text = perform line action a := by
  simp only [feed_eq, h]

end Assembler

end Macc
