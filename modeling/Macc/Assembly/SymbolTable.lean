import Macc.Instruction.Opcode

/-!
# Symbol tables

A `SymbolTable` collects, for each name in order of first appearance, the definition of the symbol
and the operands that refer to it.  `define?` and `addReference` may come in any order, and either
puts a new name at the end of the table; `get?` looks a symbol up.
-/

namespace Macc

/-- An operand that refers to a symbol.  Its instruction awaits the value of the symbol, times the
factor and divided by the divisor, in the field. -/
structure Reference where
  insn : Nat
  field : Field
  factor : Int64
  divisor : Int64
  line : Nat
  deriving DecidableEq, Repr

/-- The value of a symbol and the line that gives it. -/
structure Definition where
  position : Int64
  line : Nat
  deriving DecidableEq, Repr

/-- A name with its definition, if there is one yet, and its references in order. -/
structure Symbol where
  name : String
  definition : Option Definition := none
  references : Array Reference := #[]
  deriving DecidableEq, Repr

/-- Symbols in order of first appearance. -/
structure SymbolTable where
  symbols : List Symbol := []
  deriving DecidableEq, Repr

namespace SymbolTable

/-- Change the symbol of a name, which is new at the end if it has not appeared before. -/
def alter (name : String) (f : Symbol → Symbol) : List Symbol → List Symbol
  | [] => [f { name }]
  | s :: rest => if s.name = name then f s :: rest else s :: alter name f rest

def get? (t : SymbolTable) (name : String) : Option Symbol :=
  t.symbols.find? fun s => s.name == name

def definition? (t : SymbolTable) (name : String) : Option Definition :=
  (t.get? name).bind Symbol.definition

def value? (t : SymbolTable) (name : String) : Option Int64 :=
  (t.definition? name).map Definition.position

def size (t : SymbolTable) : Nat := t.symbols.length

def define (t : SymbolTable) (name : String) (d : Definition) : SymbolTable :=
  ⟨alter name (fun s => { s with definition := some d }) t.symbols⟩

/-- Put a name into the table, unless it has appeared before. -/
def enter (t : SymbolTable) (name : String) : SymbolTable := ⟨alter name id t.symbols⟩

/-- Give a name a definition, unless it has one: then the answer is that one.  The name comes into
the table before this is known. -/
def define? (t : SymbolTable) (name : String) (d : Definition) :
    SymbolTable × Except Definition Unit :=
  let t := t.enter name
  match t.definition? name with
  | some previous => (t, .error previous)
  | none => (t.define name d, .ok ())

def addReference (t : SymbolTable) (name : String) (r : Reference) : SymbolTable :=
  ⟨alter name (fun s => { s with references := s.references.push r }) t.symbols⟩

theorem find?_alter {name : String} {f : Symbol → Symbol} (hf : ∀ s, (f s).name = s.name)
    (x : String) (symbols : List Symbol) :
    (alter name f symbols).find? (fun s => s.name == x) =
      if x = name then some (f ((symbols.find? fun s => s.name == x).getD { name }))
      else symbols.find? fun s => s.name == x := by
  by_cases hx : x = name
  · subst hx
    induction symbols with
    | nil => simp [alter, hf]
    | cons s rest ih => by_cases hs : s.name = x <;> simp_all [alter]
  · have hn : (name == x) = false := beq_false_of_ne (Ne.symm hx)
    induction symbols with
    | nil => simp [alter, hf, hn, hx]
    | cons s rest ih => by_cases hs : s.name = name <;> simp_all [alter, List.find?_cons]

end SymbolTable

end Macc
