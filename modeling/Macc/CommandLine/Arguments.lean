import Macc.Text.Numeral

/-!
# Command line arguments

`Arguments.parse?` sorts the arguments of a command into options and operands.  An option has a long
and perhaps a short name and may take a value: `-o V`, `-oV`, `-o=V`, `--output V` or `--output=V`.
Short names can be joined, and behind `--` everything is an operand.  An option may be given once.
The readers at the end say what values may look like.
-/

namespace Macc

namespace CommandLine

/-- An option that a command knows. -/
structure OptionSpec where
  long : String
  short : Option Char
  takesValue : Bool
  deriving DecidableEq, Repr

/-- The options with their values, which are empty where an option takes none, and the operands. -/
structure Arguments where
  options : List (String × String) := []
  operands : List String := []
  deriving DecidableEq, Repr

/-- The options that one argument gives, and an option whose value is the next argument. -/
structure Reading where
  options : List (String × String)
  pending : Option String := none
  deriving DecidableEq, Repr

/-- Read an argument with a long name, which stands without its dashes. -/
def readLong? (specs : List OptionSpec) (text : List Char) : Option Reading :=
  let name := String.ofList (text.takeWhile (· ≠ '='))
  let value := text.dropWhile (· ≠ '=')
  match specs.find? (·.long = name) with
  | none => none
  | some s =>
    match s.takesValue, value with
    | true, [] => some ⟨[], some s.long⟩
    | true, _ :: value => some ⟨[(s.long, String.ofList value)], none⟩
    | false, [] => some ⟨[(s.long, "")], none⟩
    | false, _ :: _ => none

/-- Read an argument with short names, which stands without its dash. -/
def readShort? (specs : List OptionSpec) : List Char → Option Reading
  | [] => some ⟨[], none⟩
  | c :: cs =>
    match specs.find? (·.short = some c) with
    | none => none
    | some s =>
      if s.takesValue then
        match cs with
        | [] => some ⟨[], some s.long⟩
        | '=' :: value => some ⟨[(s.long, String.ofList value)], none⟩
        | value => some ⟨[(s.long, String.ofList value)], none⟩
      else (readShort? specs cs).map fun r => ⟨(s.long, "") :: r.options, r.pending⟩

/-- Read one argument in front of a double dash; none if it is no option the command knows. -/
def readOne? (specs : List OptionSpec) (arg : String) : Option (Reading ⊕ String) :=
  match arg.toList with
  | '-' :: '-' :: text => (readLong? specs text).map .inl
  | '-' :: c :: cs => (readShort? specs (c :: cs)).map .inl
  | _ => some (.inr arg)

/-- The argument cannot be the value of an option in front of it. -/
def isDashed (arg : String) : Bool :=
  match arg.toList with
  | '-' :: _ :: _ => true
  | _ => false

namespace Arguments

/-- Read arguments behind those already sorted. -/
def parseFrom? (specs : List OptionSpec) (a : Arguments) : List String → Option Arguments
  | [] => some a
  | arg :: args =>
    if arg = "--" then some { a with operands := a.operands ++ args }
    else
      match readOne? specs arg with
      | none => none
      | some (.inr operand) =>
        parseFrom? specs { a with operands := a.operands ++ [operand] } args
      | some (.inl ⟨options, none⟩) =>
        parseFrom? specs { a with options := a.options ++ options } args
      | some (.inl ⟨options, some name⟩) =>
        match args with
        | [] => none
        | value :: args =>
          if isDashed value then none
          else parseFrom? specs { a with options := a.options ++ options ++ [(name, value)] } args

/-- Sort arguments. -/
def parse? (specs : List OptionSpec) (args : List String) : Option Arguments :=
  (parseFrom? specs {} args).filter fun a => (a.options.map Prod.fst).Nodup

/-- An option is given. -/
def has (a : Arguments) (name : String) : Bool := (a.options.lookup name).isSome

/-- The value of an option, if it is given.  A value that cannot be read is an error. -/
def value? (a : Arguments) (name : String) (read : String → Option α) : Option (Option α) :=
  match a.options.lookup name with
  | none => some none
  | some value => (read value).map some

end Arguments

/-! ### Values -/

/-- The name of a file, which is not empty. -/
def path? (text : String) : Option String := if text = "" then none else some text

/-- A 32-bit address: hexadecimal digits behind `0x`, or decimal digits. -/
def address? (text : String) : Option Nat :=
  match text.toList with
  | '0' :: 'x' :: digits => Text.readBounded? 16 UInt32.size digits
  | digits => Text.readBounded? 10 UInt32.size digits

/-- A 64-bit count in decimal digits. -/
def count? (text : String) : Option Nat := Text.readBounded? 10 UInt64.size text.toList

/-- How much is logged, by name in any case or by number. -/
def logLevel? (text : String) : Option Nat :=
  ((count? text).filter fun n => 1 ≤ n && n ≤ 5) <|>
    (["error", "warn", "info", "debug", "trace"].findIdx? (· = text.toLower)).map (· + 1)

end CommandLine

end Macc
