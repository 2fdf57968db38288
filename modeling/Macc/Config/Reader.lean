import Macc.Config.Basic
import Macc.Yaml.Node

/-!
# Configuration files

`Config.ofFile?` reads a `Config` from a YAML file: a mapping, all of whose keys are optional.  A
`Region` needs an address and a length.  Unknown keys are passed over and known ones may not be
repeated.  The simulator works with any reader; this is the one that the program gives it.
-/

namespace Macc

open Text

namespace Yaml

/-! ### Values -/

/-- A natural number as plain scalars write it: with a radix mark or in decimal digits without
leading zeros, and perhaps a plus sign in front. -/
def natural? (text : List Char) : Option Nat :=
  let digits := if text.head? = some '+' then text.tail else text
  match digits with
  | '0' :: 'x' :: cs => readNat? 16 cs
  | '0' :: 'o' :: cs => readNat? 8 cs
  | '0' :: 'b' :: cs => readNat? 2 cs
  | '0' :: _ :: _ => none
  | cs => readNat? 10 cs

namespace Node

/-- The number of a plain scalar, if it is below the bound. -/
def nat? (bound : Nat) : Node → Option Nat
  | scalar text true => (natural? text.toList).filter (· < bound)
  | _ => none

/-- The truth value of a plain scalar. -/
def bool? : Node → Option Bool
  | scalar text true =>
    if ["true", "True", "TRUE"].contains text then some true
    else if ["false", "False", "FALSE"].contains text then some false
    else none
  | _ => none

/-- The items of a sequence.  A node that is left out has none. -/
def items? : Node → Option (List Node)
  | sequence items => some items
  | scalar "" true => some []
  | _ => none

/-- The fields of a mapping whose keys are scalars.  A node that is left out has none. -/
def fields? : Node → Option (List (String × Node))
  | mapping entries =>
    entries.mapM fun
      | (scalar name _, value) => some (name, value)
      | _ => none
  | scalar "" true => some []
  | _ => none

end Node

/-- Read a field that may be missing but not repeated. -/
def optional? (fields : List (String × Node)) (name : String) (default : α)
    (read : Node → Option α) : Option α :=
  match fields.filter (·.1 = name) with
  | [] => some default
  | [(_, node)] => read node
  | _ => none

/-- Read a field that may be neither missing nor repeated. -/
def required? (fields : List (String × Node)) (name : String) (read : Node → Option α) :
    Option α :=
  match fields.filter (·.1 = name) with
  | [(_, node)] => read node
  | _ => none

end Yaml

open Yaml

/-! ### Configurations -/

/-- Read a region. -/
def Region.ofNode? (node : Node) : Option Region := do
  let fields ← node.fields?
  let addr ← required? fields "addr" (Node.nat? UInt32.size)
  let len ← required? fields "len" (Node.nat? UInt32.size)
  let words ← optional? fields "words" false Node.bool?
  return ⟨addr, len, words⟩

namespace Config

/-- Read a configuration. -/
def ofNode? (node : Node) : Option Config := do
  let default : Config := {}
  let fields ← node.fields?
  let start ← optional? fields "start" default.start (Node.nat? UInt32.size)
  let maxSteps ← optional? fields "max_steps" default.limits.maxSteps (Node.nat? UInt64.size)
  let maxDepth ← optional? fields "max_depth" default.limits.maxDepth (Node.nat? UInt64.size)
  let dump ← optional? fields "dump" default.dump fun node =>
    node.items?.bind (·.mapM Region.ofNode?)
  return ⟨start, ⟨maxSteps, maxDepth⟩, dump⟩

/-- Read the text of a configuration. -/
def ofText? (text : String) : Option Config := (Node.ofText? text).bind ofNode?

/-- Read a file with a configuration. -/
def ofFile? (data : ByteArray) : Option Config := (String.fromUTF8? data).bind ofText?

end Config

end Macc
