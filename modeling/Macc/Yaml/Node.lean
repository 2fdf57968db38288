import Macc.Yaml.Token

/-!
# YAML documents

A document is a `Node`: a scalar, a sequence or a mapping.  `node?` reads one from tokens together
with the tokens behind it, and `Node.ofText?` reads a whole text, which holds at most one document.
Where a node is left out there is an empty plain scalar (`Node.blank`).
-/

namespace Macc

namespace Yaml

inductive Node
  | scalar (text : String) (plain : Bool)
  | sequence (items : List Node)
  | mapping (entries : List (Node × Node))

/-- What stands for a node that is left out. -/
def Node.blank : Node := .scalar "" true

/-- A node, or the blank node if the tokens begin with one that ends it. -/
def orBlank (ends : Token → Bool) (read : List Token → Option (Node × List Token))
    (ts : List Token) : Option (Node × List Token) :=
  if ts.head?.any ends then some (.blank, ts) else read ts

/-- A value behind its token, or the blank node if there is none. -/
def valueOrBlank (ends : Token → Bool) (read : List Token → Option (Node × List Token)) :
    List Token → Option (Node × List Token)
  | .value :: ts => orBlank ends read ts
  | ts => some (.blank, ts)

/-- Put something in front of what is read from the tokens behind it. -/
def andThen (first : Option (α × List Token)) (read : List Token → Option (List α × List Token)) :
    Option (List α × List Token) :=
  first.bind fun (a, ts) => (read ts).map fun (as, ts) => (a :: as, ts)

/-- A key in a sequence in brackets.  If it is left out, the token in its place is passed over. -/
def itemKey (read : List Token → Option (Node × List Token)) :
    List Token → Option (Node × List Token)
  | .value :: ts | .separator :: ts | .flowSequenceEnd :: ts => some (.blank, ts)
  | ts => read ts

/-- A key with the value behind it. -/
def pair (valueEnds : Token → Bool) (read : List Token → Option (Node × List Token))
    (key : Option (Node × List Token)) : Option ((Node × Node) × List Token) :=
  key.bind fun (k, ts) => (valueOrBlank valueEnds read ts).map fun (v, ts) => ((k, v), ts)

/-- The tokens in front of which a value in block style is left out. -/
def endsBlockValue (t : Token) : Bool := [.key, .value, .blockEnd].contains t

/-- The tokens in front of which a value in flow style is left out. -/
def endsFlowValue (t : Token) : Bool :=
  [.separator, .flowSequenceEnd, .flowMappingEnd].contains t

mutual

/-- Read a node.  In block style block collections may stand, and behind a key also the entries of
a sequence that is not indented. -/
def node? (block entries : Bool) : Nat → List Token → Option (Node × List Token)
  | 0, _ => none
  | n + 1, ts =>
    match ts with
    | .scalar text plain :: ts => some (.scalar text plain, ts)
    | .flowSequence :: ts => (flowItems? true n ts).map fun (xs, ts) => (.sequence xs, ts)
    | .flowMapping :: ts => (flowEntries? true n ts).map fun (xs, ts) => (.mapping xs, ts)
    | .blockSequence :: ts =>
      if block then (blockItems? n ts).map fun (xs, ts) => (.sequence xs, ts) else none
    | .blockMapping :: ts =>
      if block then (blockEntries? n ts).map fun (xs, ts) => (.mapping xs, ts) else none
    | .entry :: _ =>
      if entries then (looseItems? n ts).map fun (xs, ts) => (.sequence xs, ts) else none
    | _ => none

/-- Read the items of a sequence in block style. -/
def blockItems? : Nat → List Token → Option (List Node × List Token)
  | 0, _ => none
  | n + 1, ts =>
    match ts with
    | .entry :: ts =>
      andThen (orBlank [.entry, .blockEnd].contains (node? true false n) ts) (blockItems? n)
    | .blockEnd :: ts => some ([], ts)
    | _ => none

/-- Read the items of a sequence that is not indented. -/
def looseItems? : Nat → List Token → Option (List Node × List Token)
  | 0, _ => none
  | n + 1, ts =>
    match ts with
    | .entry :: ts =>
      let ends (t : Token) : Bool := t == .entry || endsBlockValue t
      andThen (orBlank ends (node? true false n) ts) (looseItems? n)
    | ts => some ([], ts)

/-- Read the entries of a mapping in block style. -/
def blockEntries? : Nat → List Token → Option (List (Node × Node) × List Token)
  | 0, _ => none
  | n + 1, ts =>
    match ts with
    | .key :: ts =>
      let key := orBlank endsBlockValue (node? true true n) ts
      andThen (pair endsBlockValue (node? true true n) key) (blockEntries? n)
    | .blockEnd :: ts => some ([], ts)
    | _ => none

/-- Read the items of a sequence in brackets, which commas separate and may end.  A pair is an
item, a mapping with one entry. -/
def flowItems? (first : Bool) : Nat → List Token → Option (List Node × List Token)
  | 0, _ => none
  | n + 1, ts =>
    let item (ts : List Token) : Option (List Node × List Token) :=
      match ts with
      | .flowSequenceEnd :: ts => some ([], ts)
      | .key :: ts =>
        let entry := pair endsFlowValue (node? false false n) (itemKey (node? false false n) ts)
        andThen (entry.map fun (e, ts) => (.mapping [e], ts)) (flowItems? false n)
      | ts => andThen (node? false false n ts) (flowItems? false n)
    match ts with
    | .flowSequenceEnd :: ts => some ([], ts)
    | .separator :: ts => if first then none else item ts
    | ts => if first then item ts else none

/-- Read the entries of a mapping in braces, which commas separate and may end.  A node that is no
key is a key without a value. -/
def flowEntries? (first : Bool) : Nat → List Token → Option (List (Node × Node) × List Token)
  | 0, _ => none
  | n + 1, ts =>
    let item (ts : List Token) : Option (List (Node × Node) × List Token) :=
      match ts with
      | .flowMappingEnd :: ts => some ([], ts)
      | .key :: ts =>
        let keyEnds (t : Token) : Bool := t == .value || endsFlowValue t
        let key := orBlank keyEnds (node? false false n) ts
        andThen (pair endsFlowValue (node? false false n) key) (flowEntries? false n)
      | ts =>
        let entry := (node? false false n ts).map fun (k, ts) => ((k, .blank), ts)
        andThen entry (flowEntries? false n)
    match ts with
    | .flowMappingEnd :: ts => some ([], ts)
    | .separator :: ts => if first then none else item ts
    | ts => if first then item ts else none

end

/-- Read the document of a token list, which has none if there are no tokens. -/
def document? (ts : List Token) : Option Node :=
  let read := node? true false (2 * ts.length + 2)
  let content : Option (Node × List Token) :=
    match ts with
    | [] => some (.blank, [])
    | .documentStart :: [] => some (.blank, [])
    | .documentStart :: ts => orBlank [.documentStart, .documentEnd].contains read ts
    | ts => read ts
  content.bind fun (node, ts) => if ts.all (· == .documentEnd) then some node else none

/-- Read the document of a text.  A text without content is a blank node. -/
def Node.ofText? (text : String) : Option Node := (Token.ofText? text.toList).bind document?

end Yaml

end Macc
