import Macc.Yaml.Scalar

/-!
# YAML tokens

`Token.ofText?` cuts a document into tokens.  Block collections, which have no brackets in the text,
get them here: they open where the indentation grows and close where it falls.  Whether a token is
a key shows only at the colon behind it, so the `Lexer` remembers the last token that may be one, a
`Candidate`, and puts the key token in front of it afterwards.

Documents have plain and quoted scalars, comments, and collections in block and flow style.
Directives, tags, anchors, aliases and block scalars are refused.
-/

namespace Macc

namespace Yaml

inductive Token
  | documentStart
  | documentEnd
  | blockSequence
  | blockMapping
  | blockEnd
  | entry
  | key
  | value
  | flowSequence
  | flowSequenceEnd
  | flowMapping
  | flowMappingEnd
  | separator
  | scalar (text : String) (plain : Bool)
  deriving DecidableEq, Repr

/-- A token that is a key if a colon follows on its line. -/
structure Candidate where
  /-- The number of tokens in front of it. -/
  token : Nat
  start : Position
  /-- Nothing else than a key may begin in this column. -/
  required : Bool
  deriving DecidableEq, Repr

/-- The text that is left, and what the text so far says about it. -/
structure Lexer where
  rest : List Char
  pos : Position := {}
  tokens : Array Token := #[]
  /-- The columns of the open block collections, innermost first. -/
  blocks : List Nat := []
  /-- The candidate of the innermost collection, then those around it.  All but the last belong to
  open brackets. -/
  candidates : List (Option Candidate) := [none]
  keyAllowed : Bool := true

namespace Lexer

/-- The text stands inside of brackets. -/
def inFlow (l : Lexer) : Bool := 1 < l.candidates.length

/-- Put out a token that takes `n` characters of one byte each. -/
def emit (l : Lexer) (t : Token) (n : Nat) : Lexer :=
  { l with tokens := l.tokens.push t, rest := l.rest.drop n, pos := l.pos.skip n }

/-! ### White space -/

/-- A character that may stand in front of a token.  A tab may not stand where a key may, and a byte
order mark, which fills a column, only at the start of a line. -/
def isFiller (flow keyAllowed : Bool) (pos : Position) (c : Char) : Bool :=
  c == ' ' || (c == '\t' && (flow || !keyAllowed)) || (c == '\ufeff' && pos.column == 0)

/-- Pass over white space and comments in front of a token. -/
def skipGap (flow comment keyAllowed : Bool) (pos : Position) :
    List Char → List Char × Position × Bool
  | [] => ([], pos, keyAllowed)
  | c :: cs =>
    if c = '\n' then skipGap flow false (keyAllowed || !flow) pos.nextLine cs
    else if comment || c == '#' || isFiller flow keyAllowed pos c then
      skipGap flow (comment || c == '#') keyAllowed (pos.after c) cs
    else (c :: cs, pos, keyAllowed)

/-- Go to the next token. -/
def seek (l : Lexer) : Lexer :=
  let (rest, pos, keyAllowed) := skipGap l.inFlow false l.keyAllowed l.pos l.rest
  { l with rest, pos, keyAllowed }

/-! ### Candidates -/

/-- The candidate is out of reach: on an earlier line, or more than 1024 bytes away. -/
def isStale (l : Lexer) (c : Candidate) : Bool :=
  c.start.line < l.pos.line || c.start.offset + 1024 < l.pos.offset

/-- Give up the candidates that are out of reach, none of which may be required. -/
def dropStale (l : Lexer) : Option Lexer :=
  if l.candidates.any (·.any fun c => l.isStale c && c.required) then none
  else some { l with candidates := l.candidates.map (·.filter fun c => !l.isStale c) }

/-- Give up the innermost candidate, which may not be required. -/
def drop (l : Lexer) : Option Lexer :=
  match l.candidates with
  | some c :: cs => if c.required then none else some { l with candidates := none :: cs }
  | _ => some l

/-- Take the next token as a candidate, if a key may stand here. -/
def remember (l : Lexer) : Option Lexer :=
  if l.keyAllowed then
    l.drop.map fun l =>
      let required := !l.inFlow && l.blocks.head? == some l.pos.column
      { l with candidates := some ⟨l.tokens.size, l.pos, required⟩ :: l.candidates.tail }
  else some l

/-! ### Block collections -/

/-- Open a block collection in a column, unless one is open there or deeper.  Its token goes behind
the first `index` tokens. -/
def openBlock (l : Lexer) (column index : Nat) (t : Token) : Lexer :=
  if l.inFlow || l.blocks.head?.any (column ≤ ·) then l
  else { l with blocks := column :: l.blocks, tokens := l.tokens.insertIdxIfInBounds index t }

/-- Close the innermost block collections as long as their columns are to be closed. -/
def closeBlocks (l : Lexer) (closes : Nat → Bool) : Lexer :=
  if l.inFlow then l
  else
    let ends := Array.replicate (l.blocks.takeWhile closes).length Token.blockEnd
    { l with tokens := l.tokens ++ ends, blocks := l.blocks.dropWhile closes }

/-! ### Tokens -/

/-- The mark at the start or end of a document. -/
def documentMark (l : Lexer) (t : Token) : Option Lexer :=
  (l.closeBlocks fun _ => true).drop.map fun l => { l with keyAllowed := false }.emit t 3

/-- An opening bracket. -/
def openFlow (l : Lexer) (t : Token) : Option Lexer :=
  l.remember.map fun l =>
    { l with candidates := none :: l.candidates, keyAllowed := true }.emit t 1

/-- A closing bracket. -/
def closeFlow (l : Lexer) (t : Token) : Option Lexer :=
  l.drop.map fun l =>
    let candidates := if l.inFlow then l.candidates.tail else l.candidates
    { l with candidates, keyAllowed := false }.emit t 1

/-- A comma between brackets. -/
def separator (l : Lexer) : Option Lexer :=
  l.drop.map fun l => { l with keyAllowed := true }.emit .separator 1

/-- A dash or a question mark in front of an entry or a key.  Outside of brackets it opens a
collection. -/
def indicator (l : Lexer) (block t : Token) (keyAllowed : Bool) : Option Lexer :=
  if !l.inFlow && !l.keyAllowed then none
  else
    (l.openBlock l.pos.column l.tokens.size block).drop.map fun l => { l with keyAllowed }.emit t 1

/-- A colon, which makes the candidate a key. -/
def value (l : Lexer) : Option Lexer :=
  match l.candidates with
  | some c :: cs =>
    let l := { l with tokens := l.tokens.insertIdxIfInBounds c.token .key }
    let l := l.openBlock c.start.column c.token .blockMapping
    some ({ l with candidates := none :: cs, keyAllowed := false }.emit .value 1)
  | _ => l.indicator .blockMapping .value !l.inFlow

/-- A scalar. -/
def scalar (l : Lexer) (plain : Bool) (scanned : Option Scanned) : Option Lexer :=
  l.remember.bind fun l =>
    scanned.map fun s =>
      { l with
        tokens := l.tokens.push (.scalar s.text plain), rest := s.rest, pos := s.pos,
        keyAllowed := s.broken }

/-- A character that begins no plain scalar. -/
def isIndicator (c : Char) : Bool :=
  isFlowIndicator c || isSpace c ||
    ['-', '?', ':', '#', '&', '*', '!', '|', '>', '\'', '"', '%', '@', '\x60'].contains c

/-- A plain scalar begins with the text. -/
def startsPlain (l : Lexer) (c : Char) (cs : List Char) : Bool :=
  !isIndicator c || (c == '-' && !endsWord cs) ||
    (!l.inFlow && (c == '?' || c == ':') && !endsWord cs)

/-- Read the token that begins with the next character. -/
def token (l : Lexer) (c : Char) (cs : List Char) : Option Lexer :=
  if l.pos.column = 0 ∧ isDocumentMark (c :: cs) then
    l.documentMark (if c = '-' then .documentStart else .documentEnd)
  else if c = '[' then l.openFlow .flowSequence
  else if c = ']' then l.closeFlow .flowSequenceEnd
  else if c = '{' then l.openFlow .flowMapping
  else if c = '}' then l.closeFlow .flowMappingEnd
  else if c = ',' then l.separator
  else if c = '-' ∧ endsWord cs then l.indicator .blockSequence .entry true
  else if c = '?' ∧ (l.inFlow ∨ endsWord cs) then l.indicator .blockMapping .key !l.inFlow
  else if c = ':' ∧ (l.inFlow ∨ endsWord cs) then l.value
  else if c = '\'' ∨ c = '"' then l.scalar false (quoted c [] {} (l.pos.skip 1) cs)
  else if l.startsPlain c cs then
    let least := (l.blocks.head?.map (· + 1)).getD 0
    l.scalar true (plain l.inFlow least [] {} l.pos l.rest)
  else none

/-- The tokens at the end of the text. -/
def finish (l : Lexer) : Option (List Token) :=
  (l.closeBlocks fun _ => true).drop.map (·.tokens.toList)

/-- Read up to `n` tokens, the end included. -/
def run : Nat → Lexer → Option (List Token)
  | 0, _ => none
  | n + 1, l =>
    l.seek.dropStale.bind fun l =>
      let l := l.closeBlocks (l.pos.column < ·)
      match l.rest with
      | [] => l.finish
      | c :: cs => (l.token c cs).bind (run n)

end Lexer

/-- The tokens of a document.  Every token takes at least one character. -/
def Token.ofText? (text : List Char) : Option (List Token) :=
  (normalize? text).bind fun text => Lexer.run (text.length + 1) { rest := text }

end Yaml

end Macc
