import Macc.Text.Blank

/-!
# Statements

`Statement.ofLine` reads a source line: a comment, a directive, a label, or a row that the current
section gives its meaning.  Operands are separated by blanks behind directives and in data sections,
by commas otherwise, where blanks inside an operand are dropped.
-/

namespace Macc

open Text

/-- What a section holds. -/
inductive SectionKind
  | code
  | data
  deriving DecidableEq, Repr

/-- A source line by its form. -/
inductive Statement
  /-- Nothing, or a comment. -/
  | blank
  | symbol (operands : List (List Char))
  /-- `.code` or `.data`. -/
  | enter (kind : SectionKind) (operands : List (List Char))
  | unknownDirective (name : List Char)
  | label (name : List Char)
  /-- An instruction or a data row. -/
  | row (head : List Char) (operands : List (List Char))
  deriving DecidableEq, Repr

namespace Statement

/-- The operands in the text behind the first word of a line. -/
def operandsOf (spaced : Bool) (text : List Char) : List (List Char) :=
  if spaced then words isAsciiBlank text
  else ((text.splitOn ',').map fun part => part.filter (!isAsciiBlank ·)).filter (· ≠ [])

def ofWords (head : List Char) (operands : List (List Char)) : Statement :=
  if head = ".sym".toList then .symbol operands
  else if head = ".code".toList then .enter .code operands
  else if head = ".data".toList then .enter .data operands
  else if head.head? = some '.' then .unknownDirective head
  else if head.getLast? = some ':' ∧ head.dropLast ≠ [] ∧ operands = [] then .label head.dropLast
  else .row head operands

/-- A text that is empty or a comment. -/
def isBlankText (text : List Char) : Bool :=
  text.isEmpty || "//".toList.isPrefixOf text || "#".toList.isPrefixOf text

/-- The statement of a line in a section. -/
def ofLine (current : Option SectionKind) (line : List Char) : Statement :=
  let text := trimStart line
  if isBlankText text then .blank
  else
    let head := text.takeWhile (!isAsciiBlank ·)
    let rest := (text.dropWhile (!isAsciiBlank ·)).drop 1
    ofWords head (operandsOf (current == some .data || head.head? == some '.') rest)

end Statement

end Macc
