import Macc.Assembly.Program
import Macc.Instruction.Printing

/-!
# Listings

A listing shows every word of a program beside the source line that it comes from, and the symbols
below.  `Program.lineRows` prints one source line with its words, `Program.sourceRows` all of them,
and `Program.listing` the whole.
-/

namespace Macc

open Text

/-- A source line without the blanks around it, coloured by what it begins or ends with. -/
def styledSource (source : List Char) : String :=
  let body := trim source
  let text := String.ofList body
  if ['/', '/'].isPrefixOf body ∨ body.head? = some '#' then Style.dim.paint text
  else if body.head? = some '.' then Style.cyan.paint text
  else if body.getLast? = some ':' then Style.green.paint text
  else text

/-- The four bytes of a word of memory in order. -/
def Image.bytesText (m : Image) (a : Address) : String :=
  " ".intercalate ((List.range 4).map fun i => hex 2 (m.byte (a + BitVec.ofNat 17 i)).toNat)

namespace Program

/-! ### Source lines -/

/-- An instruction as it stands in the image. -/
def insnText (p : Program) (addr : Address) (source : List Char) : String :=
  match Op.decode (p.image.word addr) with
  | .ok op => op.styled
  | .error _ => Style.paintAll [.red, .bold] (String.ofList (trim source))

/-- A word with its address and bytes, the number of its line and what the line says. -/
def wordRow (p : Program) (r : Row) (number body : String) : String :=
  let addr := BitVec.ofNat 17 r.addr
  "[" ++ hex 5 r.addr ++ "] " ++ p.image.bytesText addr ++ " | " ++ number ++ "   " ++ body

/-- The rows of a numbered source line that puts out the given words.  Only the first row has the
number, and only the first datum the source. -/
def lineRows (p : Program) (n : Nat) (source : List Char) : List Row → List String
  | [] => ["                    | " ++ padLeft 4 (toString n) ++ ":   " ++ styledSource source]
  | r :: rs =>
    let body (r : Row) (data : String) : String :=
      if r.insn.isSome then p.insnText (BitVec.ofNat 17 r.addr) source else data
    p.wordRow r (padLeft 4 (toString n) ++ ":") (body r (styledSource source)) ::
      rs.map fun r => p.wordRow r "     " (body r "")

/-- The rows of numbered source lines that put out the given words. -/
def sourceRows (p : Program) : List (List Char × Nat) → List Row → List String
  | [], _ => []
  | (source, n) :: lines, rows =>
    p.lineRows n source (rows.takeWhile (·.line = n)) ++
      p.sourceRows lines (rows.dropWhile (·.line = n))

/-! ### Symbols -/

/-- A symbol with its value and the number of its references, if it has a value. -/
def symbolRow? (s : Symbol) : Option String :=
  s.definition.map fun d =>
    Style.green.paint (padRight 19 s.name) ++ " | 0x" ++ hex 5 d.position.toUInt64.toNat ++
      s!" ({s.references.size} refs)"

/-! ### The listing -/

def rule (n : Nat) : String := String.ofList (List.replicate n '-')

/-- The lines of the listing of a program under a file name, with the source lines. -/
def listingLines (p : Program) (file : String) (source : List (List Char)) : List String :=
  [rule 20 ++ "+------[" ++ file ++ "]" ++ rule (45 - file.utf8ByteSize)] ++
    p.sourceRows (source.zipIdx 1) p.rows.toList ++
    [rule 20 ++ "+" ++ rule 53] ++ p.symbols.symbols.filterMap symbolRow?

def listing (p : Program) (file source : String) : String :=
  unlines (p.listingLines file (lines source.toList))

end Program

end Macc
