import Macc.Text.Numeral

/-!
# YAML scalars

Scalars may go on over several lines.  A `Gap` is the white space between two words of a scalar:
blanks within a line stay, one line end becomes a blank, and further ones stay as line feeds.
`plain` and `quoted` read a scalar from its first character on; what is left and where comes back in
a `Scanned`.  Line ends are line feeds only (`normalize?`).
-/

namespace Macc

namespace Yaml

/-! ### Characters -/

/-- A character that may stand in a document. -/
def isPrintable (c : Char) : Bool :=
  let n := c.toNat
  n == 0x09 || n == 0x0a || n == 0x0d || (0x20 ≤ n && n ≤ 0x7e) || n == 0x85 ||
    (0xa0 ≤ n && n ≤ 0xd7ff) || (0xe000 ≤ n && n ≤ 0xfffd) || 0x10000 ≤ n

/-- The text with a line feed for every line end. -/
def normalizeLines : List Char → List Char
  | '\r' :: '\n' :: cs => '\n' :: normalizeLines cs
  | c :: cs =>
    (if ['\r', '\u0085', '\u2028', '\u2029'].contains c then '\n' else c) :: normalizeLines cs
  | [] => []

/-- The text with line feeds as line ends, if all characters may stand in a document. -/
def normalize? (text : List Char) : Option (List Char) :=
  if text.all isPrintable then some (normalizeLines text) else none

/-- A space or a tab. -/
def isSpace (c : Char) : Bool := c == ' ' || c == '\t'

/-- A word ends in front of the text. -/
def endsWord : List Char → Bool
  | [] => true
  | c :: _ => isSpace c || c == '\n'

/-- A mark that begins or ends a document, when the text stands at the start of a line. -/
def isDocumentMark : List Char → Bool
  | '-' :: '-' :: '-' :: cs => endsWord cs
  | '.' :: '.' :: '.' :: cs => endsWord cs
  | _ => false

/-- A character that ends a plain scalar inside brackets. -/
def isFlowIndicator (c : Char) : Bool := [',', '[', ']', '{', '}'].contains c

/-! ### Positions -/

/-- A place in a text, counted from zero.  The offset counts bytes of UTF-8 and the column counts
characters. -/
structure Position where
  offset : Nat := 0
  line : Nat := 0
  column : Nat := 0
  deriving DecidableEq, Repr

namespace Position

/-- The place behind a character of the same line. -/
def after (p : Position) (c : Char) : Position := ⟨p.offset + c.utf8Size, p.line, p.column + 1⟩

/-- The place behind `n` characters of the same line that are one byte each. -/
def skip (p : Position) (n : Nat) : Position := ⟨p.offset + n, p.line, p.column + n⟩

/-- The place behind a line feed. -/
def nextLine (p : Position) : Position := ⟨p.offset + 1, p.line + 1, 0⟩

end Position

/-! ### Gaps -/

/-- White space between two words of a scalar. -/
structure Gap where
  /-- The blanks in front of the first line end, the last one first. -/
  blanks : List Char := []
  lineEnds : Nat := 0
  /-- The gap begins with a line end that a backslash takes away. -/
  escaped : Bool := false
  deriving DecidableEq, Repr

namespace Gap

/-- The gap reaches over a line end. -/
def isBroken (g : Gap) : Bool := g.escaped || 0 < g.lineEnds

/-- There is no white space. -/
def isEmpty (g : Gap) : Bool := g.blanks.isEmpty && !g.isBroken

/-- One more blank, which counts only in front of the first line end. -/
def addBlank (g : Gap) (c : Char) : Gap := if g.isBroken then g else { g with blanks := c :: g.blanks }

/-- One more line end. -/
def addLine (g : Gap) : Gap := { g with blanks := [], lineEnds := g.lineEnds + 1 }

/-- What the gap puts between the words. -/
def text (g : Gap) : List Char :=
  if g.escaped then List.replicate g.lineEnds '\n'
  else
    match g.lineEnds with
    | 0 => g.blanks.reverse
    | 1 => [' ']
    | n + 2 => List.replicate (n + 1) '\n'

end Gap

/-! ### Plain scalars -/

/-- A scalar that was read, and the text behind it. -/
structure Scanned where
  text : String
  rest : List Char
  pos : Position
  /-- There is a line end between the scalar and the rest. -/
  broken : Bool

/-- A plain scalar ends in front of the text, which follows the gap. -/
def endsPlain (flow : Bool) (least : Nat) (gap : Gap) (pos : Position) (text : List Char) : Bool :=
  match text with
  | [] => true
  | c :: cs =>
    (c == ':' && endsWord cs) || (flow && isFlowIndicator c) ||
      (!gap.isEmpty &&
        (c == '#' || (pos.column == 0 && isDocumentMark text) || (!flow && pos.column < least)))

/-- Read a plain scalar, of which `acc` was read in reverse.  Outside of brackets it ends at a line
that is indented less than `least`. -/
def plain (flow : Bool) (least : Nat) (acc : List Char) (gap : Gap) (pos : Position) :
    List Char → Option Scanned
  | [] => some ⟨String.ofList acc.reverse, [], pos, gap.isBroken⟩
  | c :: cs =>
    if c = '\n' then plain flow least acc gap.addLine pos.nextLine cs
    else if isSpace c then
      if c = '\t' ∧ gap.isBroken ∧ pos.column < least then none
      else plain flow least acc (gap.addBlank c) (pos.skip 1) cs
    else if endsPlain flow least gap pos (c :: cs) then
      some ⟨String.ofList acc.reverse, c :: cs, pos, gap.isBroken⟩
    else if flow && c == ':' && cs.head?.any fun d => isFlowIndicator d || d == '?' then none
    else plain flow least (c :: (gap.text.reverse ++ acc)) {} (pos.after c) cs

/-! ### Quoted scalars -/

/-- The characters that stand for another one behind a backslash. -/
def escapes : List (Char × Char) :=
  [('0', '\x00'), ('a', '\x07'), ('b', '\x08'), ('t', '\t'), ('\t', '\t'), ('n', '\n'),
    ('v', '\x0b'), ('f', '\x0c'), ('r', '\r'), ('e', '\x1b'), (' ', ' '), ('"', '"'), ('/', '/'),
    ('\\', '\\'), ('N', '\u0085'), ('_', '\u00a0'), ('L', '\u2028'), ('P', '\u2029')]

/-- The character whose number has the given count of hexadecimal digits. -/
def numbered? (count : Nat) (text : List Char) : Option Char :=
  let digits := text.take count
  if digits.length < count then none
  else ((Text.readNat? 16 digits).filter Nat.isValidChar).map Char.ofNat

/-- What the text behind a backslash stands for, and how much of the text that takes. -/
def escape? : List Char → Option (Char × Nat)
  | [] => none
  | c :: cs =>
    match c with
    | 'x' => (numbered? 2 cs).map (·, 3)
    | 'u' => (numbered? 4 cs).map (·, 5)
    | 'U' => (numbered? 8 cs).map (·, 9)
    | c => (escapes.lookup c).map (·, 1)

/-- Read a scalar behind its opening quote, of which `acc` was read in reverse. -/
def quoted (quote : Char) (acc : List Char) (gap : Gap) (pos : Position) (text : List Char) :
    Option Scanned :=
  match text with
  | [] => none
  | c :: cs =>
    if c = '\n' then quoted quote acc gap.addLine pos.nextLine cs
    else if isSpace c then quoted quote acc (gap.addBlank c) (pos.skip 1) cs
    else if pos.column = 0 ∧ isDocumentMark (c :: cs) then none
    else
      let acc := gap.text.reverse ++ acc
      if c = quote then
        if quote = '\'' ∧ cs.head? = some '\'' then quoted quote (c :: acc) {} (pos.skip 2) cs.tail
        else some ⟨String.ofList acc.reverse, cs, pos.skip 1, false⟩
      else if quote = '"' ∧ c = '\\' then
        if cs.head? = some '\n' then quoted quote acc { escaped := true } pos.nextLine cs.tail
        else
          match escape? cs with
          | none => none
          | some (d, n) => quoted quote (d :: acc) {} (pos.skip (n + 1)) (cs.drop n)
      else quoted quote (c :: acc) {} (pos.after c) cs
termination_by text.length
decreasing_by
  all_goals
    simp only [List.length_cons, List.length_tail, List.length_drop]
    omega

end Yaml

end Macc
