/-!
# Lines

`lines` cuts text into lines.  A line ends with a line feed or with the pair carriage return, line
feed; what follows the last line feed is a line too unless it is empty.  `unlines` writes lines
back, each with a line feed.
-/

namespace Macc

namespace Text

/-- The text without one carriage return at its end. -/
def dropReturn (line : List Char) : List Char :=
  if line.getLast? = some '\r' then line.dropLast else line

/-- The lines of a text.  A carriage return belongs to the line end only before a line feed. -/
def lines (text : List Char) : List (List Char) :=
  let pieces := text.splitOn '\n'
  pieces.dropLast.map dropReturn ++ (pieces.getLast?.filter (· ≠ [])).toList

/-- The text whose lines are given, each ended by a line feed. -/
def unlines (ls : List String) : String := String.join (ls.map (· ++ "\n"))

end Text

end Macc
