/-!
# Terminal styles

`Style.paint` sets text in a style of a terminal: a control sequence in front switches the style on,
one behind it switches it off.
-/

namespace Macc

/-- A colour or a weight of terminal text. -/
inductive Style
  | bold
  | dim
  | underline
  | red
  | green
  | yellow
  | blue
  | cyan
  deriving DecidableEq, Repr

namespace Style

/-- The number in the control sequence that switches the style on. -/
def onCode : Style → String
  | bold => "1"
  | dim => "2"
  | underline => "4"
  | red => "31"
  | green => "32"
  | yellow => "33"
  | blue => "34"
  | cyan => "36"

/-- The number in the control sequence that switches the style off.  All colours share one, and so
do both weights. -/
def offCode : Style → String
  | bold | dim => "22"
  | underline => "24"
  | _ => "39"

/-- The control sequence that switches the style on. -/
def on (s : Style) : String := "\x1b[" ++ s.onCode ++ "m"

/-- The control sequence that switches the style off. -/
def off (s : Style) : String := "\x1b[" ++ s.offCode ++ "m"

/-- Text in a style. -/
def paint (s : Style) (text : String) : String := s.on ++ text ++ s.off

/-- Text in several styles, switched on and off in the same order. -/
def paintAll (ss : List Style) (text : String) : String :=
  String.join (ss.map on) ++ text ++ String.join (ss.map off)

end Style

end Macc
