import Macc.Assembly.Listing
import Macc.CommandLine.Arguments
import Macc.CommandLine.Plan
import Macc.Image.Flat
import Macc.Image.Hex

/-!
# The assembler command

The command reads a source text from a file or from standard input and assembles it.  It can print
the listing, and it puts the image out as sparse hex text, as a flat image, or both.  Errors are
shown with the source line that they are about.
-/

namespace Macc

namespace CommandLine

open Text

/-- What the assembler is asked to do. -/
structure AssembleRequest where
  input : Option String := none
  output : Option String := none
  bin : Option String := none
  dump : Bool := false
  deriving DecidableEq, Repr

namespace AssembleRequest

def specs : List OptionSpec :=
  [⟨"output", some 'o', true⟩, ⟨"bin", some 'b', true⟩, ⟨"dump", some 'd', false⟩,
    ⟨"log-level", some 'l', true⟩]

/-- Read the arguments of the assembler, with at most one operand. -/
def ofArgs? (args : List String) : Option AssembleRequest := do
  let a ← Arguments.parse? specs args
  let input ← match a.operands with
    | [] => some none
    | [input] => (path? input).map some
    | _ => none
  let output ← a.value? "output" path?
  let bin ← a.value? "bin" path?
  let _ ← a.value? "log-level" logLevel?
  return ⟨input, output, bin, a.has "dump"⟩

/-- The name of the source in messages. -/
def sourceName (r : AssembleRequest) : String := r.input.getD "<stdin>"

/-- Read the source text. -/
def source (r : AssembleRequest) (s : Sources) : Except Failure String :=
  match r.input with
  | some path =>
    match s.text? path with
    | some text => .ok text
    | none => .error (.fileOpen path)
  | none =>
    match String.fromUTF8? s.stdin with
    | some text => .ok text
    | none => .error (.fileRead r.sourceName)

/-- An assembly error with the place and the text of its source line. -/
def diagnosis (file source : String) (e : LocatedError) : String :=
  let line := ((lines source.toList)[e.line - 1]?).getD []
  let bar := "      " ++ Style.blue.paint "|" ++ "\n"
  errorLine e.cause.message ++
    "     " ++ Style.blue.paint "-->" ++ " " ++ Style.underline.paint s!"{file}:{e.line}" ++ "\n" ++
    bar ++
    " " ++ Style.blue.paint (padLeft 4 (toString e.line) ++ " |") ++ " " ++ String.ofList line ++
      "\n" ++
    bar

/-- What to do with an image. -/
def outputs (r : AssembleRequest) (m : Image) : List Action :=
  let hex := m.toHex .words
  let files := (r.output.map fun path => .write path hex.toUTF8).toList ++
    (r.bin.map fun path => .write path (fileOfBytes (m.toFlat true))).toList
  if files.isEmpty then [.print hex] else files

/-- What to do with what was read. -/
def plan (r : AssembleRequest) (s : Sources) : Plan :=
  match r.source s with
  | .error f => .fail [] f
  | .ok source =>
    match Program.assemble source with
    | .error e =>
      if e.cause.aborts then .abort else ⟨[.print (diagnosis r.sourceName source e)], 1⟩
    | .ok p =>
      let listing := if r.dump then [.print (p.listing r.sourceName source)] else []
      ⟨listing ++ r.outputs p.image, 0⟩

end AssembleRequest

end CommandLine

end Macc
