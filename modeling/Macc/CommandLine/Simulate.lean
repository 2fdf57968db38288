import Macc.CommandLine.Arguments
import Macc.CommandLine.Plan
import Macc.Config.Basic
import Macc.Image.Flat
import Macc.Image.Hex
import Macc.Machine.Sequencer
import Macc.Text.Line

/-!
# The simulator command

The command loads an image, runs it and prints the final state.  A configuration file says where to
start, how far to run and what memory to print; options override it.  What such a file looks like is
left open: its reader is a parameter.  The trace is written whether the run faults or not, the final
memory only if it does not.
-/

namespace Macc

namespace CommandLine

open Text

/-- What the simulator is asked to do. -/
structure SimulateRequest where
  input : String
  config : Option String := none
  start : Option Nat := none
  maxSteps : Option Nat := none
  output : Option String := none
  bin : Option String := none
  trace : Option String := none
  deriving DecidableEq, Repr

namespace SimulateRequest

def specs : List OptionSpec :=
  [⟨"config", some 'c', true⟩, ⟨"start", some 's', true⟩, ⟨"max-steps", none, true⟩,
    ⟨"output", some 'o', true⟩, ⟨"bin", some 'b', true⟩, ⟨"trace", some 't', true⟩,
    ⟨"log-level", some 'l', true⟩]

/-- Read the arguments of the simulator, with exactly one operand. -/
def ofArgs? (args : List String) : Option SimulateRequest := do
  let a ← Arguments.parse? specs args
  let input ← match a.operands with
    | [input] => path? input
    | _ => none
  let config ← a.value? "config" path?
  let start ← a.value? "start" address?
  let maxSteps ← a.value? "max-steps" count?
  let output ← a.value? "output" path?
  let bin ← a.value? "bin" path?
  let trace ← a.value? "trace" path?
  let _ ← a.value? "log-level" logLevel?
  return ⟨input, config, start, maxSteps, output, bin, trace⟩

/-- Read the configuration file, if one is given.  What can be opened and is no file with a
configuration counts as a bad one. -/
def loadConfig (r : SimulateRequest) (readConfig : ByteArray → Option Config) (s : Sources) :
    Except Failure Config :=
  match r.config with
  | none => .ok {}
  | some path =>
    match s.entry path with
    | none => .error (.fileOpen path)
    | some entry =>
      match entry.data?.bind readConfig with
      | none => .error (.config path)
      | some c => .ok c

/-- The configuration with the options applied. -/
def configure (r : SimulateRequest) (c : Config) : Config :=
  { c with
    start := r.start.getD c.start
    limits := { c.limits with maxSteps := r.maxSteps.getD c.limits.maxSteps } }

/-- The last part of the path is a name with the extension of sparse hex text. -/
def isHexFile (path : String) : Bool :=
  let name := (((path.toList.splitOn '/').filter (· ≠ [])).getLast?).getD []
  ['.', 'h', 'e', 'x'].isSuffixOf name && name ≠ ['.', 'h', 'e', 'x']

/-- Read the image, in which nothing is marked as defined. -/
def loadImage (r : SimulateRequest) (s : Sources) : Except Failure Image :=
  if isHexFile r.input then
    match s.text? r.input with
    | none => .error (.fileOpen r.input)
    | some text => ((Image.ofHex text).map Image.clearDefined).mapError .image
  else
    match s.data? r.input with
    | none => .error (.fileOpen r.input)
    | some data => (Image.empty.loadFlat (bytesOfFile data)).mapError .image

/-- The text of a trace. -/
def traceText (t : Trace) : String := unlines (t.lines.toList.map TraceLine.text)

/-- The bytes of the trace of a session. -/
def traceData (s : Session) : ByteArray := (traceText (s.trace.getD {})).toUTF8

/-- The line that names the image. -/
def banner (r : SimulateRequest) : String :=
  Style.bold.paint "MACC simulator" ++ ": " ++ r.input ++ "\n"

/-- The session that a run of an image begins with. -/
def session (r : SimulateRequest) (m : Image) : Session :=
  { machine := { mem := m }, trace := r.trace.map fun _ => {} }

/-- What to do before a run: the file of the trace is made without it. -/
def opening (r : SimulateRequest) : List Action :=
  .print r.banner :: (r.trace.map .create).toList

/-- What to do after a run, whatever its result.  A trace is written through a buffer.  A file that
is too small for it refuses its end, if not more, so all of the trace can be put out here. -/
def report (r : SimulateRequest) (dump : List Region) (s : Session) : List Action :=
  (r.trace.map fun path => .write path (traceData s)).toList ++
    [.print (unlines (s.stateLines ++ dump.flatMap s.regionBox))]

/-- What to do with the final memory. -/
def outputs (r : SimulateRequest) (m : Image) : List Action :=
  (r.output.map fun path => .write path (m.toHex .bytes).toUTF8).toList ++
    (r.bin.map fun path => .write path (fileOfBytes (m.toFlat false))).toList

/-- What to do with an image under a configuration. -/
def planRun (r : SimulateRequest) (c : Config) (m : Image) : Plan :=
  match (r.session m).run c.limits c.start with
  | (s, .error f) => .fail (r.opening ++ r.report c.dump s) (.fault f)
  | (s, .ok ()) => ⟨r.opening ++ (r.report c.dump s ++ r.outputs s.machine.mem), 0⟩

/-- What to do with what was read. -/
def plan (r : SimulateRequest) (readConfig : ByteArray → Option Config) (s : Sources) : Plan :=
  match r.loadConfig readConfig s with
  | .error f => .fail [] f
  | .ok c =>
    match r.loadImage s with
    | .error f => .fail [.print r.banner] f
    | .ok m => r.planRun (r.configure c) m

end SimulateRequest

end CommandLine

end Macc
