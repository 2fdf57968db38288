import Macc.Image.Basic
import Macc.Machine.Fault
import Macc.Text.Style

/-!
# Plans

What a command does after it has read its files is a `Plan`: texts to print and files to write, in
order, and the status to end with.  A file that cannot be written ends the command.
`Plan.outcome` says what comes of a plan when it is known what each file can take.
-/

namespace Macc

namespace CommandLine

/-! ### Failures -/

/-- The reasons why a command fails, the errors of an assembly apart. -/
inductive Failure
  | fileOpen (path : String)
  | fileRead (path : String)
  | fileWrite (path : String)
  | config (path : String)
  | image (e : ImageError)
  | fault (f : LocatedFault)
  deriving DecidableEq, Repr

/-- The text of the failure. -/
def Failure.message : Failure → String
  | fileOpen path => "Failed to open file: " ++ path
  | fileRead path => "Failed to read file: " ++ path
  | fileWrite path => "Failed to write file: " ++ path
  | config path => "Failed to parse config: " ++ path
  | image e => e.message
  | fault f => f.message

/-- The line that reports an error. -/
def errorLine (message : String) : String :=
  Style.paintAll [.red, .bold] "error" ++ ": " ++ message ++ "\n"

/-! ### Plans -/

/-- A thing that others can see a command do.  What was in a file before it is written is lost. -/
inductive Action
  | print (text : String)
  | write (path : String) (data : ByteArray)

/-- Make a file and write nothing to it yet. -/
def Action.create (path : String) : Action := .write path .empty

/-- What a command is going to do, and the status that it ends with. -/
structure Plan where
  actions : List Action
  status : Nat

/-- What happens to a path when a file is written there.  Perhaps none can be made; or one can be
made and holds fewer bytes than it is given, like a file on a full device. -/
structure Target where
  opens : Bool := true
  room : Option Nat := none
  deriving DecidableEq, Repr

/-- All of the data can be written. -/
def Target.takes (t : Target) (data : ByteArray) : Bool :=
  t.opens && t.room.all (data.size ≤ ·)

/-- As much of the data as there is room for. -/
def Target.part (t : Target) (data : ByteArray) : ByteArray :=
  data.extract 0 (t.room.getD data.size)

namespace Plan

/-- Report a failure after some actions, and end. -/
def fail (actions : List Action) (f : Failure) : Plan :=
  ⟨actions ++ [.print (errorLine f.message)], 1⟩

/-- The program aborts, which leaves its own status. -/
def abort : Plan := ⟨[], 101⟩

/-- What has come of a command: its status, what it printed and what it wrote. -/
structure Outcome where
  status : Nat
  stdout : String
  writes : List (String × ByteArray)

namespace Outcome

/-- The same behind a printed text. -/
def printed (text : String) (o : Outcome) : Outcome := { o with stdout := text ++ o.stdout }

/-- The same behind a write. -/
def written (path : String) (data : ByteArray) (o : Outcome) : Outcome :=
  { o with writes := (path, data) :: o.writes }

/-- The end of a command that could not write a file. -/
def refused (path : String) : Outcome := ⟨1, errorLine (Failure.fileWrite path).message, []⟩

end Outcome

/-- What comes of actions. -/
def outcomeOf (target : String → Target) (status : Nat) : List Action → Outcome
  | [] => ⟨status, "", []⟩
  | .print text :: actions => (outcomeOf target status actions).printed text
  | .write path data :: actions =>
    if (target path).takes data then (outcomeOf target status actions).written path data
    else if (target path).opens then (Outcome.refused path).written path ((target path).part data)
    else .refused path

/-- What comes of a plan. -/
def outcome (target : String → Target) (p : Plan) : Outcome :=
  outcomeOf target p.status p.actions

end Plan

/-! ### Contents of files -/

/-- The bytes of a file. -/
def bytesOfFile (data : ByteArray) : List Byte := data.toList.map UInt8.toBitVec

/-- The file with the given bytes. -/
def fileOfBytes (bytes : List Byte) : ByteArray := ⟨(bytes.map UInt8.ofBitVec).toArray⟩

/-- What a path leads to.  A directory can be opened like a file but not read. -/
inductive Entry
  | file (data : ByteArray)
  | directory

/-- The bytes of a file. -/
def Entry.data? : Entry → Option ByteArray
  | file data => some data
  | directory => none

/-- Where a command reads from: what its paths lead to, and its standard input. -/
structure Sources where
  entry : String → Option Entry
  stdin : ByteArray

namespace Sources

/-- The bytes of a file. -/
def data? (s : Sources) (path : String) : Option ByteArray := (s.entry path).bind Entry.data?

/-- The text of a file. -/
def text? (s : Sources) (path : String) : Option String :=
  (s.data? path).bind String.fromUTF8?

end Sources

end CommandLine

end Macc
