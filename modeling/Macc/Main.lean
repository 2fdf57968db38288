import Macc.CommandLine.Assemble
import Macc.CommandLine.Simulate
import Macc.Config.Reader

/-!
# The program

`macc asm` assembles and `macc sim` simulates.  Everything is decided by plans; here files are read
and written.
-/

namespace Macc

namespace CommandLine

/-- Read what was opened.  What cannot be read is a directory. -/
def readHandle (handle : IO.FS.Handle) : IO Entry := do
  try
    return .file (← handle.readBinToEnd)
  catch _ =>
    return .directory

/-- Read what a path leads to, if it can be opened. -/
def readEntry (path : String) : IO (Option Entry) := do
  try
    return some (← readHandle (← IO.FS.Handle.mk path .read))
  catch _ =>
    return none

/-- Write a file, and say whether that was possible. -/
def writeFile (path : String) (data : ByteArray) : IO Bool := do
  try
    IO.FS.writeBinFile path data
    return true
  catch _ =>
    return false

/-- Read the given files, and standard input if it is asked for. -/
def readSources (paths : List String) (wantsInput : Bool) : IO Sources := do
  let files ← paths.mapM fun path => return (path, ← readEntry path)
  let stdin ← if wantsInput then (← IO.getStdin).readBinToEnd else pure ByteArray.empty
  return ⟨fun path => (files.lookup path).join, stdin⟩

/-- Carry out actions and give the status to end with. -/
def perform (status : Nat) : List Action → IO Nat
  | [] => return status
  | .print text :: actions => do
    IO.print text
    perform status actions
  | .write path data :: actions => do
    if ← writeFile path data then perform status actions
    else
      IO.print (errorLine (Failure.fileWrite path).message)
      return 1

/-- Carry out a plan. -/
def Plan.perform (p : Plan) : IO UInt32 := return (← CommandLine.perform p.status p.actions).toUInt32

/-- Refuse a command line. -/
def refuse (usage : String) : IO UInt32 := do
  IO.eprintln usage
  return 2

/-- Assemble. -/
def assemble (args : List String) : IO UInt32 := do
  match AssembleRequest.ofArgs? args with
  | none => refuse "usage: macc asm [-o FILE] [-b FILE] [-d] [-l LEVEL] [INPUT]"
  | some r => (r.plan (← readSources r.input.toList r.input.isNone)).perform

/-- Simulate. -/
def simulate (args : List String) : IO UInt32 := do
  match SimulateRequest.ofArgs? args with
  | none =>
    refuse ("usage: macc sim [-c FILE] [-s ADDRESS] [--max-steps N] [-o FILE] [-b FILE] " ++
      "[-t FILE] [-l LEVEL] INPUT")
  | some r => (r.plan Config.ofFile? (← readSources (r.input :: r.config.toList) false)).perform

end CommandLine

end Macc

def main (args : List String) : IO UInt32 :=
  match args with
  | "asm" :: args => Macc.CommandLine.assemble args
  | "sim" :: args => Macc.CommandLine.simulate args
  | _ => Macc.CommandLine.refuse "usage: macc (asm | sim) ..."
