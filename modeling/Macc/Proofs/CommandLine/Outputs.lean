import Macc.Proofs.Assembly.ErrorLines
import Macc.Proofs.CommandLine.HandOver
import Macc.Proofs.Machine.Loads
import Macc.Proofs.Machine.StateBox
import Mathlib.Logic.Function.Basic

/-!
# What a command leaves behind

`Plan.Outcome.filesAfter` are the files after a command.  A command that fails before it has results
leaves them all as they were, except that a simulation also writes its trace when the run faults.
It still shows the state then, if the trace could be written.  A simulation without a fault leaves
the final memory in both formats (`files_of_commands`).
-/

namespace Macc

namespace CommandLine

open Text Plan Plan.Outcome

variable {File : Type*} [DecidableEq File] (locate : String → File)
  (before : File → Option ByteArray) (target : String → Target)

/-! ### Actions -/

/-- What an action prints. -/
def Action.text : Action → String
  | print text => text
  | write _ _ => ""

/-- The file that an action writes. -/
def Action.file? : Action → Option (String × ByteArray)
  | print _ => none
  | write path data => some (path, data)

namespace Plan

/-- Only files of the plan are written, though perhaps not to their end. -/
theorem exists_file_of_mem_writes {status : Nat} {actions : List Action} {w : String × ByteArray}
    (h : w ∈ (outcomeOf target status actions).writes) :
    ∃ f ∈ actions.filterMap Action.file?, f.1 = w.1 := by
  induction actions with
  | nil => cases h
  | cons a actions ih =>
    cases a with
    | print text => exact ih h
    | write path data =>
      have first : (path, data) ∈ (Action.write path data :: actions).filterMap Action.file? :=
        List.mem_cons_self
      rw [outcomeOf] at h
      split at h
      · rcases List.mem_cons.1 h with rfl | h
        · exact ⟨_, first, rfl⟩
        · obtain ⟨f, hf, same⟩ := ih h
          exact ⟨f, List.mem_cons_of_mem _ hf, same⟩
      · split at h
        · obtain rfl := List.mem_singleton.1 h
          exact ⟨_, first, rfl⟩
        · cases h

/-- Status 1 stays, whatever else fails. -/
theorem status_outcomeOf_one (actions : List Action) :
    (outcomeOf target 1 actions).status = 1 := by
  induction actions with
  | nil => rfl
  | cons a actions ih =>
    cases a with
    | print text => exact ih
    | write path data =>
      rw [outcomeOf]
      split
      · exact ih
      · split <;> rfl

/-- Actions whose files can all be written are carried out in front of others. -/
theorem outcomeOf_append {front : List Action}
    (h : ∀ w ∈ front.filterMap Action.file?, (target w.1).takes w.2) (status : Nat)
    (actions : List Action) :
    let o := outcomeOf target status actions
    outcomeOf target status (front ++ actions) =
      ⟨o.status, String.join (front.map Action.text) ++ o.stdout,
        front.filterMap Action.file? ++ o.writes⟩ := by
  intro o
  induction front with
  | nil => simp [o]
  | cons a front ih =>
    cases a with
    | print text =>
      rw [List.cons_append, outcomeOf, ih h, List.map_cons, String.join_cons, Action.text,
        String.append_assoc]
      rfl
    | write path data =>
      obtain ⟨first, rest⟩ := List.forall_mem_cons.1 h
      rw [List.cons_append, outcomeOf, if_pos first, ih rest, List.map_cons, String.join_cons,
        Action.text, String.empty_append]
      rfl

/-- A command ends where a file cannot be written. -/
theorem outcomeOf_of_refused {path : String} {data : ByteArray}
    (h : (target path).takes data = false) (status : Nat) (actions : List Action) :
    (outcomeOf target status (.write path data :: actions)).stdout =
      errorLine (Failure.fileWrite path).message := by
  rw [outcomeOf, if_neg (Bool.eq_false_iff.1 h)]
  split <;> rfl

/-- No part of a file is written that cannot be made. -/
theorem outcomeOf_of_not_opens {path : String} (h : (target path).opens = false)
    (data : ByteArray) (status : Nat) (actions : List Action) :
    outcomeOf target status (.write path data :: actions) = .refused path := by
  simp [outcomeOf, Target.takes, h]

end Plan

namespace Target

variable {t : Target}

theorem opens_of_takes {data : ByteArray} (h : t.takes data) : t.opens :=
  (Bool.and_eq_true_iff.1 h).1

/-- There is always room for nothing. -/
theorem takes_empty (h : t.opens) : t.takes .empty := by
  obtain ⟨opens, room⟩ := t
  subst h
  cases room <;> rfl

end Target

/-! ### Files -/

namespace Plan.Outcome

/-- The files after some writes, when it is known which file a path leads to. -/
def filesAfterWrites (writes : List (String × ByteArray)) : File → Option ByteArray :=
  writes.foldl (fun files w => Function.update files (locate w.1) (some w.2)) before

/-- The files after a command. -/
def filesAfter (o : Outcome) : File → Option ByteArray := filesAfterWrites locate before o.writes

variable {locate before}

theorem filesAfterWrites_eq_before {writes : List (String × ByteArray)} {file : File}
    (h : ∀ w ∈ writes, locate w.1 ≠ file) :
    filesAfterWrites locate before writes file = before file := by
  induction writes generalizing before with
  | nil => rfl
  | cons w writes ih =>
    obtain ⟨first, rest⟩ := List.forall_mem_cons.1 h
    exact (ih rest).trans (Function.update_of_ne first.symm _ _)

/-- What is written stays if no file is written twice. -/
theorem filesAfterWrites_of_mem {writes : List (String × ByteArray)} {path : String}
    {data : ByteArray} (distinct : (writes.map fun w => locate w.1).Nodup)
    (h : (path, data) ∈ writes) :
    filesAfterWrites locate before writes (locate path) = some data := by
  induction writes generalizing before with
  | nil => cases h
  | cons w writes ih =>
    obtain ⟨fresh, distinct⟩ := List.nodup_cons.1 distinct
    rcases List.mem_cons.1 h with rfl | h
    · have kept : ∀ w ∈ writes, locate w.1 ≠ locate path := fun w hw same =>
        fresh (List.mem_map.2 ⟨w, hw, same⟩)
      exact (filesAfterWrites_eq_before kept).trans (Function.update_self _ _ _)
    · exact ih distinct h

variable (locate before)

/-- A command has failed, and at most the file of the given path is other than before. -/
structure FailsBut (o : Outcome) (path? : Option String) : Prop where
  status : o.status = 1
  kept : ∀ file, (∀ path ∈ path?, locate path ≠ file) →
    o.filesAfter locate before file = before file

variable {locate before}

/-- A plan that ends with status 1 changes at most the files that it writes. -/
theorem failsBut_outcome {p : Plan} {path? : Option String} (status : p.status = 1)
    (h : ∀ f ∈ p.actions.filterMap Action.file?, f.1 ∈ path?) :
    (p.outcome target).FailsBut locate before path? where
  status := by
    rw [outcome, status]
    exact status_outcomeOf_one target p.actions
  kept file other := by
    refine filesAfterWrites_eq_before fun w hw => ?_
    obtain ⟨f, hf, same⟩ := exists_file_of_mem_writes target hw
    exact other w.1 (same ▸ h f hf)

end Plan.Outcome

/-- An untrimmed flat image holds all of memory. -/
theorem bytesOfFile_toFlat_false (m : Image) :
    (bytesOfFile (fileOfBytes (m.toFlat false))).length = memorySize ∧
      ∀ a : Address, (bytesOfFile (fileOfBytes (m.toFlat false)))[a.toNat]? = some (m.byte a) := by
  rw [bytesOfFile_fileOfBytes]
  exact ⟨m.length_toFlat_false, m.getElem?_toFlat_false⟩

/-! ### The simulator -/

namespace SimulateRequest

variable (r : SimulateRequest) {readConfig : ByteArray → Option Config} {s : Sources}

/-- The files that are written when a run does not fault. -/
def files (t : Session) : List (String × ByteArray) :=
  (r.trace.map fun path => (path, traceData t)).toList ++
    ((r.output.map fun path => (path, (t.machine.mem.toHex .bytes).toUTF8)).toList ++
      (r.bin.map fun path => (path, fileOfBytes (t.machine.mem.toFlat false))).toList)

/-- The text is the line that names the image, the final state, the regions, and a fault. -/
def ShowsFault (dump : List Region) (t : Session) (f : LocatedFault) (stdout : String) : Prop :=
  ∃ box, t.ShowsState box ∧
    stdout = r.banner ++
      unlines (box ++ dump.flatMap fun region =>
        (t.machine.mem.regionLines region).map (" | " ++ ·) ++ [border]) ++
      errorLine f.message

/-- An error right behind the name of the image is no final state. -/
theorem not_showsFault (dump : List Region) (t : Session) (f : LocatedFault) (message : String) :
    ¬ r.ShowsFault dump t f (r.banner ++ errorLine message) := by
  rintro ⟨box, ⟨first, second, third, rfl, -⟩, same⟩
  rw [String.append_assoc, ← String.toList_inj, String.toList_append,
    String.toList_append, List.append_cancel_left_eq] at same
  have heads := congrArg List.head? same
  simp [errorLine, Style.paintAll, Style.on, unlines, registerBorder] at heads

theorem exists_plan_eq_fail (h : (∃ f, r.loadConfig readConfig s = .error f) ∨
    ∃ f, r.loadImage s = .error f) :
    ∃ (texts : List String) (f : Failure), r.plan readConfig s = .fail (texts.map .print) f := by
  cases config : r.loadConfig readConfig s with
  | error f => exact ⟨[], f, r.plan_of_config config⟩
  | ok c =>
    obtain ⟨_, failed⟩ | ⟨f, failed⟩ := h
    · cases config.symm.trans failed
    · refine ⟨[r.banner], f, ?_⟩
      rw [plan, config]
      dsimp only
      rw [failed]
      rfl

/-! ### Files and texts of a run -/

theorem file?_opening :
    r.opening.filterMap Action.file? =
      (r.trace.map fun path => (path, ByteArray.empty)).toList := by
  rw [opening]
  cases r.trace <;> rfl

theorem file?_report (dump : List Region) (t : Session) :
    (r.report dump t).filterMap Action.file? =
      (r.trace.map fun path => (path, traceData t)).toList := by
  rw [report]
  cases r.trace <;> rfl

theorem file?_report_outputs (dump : List Region) (t : Session) :
    (r.report dump t ++ r.outputs t.machine.mem).filterMap Action.file? = r.files t := by
  rw [List.filterMap_append, file?_report, outputs, files]
  cases r.output <;> cases r.bin <;> rfl

theorem text_opening : String.join (r.opening.map Action.text) = r.banner := by
  rw [opening]
  cases r.trace <;> simp [Action.text, Action.create]

theorem text_report (dump : List Region) (t : Session) :
    String.join ((r.report dump t).map Action.text) =
      unlines (t.stateLines ++ dump.flatMap t.regionBox) := by
  rw [report]
  cases r.trace <;> simp [Action.text]

theorem takes_opening (h : ∀ path ∈ r.trace, (target path).opens) :
    ∀ w ∈ r.opening.filterMap Action.file?, (target w.1).takes w.2 := by
  rw [file?_opening]
  cases hr : r.trace with
  | none => nofun
  | some path =>
    rw [Option.map_some, Option.toList_some, List.forall_mem_singleton]
    exact Target.takes_empty (h path hr)

/-! ### Runs -/

variable {c : Config} {m : Image} {t : Session} {result : Except LocatedFault Unit}

/-- However a run ends, the same is done before it and right behind it. -/
theorem exists_planRun_eq (h : (r.session m).run c.limits c.start = (t, result)) :
    ∃ rest status, r.planRun c m = ⟨r.opening ++ (r.report c.dump t ++ rest), status⟩ := by
  cases result with
  | error f => exact ⟨_, _, by rw [r.planRun_of_fault h, List.append_assoc]⟩
  | ok => exact ⟨_, _, r.planRun_of_ok h⟩

/-- Without its trace a run is not begun. -/
theorem outcome_planRun_of_not_opens {path : String} (hpath : path ∈ r.trace)
    (h : (target path).opens = false) :
    (r.planRun c m).outcome target =
      ⟨1, r.banner ++ errorLine (Failure.fileWrite path).message, []⟩ := by
  obtain ⟨rest, status, plan⟩ := r.exists_planRun_eq (c := c) (m := m) rfl
  rw [plan, outcome, opening, show r.trace = some path from hpath]
  show (outcomeOf target status (.write path .empty :: _)).printed r.banner = _
  rw [outcomeOf_of_not_opens target h]
  rfl

/-- A run is not shown if its trace cannot be written. -/
theorem stdout_planRun_of_refused {path : String} (hpath : path ∈ r.trace)
    (run : (r.session m).run c.limits c.start = (t, result))
    (h : (target path).takes (traceData t) = false) :
    ((r.planRun c m).outcome target).stdout =
      r.banner ++ errorLine (Failure.fileWrite path).message := by
  cases opens : (target path).opens with
  | false => rw [r.outcome_planRun_of_not_opens target hpath opens]
  | true =>
    obtain ⟨rest, status, plan⟩ := r.exists_planRun_eq run
    have made : ∀ other ∈ r.trace, (target other).opens := fun other ho =>
      Option.some.inj (hpath.symm.trans ho) ▸ opens
    rw [plan, outcome, outcomeOf_append target (r.takes_opening target made), text_opening, report,
      show r.trace = some path from hpath]
    exact congrArg (r.banner ++ ·) (outcomeOf_of_refused target h status _)

/-- A run that faults changes at most its trace. -/
theorem failsBut_planRun {f : LocatedFault}
    (h : (r.session m).run c.limits c.start = (t, .error f)) :
    ((r.planRun c m).outcome target).FailsBut locate before r.trace := by
  rw [r.planRun_of_fault h]
  refine failsBut_outcome target rfl ?_
  rw [List.filterMap_append, List.filterMap_append, file?_opening, file?_report]
  cases r.trace <;> simp [Action.file?]

/-- A run that faults is shown, and then its fault. -/
theorem showsFault_planRun {f : LocatedFault}
    (run : (r.session m).run c.limits c.start = (t, .error f))
    (h : ∀ path ∈ r.trace, (target path).takes (traceData t)) :
    r.ShowsFault c.dump t f ((r.planRun c m).outcome target).stdout := by
  have made : ∀ path ∈ r.trace, (target path).opens := fun path hpath =>
    Target.opens_of_takes (h path hpath)
  have reported : ∀ w ∈ (r.report c.dump t).filterMap Action.file?, (target w.1).takes w.2 := by
    rw [file?_report]
    simpa using h
  refine ⟨t.stateLines, t.showsState_stateLines, ?_⟩
  rw [r.planRun_of_fault run, List.append_assoc, outcome,
    outcomeOf_append target (r.takes_opening target made), outcomeOf_append target reported,
    text_opening, text_report]
  show r.banner ++ (unlines _ ++ (errorLine f.message ++ "")) = _
  rw [String.append_empty, String.append_assoc]
  rfl

/-- A run that does not fault puts out all its files. -/
theorem outcome_planRun_of_ok (run : (r.session m).run c.limits c.start = (t, .ok ()))
    (h : ∀ w ∈ r.files t, (target w.1).takes w.2) :
    ∃ stdout front, (r.planRun c m).outcome target = ⟨0, stdout, front ++ r.files t⟩ := by
  have made : ∀ path ∈ r.trace, (target path).opens := fun path hpath => by
    have traced : (path, traceData t) ∈ r.files t := by
      rw [files, show r.trace = some path from hpath]
      exact List.mem_cons_self
    exact Target.opens_of_takes (h _ traced)
  rw [← file?_report_outputs r c.dump t] at h
  have all := outcomeOf_append target h 0 []
  rw [List.append_nil, r.file?_report_outputs] at all
  rw [r.planRun_of_ok run, outcome, outcomeOf_append target (r.takes_opening target made), all]
  exact ⟨_, _, by rw [show (outcomeOf target 0 []).writes = [] from rfl, List.append_nil]; rfl⟩

end SimulateRequest

/-- Whichever files there are and whatever each of them can take, a command that cannot read or
assemble its input changes no file.  Nor does a run that faults, its trace apart.  It shows the state
and the regions in front of the fault, unless its trace cannot be written, which is reported instead
of them.  A run that does not fault leaves the final memory, if nothing else is written over it. -/
theorem files_of_commands (readConfig : ByteArray → Option Config) (s : Sources) :
    (∀ r : AssembleRequest,
      (∃ f, r.source s = .error f) ∨
        (∃ source e, r.source s = .ok source ∧ Program.assemble source = .error e ∧
          e.cause.aborts = false) →
      ((r.plan s).outcome target).FailsBut locate before none) ∧
    ∀ r : SimulateRequest,
      let o := (r.plan readConfig s).outcome target
      ((∃ f, r.loadConfig readConfig s = .error f) ∨ (∃ f, r.loadImage s = .error f) →
        o.FailsBut locate before none) ∧
      ∀ c m t result, r.loadConfig readConfig s = .ok c → r.loadImage s = .ok m →
        (r.session m).run (r.configure c).limits (r.configure c).start = (t, result) →
        (∀ path ∈ r.trace, (target path).opens = false →
          o = ⟨1, r.banner ++ errorLine (Failure.fileWrite path).message, []⟩) ∧
        (∀ f, result = .error f →
          o.FailsBut locate before r.trace ∧
          ((∀ path ∈ r.trace, (target path).takes (SimulateRequest.traceData t)) →
            r.ShowsFault c.dump t f o.stdout) ∧
          ∀ path ∈ r.trace, (target path).takes (SimulateRequest.traceData t) = false →
            o.stdout = r.banner ++ errorLine (Failure.fileWrite path).message) ∧
        (result = .ok () → (∀ w ∈ r.files t, (target w.1).takes w.2) →
          ((r.files t).map fun w => locate w.1).Nodup →
          o.status = 0 ∧
          (∀ path ∈ r.output, o.filesAfter locate before (locate path) =
            some (t.machine.mem.toHex .bytes).toUTF8) ∧
          ∀ path ∈ r.bin, ∃ data, o.filesAfter locate before (locate path) = some data ∧
            (bytesOfFile data).length = memorySize ∧
            ∀ a : Address, (bytesOfFile data)[a.toNat]? = some (t.machine.mem.byte a)) := by
  refine ⟨fun r failed => ?assembler, fun r => ⟨fun failed => ?unread, ?ran⟩⟩
  case assembler =>
    rcases failed with ⟨f, hs⟩ | ⟨source, e, hs, he, reported⟩ <;> rw [AssembleRequest.plan, hs]
    · exact failsBut_outcome target rfl (by simp [fail, Action.file?])
    · dsimp only
      rw [he]
      dsimp only
      rw [if_neg (Bool.eq_false_iff.1 reported)]
      exact failsBut_outcome target rfl (by simp [Action.file?])
  case unread =>
    obtain ⟨texts, f, plan⟩ := r.exists_plan_eq_fail failed
    rw [plan]
    exact failsBut_outcome target rfl (by simp [fail, Action.file?])
  case ran =>
    intro c m t result config image run
    rw [r.plan_of_ok config image]
    refine ⟨fun path hpath closed => ?closed, fun f hf => ?fault, fun hok takes distinct => ?done⟩
    case closed => exact r.outcome_planRun_of_not_opens target hpath closed
    case fault =>
      subst hf
      exact ⟨r.failsBut_planRun locate before target run, r.showsFault_planRun target run,
        fun path hpath => r.stdout_planRun_of_refused target hpath run⟩
    case done =>
      subst hok
      obtain ⟨stdout, front, o⟩ := r.outcome_planRun_of_ok target run takes
      rw [o]
      have kept {path : String} {data : ByteArray} (h : (path, data) ∈ r.files t) :
          filesAfter locate before ⟨0, stdout, front ++ r.files t⟩ (locate path) = some data := by
        rw [filesAfter, filesAfterWrites, List.foldl_append]
        exact filesAfterWrites_of_mem distinct h
      refine ⟨rfl, fun path hpath => kept ?hex, fun path hpath =>
        ⟨_, kept ?flat, bytesOfFile_toFlat_false t.machine.mem⟩⟩
      case hex =>
        rw [SimulateRequest.files, show r.output = some path from hpath]
        simp
      case flat =>
        rw [SimulateRequest.files, show r.bin = some path from hpath]
        simp

/-! ### A run that stumbles -/

/-- Code that returns at once, code that runs into data, and the data. -/
def stumblingSource : String := ".code\nReturn\nSync\n.data\n255 255 255 255\n"

/-- The image and its words. -/
theorem exists_stumbling : ∃ p, Program.assemble stumblingSource = .ok p ∧
    p.image.word (.ofNat 17 0) = Op.ret.encode ∧ p.image.word (.ofNat 17 4) = Op.sync.encode ∧
    p.image.word (.ofNat 17 8) = 0xffffffff := by
  obtain ⟨p, hp⟩ := (Program.exists_assemble_iff stumblingSource).2
    ⟨by decide +kernel, by decide +kernel, by decide +kernel⟩
  have made := madeOf_of_finish (Program.finish_of_ofLines hp) p.symbols.agrees_value?
  have emitted : ∀ e ∈ [⟨2, 0, .insn .ret []⟩, ⟨3, 4, .insn .sync []⟩,
      ⟨5, 8, .data 255 255 255 255⟩],
      e ∈ Assembler.allEmissions {} ((Text.lines stumblingSource.toList).zipIdx 1) := by
    decide +kernel
  simp only [List.forall_mem_cons] at emitted
  obtain ⟨first, second, third, -⟩ := emitted
  refine ⟨p, hp, ?_, ?_, ?_⟩
  · rw [made.word_image first]
    show Insn.encode ⟨0, .ret, 0, 0, 2⟩ = _
    decide
  · rw [made.word_image second]
    show Insn.encode ⟨4, .sync, 0, 0, 3⟩ = _
    decide
  · rw [made.word_image third]
    show (255#8 ++ 255#8 ++ 255#8 ++ 255#8 : BitVec (8 + 8 + 8 + 8)) = 0xffffffff#32
    decide

/-- All paths lead to the image, and standard input is a source text that does not assemble. -/
def stumblingFiles (m : Image) : Sources :=
  ⟨fun _ => some (.file (flatFile m)), Program.danglingSource.toUTF8⟩

/-- The configuration asks for a region. -/
def withRegion : Config := { dump := [⟨4, 8, true⟩] }

/-- A request for all outputs of a run from an address on. -/
def allOutputs (start : Nat) (trace : String) : SimulateRequest where
  input := "a.bin"
  config := some "c.yaml"
  start := some start
  output := some "o"
  bin := some "b"
  trace := some trace

theorem loadImage_stumbling {p : Program} (h : Program.assemble stumblingSource = .ok p)
    (start : Nat) (trace : String) :
    (allOutputs start trace).loadImage (stumblingFiles p.image) = .ok p.image.clearDefined :=
  (allOutputs start trace).loadImage_of_data?
    (by decide +kernel : SimulateRequest.isHexFile "a.bin" = false) rfl
    (Program.assembled_of_assemble h).zeroElsewhere

/-- From the second instruction on one step is carried out, and behind it there is none. -/
theorem exists_fault_stumbling {m : Image} (sync : m.word (.ofNat 17 4) = Op.sync.encode)
    (data : m.word (.ofNat 17 8) = 0xffffffff) (trace : String) :
    ∃ t f, ((allOutputs 4 trace).session m).run {} 4 = (t, .error f) ∧
      t.trace = some (Trace.push {} ⟨.sync, .cycles 8⟩) := by
  let s := (allOutputs 4 trace).session m
  have fetch : (s.jump 4).machine.fetch = .ok .sync := by
    have decode : Op.decode (m.word (.ofNat 17 4)) = .ok .sync := by
      rw [sync]
      decide +kernel
    exact Machine.fetch_eq_ok_iff.2 ⟨(by decide : pcFault? 4 = none), decode⟩
  have step : (s.jump 4).addStep.step {} = (_, .ok .next) :=
    (Session.step_of_fetch_eq_ok (s := (s.jump 4).addStep) fetch).trans rfl
  have passes : Session.Passes {} (s.jump 4) [.sync] _ := .cons ⟨fetch, step⟩ (.nil _)
  have reaches : Session.Reaches {} 4 s [.sync] _ :=
    ⟨by decide, (by decide : 1 ≤ ({} : Limits).maxSteps), passes⟩
  have stops : Machine.fetch { s.machine with pc := 8 } = .error (.decode (.unknownOpcode 63)) := by
    have decode : Op.decode (m.word (.ofNat 17 8)) = .error (.unknownOpcode 63) := by
      rw [data]
      decide +kernel
    exact Machine.fetch_eq_error_of_decode (by decide : pcFault? 8 = none) decode
  have short : 1 < ({} : Limits).maxSteps := by decide
  exact ⟨_, _, reaches.run_eq_of_fetch short stops, rfl⟩

/-- What comes of the request for the image. -/
def stumble (target : String → Target) (start : Nat) (trace : String) (m : Image) : Outcome :=
  ((allOutputs start trace).plan (fun _ => some withRegion) (stumblingFiles m)).outcome target

theorem files_of_commands_stumblingSource :
    ∃ p, Program.assemble stumblingSource = .ok p ∧
      FailsBut id (fun _ => none)
        ((AssembleRequest.plan {} (stumblingFiles p.image)).outcome fun _ => {}) none ∧
      (∃ t f, ((allOutputs 4 "t").session p.image.clearDefined).run {} 4 = (t, .error f) ∧
        FailsBut id (fun _ => none) (stumble (fun _ => {}) 4 "t" p.image) (some "t") ∧
        (allOutputs 4 "t").ShowsFault [⟨4, 8, true⟩] t f
          (stumble (fun _ => {}) 4 "t" p.image).stdout) ∧
      ∃ t, ((allOutputs 0 "t").session p.image.clearDefined).run {} 0 = (t, .ok ()) ∧
        (stumble (fun _ => {}) 0 "t" p.image).status = 0 ∧
        filesAfter id (fun _ => none) (stumble (fun _ => {}) 0 "t" p.image) "o" =
          some (t.machine.mem.toHex .bytes).toUTF8 := by
  obtain ⟨p, hp, ret, sync, data⟩ := exists_stumbling
  obtain ⟨assembler, simulator⟩ := files_of_commands (id : String → String) (fun _ => none)
    (fun _ => {}) (fun _ => some withRegion) (stumblingFiles p.image)
  refine ⟨p, hp, ?unassembled, ?fault, ?done⟩
  case unassembled =>
    refine assembler _ (.inr ⟨_, _, ?_, Program.assemble_danglingSource, rfl⟩)
    rw [AssembleRequest.source]
    dsimp only [stumblingFiles]
    rw [fromUTF8?_toUTF8]
  case fault =>
    obtain ⟨t, f, run, -⟩ := exists_fault_stumbling (m := p.image.clearDefined) sync data "t"
    obtain ⟨-, ran⟩ := simulator (allOutputs 4 "t")
    obtain ⟨-, faults, -⟩ := ran _ _ t _ rfl (loadImage_stumbling hp 4 "t") run
    obtain ⟨fails, shown, -⟩ := faults f rfl
    exact ⟨t, f, run, fails, shown fun _ _ => rfl⟩
  case done =>
    have fetch : Machine.fetch { mem := p.image.clearDefined } = .ok .ret := by
      have decode : Op.decode (p.image.word (.ofNat 17 0)) = .ok .ret := by
        rw [ret]
        decide +kernel
      exact Machine.fetch_eq_ok_iff.2 ⟨rfl, decode⟩
    have unbounded : ((allOutputs 0 "t").session p.image.clearDefined).TraceUnbounded :=
      fun _ ht => Option.some.inj ht ▸ rfl
    have short : 0 < ({} : Limits).maxSteps := by decide
    obtain ⟨t, run, -⟩ :=
      Session.exists_run_of_line {} unbounded (by decide) (.nil _) fetch rfl short
    obtain ⟨-, ran⟩ := simulator (allOutputs 0 "t")
    obtain ⟨-, -, done⟩ := ran _ _ t _ rfl (loadImage_stumbling hp 0 "t") run
    have distinct : (((allOutputs 0 "t").files t).map fun w => id w.1) = ["t", "o", "b"] := rfl
    obtain ⟨status, hex, -⟩ := done rfl (fun _ _ => rfl) (by rw [distinct]; decide)
    exact ⟨t, run, status, hex "o" rfl⟩

/-- A file on a full device, which can be made but not filled. -/
def fullDevice (path : String) : Target := if path = "/dev/full" then ⟨true, some 0⟩ else {}

/-- The trace of the run does not fit into its file, and the state is not shown. -/
theorem not_showsFault_fullDevice :
    ∃ p t f, Program.assemble stumblingSource = .ok p ∧
      (allOutputs 4 "/dev/full").loadConfig (fun _ => some withRegion) (stumblingFiles p.image) =
        .ok withRegion ∧
      (allOutputs 4 "/dev/full").loadImage (stumblingFiles p.image) = .ok p.image.clearDefined ∧
      ((allOutputs 4 "/dev/full").session p.image.clearDefined).run {} 4 = (t, .error f) ∧
      ¬ (allOutputs 4 "/dev/full").ShowsFault withRegion.dump t f
        (stumble fullDevice 4 "/dev/full" p.image).stdout := by
  obtain ⟨p, hp, -, sync, data⟩ := exists_stumbling
  obtain ⟨t, f, run, trace⟩ :=
    exists_fault_stumbling (m := p.image.clearDefined) sync data "/dev/full"
  have image := loadImage_stumbling hp 4 "/dev/full"
  refine ⟨p, t, f, hp, rfl, image, run, ?_⟩
  have refused : (fullDevice "/dev/full").takes (SimulateRequest.traceData t) = false := by
    rw [SimulateRequest.traceData, trace]
    decide +kernel
  have stdout := (allOutputs 4 "/dev/full").stdout_planRun_of_refused fullDevice
    (c := (allOutputs 4 "/dev/full").configure withRegion) rfl run refused
  rw [stumble, (allOutputs 4 "/dev/full").plan_of_ok rfl image, stdout]
  exact (allOutputs 4 "/dev/full").not_showsFault _ t f _

end CommandLine

end Macc
