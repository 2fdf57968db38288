import Macc.CommandLine.Assemble
import Macc.CommandLine.Simulate
import Macc.Proofs.Assembly.Layout
import Macc.Proofs.Image.FlatImage
import Macc.Proofs.Machine.StraightLine

/-!
# From the assembler to the simulator

An assembled image has aligned words of defined bytes and zeros elsewhere, so it survives both as
sparse hex text and as a trimmed flat image.  The simulator may take either file: it loads the same
image, and then does the same (`interchangeable_of_assemble`).
-/

namespace Macc

/-! ### Assembled images -/

theorem Program.exists_assemble_iff (source : String) :
    (∃ p, Program.assemble source = .ok p) ↔
      let lines := (Text.lines source.toList).zipIdx 1
      (lines.foldlM feedLine {}).toOption.isSome ∧
        (∀ s ∈ (Assembler.feedAll {} lines).symbols.symbols, s.Resolved) ∧
        ∀ i ∈ (Assembler.feedAll {} lines).insns.toList, i.position + 4 ≤ memorySize :=
  Program.exists_ofLines_iff _

namespace Program.Assembled

variable {p : Program}

theorem wordwise (h : p.Assembled) : p.image.Wordwise := by
  obtain ⟨lines, hp⟩ := h
  have layout := layout_of_finish hp
  -- a row at a multiple of 4 covers an aligned word
  have covers (r : Row) (hr : r ∈ p.rows.toList) {x y : Address}
      (hxy : x.toNat / 4 = y.toNat / 4) :
      Image.Covers r.addr x → Image.Covers r.addr y := by
    have := layout.aligned r hr
    rw [Image.Covers, Image.Covers]
    omega
  intro x y hxy
  rw [Bool.eq_iff_iff, layout.isDefined_iff, layout.isDefined_iff]
  constructor
  · rintro ⟨r, hr, hx⟩
    exact ⟨r, hr, covers r hr hxy hx⟩
  · rintro ⟨r, hr, hy⟩
    exact ⟨r, hr, covers r hr hxy.symm hy⟩

theorem zeroElsewhere (h : p.Assembled) : p.image.ZeroElsewhere := by
  obtain ⟨lines, hp⟩ := h
  exact (layout_of_finish hp).byte_eq_zero

end Program.Assembled

namespace CommandLine

/-! ### Files -/

theorem fromUTF8?_toUTF8 (text : String) : String.fromUTF8? text.toUTF8 = some text := by
  rw [String.fromUTF8?, String.toUTF8_eq_toByteArray, dif_pos text.isValidUTF8]
  rfl

theorem toList_loop (data : ByteArray) (i : Nat) (front : List UInt8) :
    ByteArray.toList.loop data i front = front.reverse ++ data.data.toList.drop i := by
  fun_induction ByteArray.toList.loop data i front with
  | case1 i front h ih =>
    have hi : i < data.data.toList.length := by simpa using h
    have next : data.get! i = data.data.toList[i] := getElem!_pos data.data i hi
    rw [ih, List.drop_eq_getElem_cons hi, next, List.reverse_cons, List.append_assoc,
      List.singleton_append]
  | case2 i front h =>
    rw [List.drop_eq_nil_of_le (by simpa using h), List.append_nil]

theorem bytesOfFile_fileOfBytes (bytes : List Byte) : bytesOfFile (fileOfBytes bytes) = bytes := by
  rw [bytesOfFile, ByteArray.toList, toList_loop, fileOfBytes]
  simp [Function.comp_def]

/-- The file of an image as sparse hex text. -/
def hexFile (m : Image) : ByteArray := (m.toHex .words).toUTF8

/-- The file of an image as trimmed flat image. -/
def flatFile (m : Image) : ByteArray := fileOfBytes (m.toFlat true)

/-- The files that the assembler writes, if none fails. -/
theorem AssembleRequest.writes_plan {r : AssembleRequest} {s : Sources} {source : String}
    {p : Program} (hs : r.source s = .ok source) (hp : Program.assemble source = .ok p) :
    ((r.plan s).outcome fun _ => {}).writes =
      (r.output.map fun path => (path, hexFile p.image)).toList ++
        (r.bin.map fun path => (path, flatFile p.image)).toList := by
  rw [plan, hs]
  dsimp only
  rw [hp]
  dsimp only
  rw [outputs]
  cases r.dump <;> cases r.output <;> cases r.bin <;> rfl

/-- One path leads to the sparse hex text of an image, another to the trimmed flat image, and their
names tell which. -/
structure HandedOver (m : Image) (s : Sources) (hexPath flatPath : String) : Prop where
  isHexFile_hexPath : SimulateRequest.isHexFile hexPath
  isHexFile_flatPath : SimulateRequest.isHexFile flatPath = false
  data?_hexPath : s.data? hexPath = some (hexFile m)
  data?_flatPath : s.data? flatPath = some (flatFile m)

/-! ### Loading and running -/

namespace SimulateRequest

/-- The same request for another image. -/
def withInput (r : SimulateRequest) (path : String) : SimulateRequest := { r with input := path }

variable (r : SimulateRequest) {readConfig : ByteArray → Option Config} {s : Sources} {c : Config}
  {m : Image} {t : Session} {path : String}

theorem plan_of_config {f : Failure} (h : r.loadConfig readConfig s = .error f) :
    r.plan readConfig s = .fail [] f := by
  rw [plan, h]

theorem plan_of_ok (config : r.loadConfig readConfig s = .ok c) (image : r.loadImage s = .ok m) :
    r.plan readConfig s = r.planRun (r.configure c) m := by
  rw [plan, config]
  dsimp only
  rw [image]

theorem planRun_of_fault {f : LocatedFault}
    (h : (r.session m).run c.limits c.start = (t, .error f)) :
    r.planRun c m =
      ⟨r.opening ++ r.report c.dump t ++ [.print (errorLine f.message)], 1⟩ := by
  rw [planRun, h]
  rfl

theorem planRun_of_ok (h : (r.session m).run c.limits c.start = (t, .ok ())) :
    r.planRun c m = ⟨r.opening ++ (r.report c.dump t ++ r.outputs t.machine.mem), 0⟩ := by
  rw [planRun, h]

theorem loadImage_of_data? (flat : isHexFile r.input = false)
    (data : s.data? r.input = some (flatFile m)) (zero : m.ZeroElsewhere) :
    r.loadImage s = .ok m.clearDefined := by
  rw [loadImage, if_neg (Bool.eq_false_iff.1 flat), data]
  dsimp only
  rw [flatFile, bytesOfFile_fileOfBytes, Image.loadFlat_toFlat_true zero]
  rfl

theorem loadImage_of_handedOver {hexPath flatPath : String} (h : HandedOver m s hexPath flatPath)
    (wordwise : m.Wordwise) (zero : m.ZeroElsewhere) :
    ∀ path ∈ [hexPath, flatPath], (r.withInput path).loadImage s = .ok m.clearDefined := by
  rw [List.forall_mem_cons, List.forall_mem_singleton]
  constructor
  · have text : s.text? hexPath = some (m.toHex .words) := by
      rw [Sources.text?, h.data?_hexPath, Option.bind_some, hexFile, fromUTF8?_toUTF8]
    rw [loadImage, withInput, if_pos h.isHexFile_hexPath, text]
    dsimp only
    rw [m.ofHex_toHex_words_eq_ok_iff.2 ⟨wordwise, zero⟩]
    rfl
  · exact (r.withInput flatPath).loadImage_of_data? h.isHexFile_flatPath h.data?_flatPath zero

end SimulateRequest

/-- An assembled image survives in either format: as sparse hex text with its mask, as a trimmed
flat image without.  The flat image ends with the word of the last defined byte.  Whatever the
simulator is asked to do, it loads the same image from either file.  What the run of this image
comes to is then reported in the same way, but for the line that names the file. -/
theorem interchangeable_of_assemble {source : String} {p : Program}
    (h : Program.assemble source = .ok p) :
    Image.ofHex (p.image.toHex .words) = .ok p.image ∧
    Image.empty.loadFlat (p.image.toFlat true) = .ok p.image.clearDefined ∧
    (p.image.toFlat true).length % 4 = 0 ∧
    (∀ x, p.image.isDefined x → (p.image.toFlat true)[x.toNat]? = some (p.image.byte x)) ∧
    (p.image.toFlat true = [] ∨ ∃ x, p.image.isDefined x ∧
      (p.image.toFlat true).length = 4 * (x.toNat / 4 + 1)) ∧
    (∀ (r : AssembleRequest) (s : Sources), r.source s = .ok source →
      ((r.plan s).outcome fun _ => {}).writes =
        (r.output.map fun path => (path, hexFile p.image)).toList ++
          (r.bin.map fun path => (path, flatFile p.image)).toList) ∧
    ∀ (s : Sources) (hexPath flatPath : String), HandedOver p.image s hexPath flatPath →
      ∀ (readConfig : ByteArray → Option Config) (r : SimulateRequest),
        (∀ path ∈ [hexPath, flatPath],
          (r.withInput path).loadImage s = .ok p.image.clearDefined) ∧
        (∀ f, r.loadConfig readConfig s = .error f →
          ∀ path ∈ [hexPath, flatPath], (r.withInput path).plan readConfig s = .fail [] f) ∧
        ∀ c t result, r.loadConfig readConfig s = .ok c →
          (r.session p.image.clearDefined).run (r.configure c).limits (r.configure c).start =
            (t, result) →
          ∃ actions status,
            (∀ path ∈ [hexPath, flatPath], (r.withInput path).plan readConfig s =
              ⟨.print (r.withInput path).banner :: actions, status⟩) ∧
            (∀ f, result = .error f → status = 1 ∧
              actions = (r.trace.map .create).toList ++ r.report c.dump t ++
                [.print (errorLine f.message)]) ∧
            (result = .ok () → status = 0 ∧
              actions = (r.trace.map .create).toList ++
                (r.report c.dump t ++ r.outputs t.machine.mem)) := by
  have wordwise := (Program.assembled_of_assemble h).wordwise
  have zero := (Program.assembled_of_assemble h).zeroElsewhere
  refine ⟨?hex, ?flat, ?aligned, ?complete, ?tight, ?assembler, ?simulator⟩
  case hex => exact (Image.ofHex_toHex_words_eq_ok_iff _).2 ⟨wordwise, zero⟩
  case flat => exact Image.loadFlat_toFlat_true zero
  case aligned =>
    rw [Image.length_toFlat_true]
    exact p.image.definedEnd_mod_four
  case complete =>
    intro x hx
    rw [Image.getElem?_toFlat_true, if_pos (Image.lt_definedEnd hx)]
  case tight =>
    rcases p.image.definedEnd_cases with ⟨h0, -⟩ | ⟨x, hx, hend, -⟩
    · exact .inl (List.eq_nil_of_length_eq_zero ((Image.length_toFlat_true _).trans h0))
    · exact .inr ⟨x, hx, (Image.length_toFlat_true _).trans hend⟩
  case assembler => exact fun r s hs => AssembleRequest.writes_plan hs h
  case simulator =>
    intro s hexPath flatPath handedOver readConfig r
    have loaded := r.loadImage_of_handedOver handedOver wordwise zero
    refine ⟨loaded, fun f failed path _ => (r.withInput path).plan_of_config failed, ?_⟩
    intro c t result config run
    -- the session that a run begins with does not depend on the name of the image
    have planned (path : String) (hpath : path ∈ [hexPath, flatPath]) :=
      (r.withInput path).plan_of_ok config (loaded path hpath)
    cases result with
    | error f =>
      refine ⟨(r.trace.map .create).toList ++ r.report c.dump t ++ [.print (errorLine f.message)], 1,
        fun path hpath => ?_, fun _ hf => ?_, nofun⟩
      · exact (planned path hpath).trans ((r.withInput path).planRun_of_fault run)
      · cases hf
        exact ⟨rfl, rfl⟩
    | ok =>
      refine ⟨(r.trace.map .create).toList ++ (r.report c.dump t ++ r.outputs t.machine.mem), 0,
        fun path hpath => ?_, nofun, fun _ => ⟨rfl, rfl⟩⟩
      exact (planned path hpath).trans ((r.withInput path).planRun_of_ok run)

/-- Data and code with a gap between them. -/
def gappedSource : String := ".data 0x10\n1 2 3 4\n.code 0x40\nReturn\n"

/-- One path for the sparse hex text, all others for the trimmed flat image. -/
def bothFiles (m : Image) : Sources :=
  ⟨fun path => some (.file (if path = "a.hex" then hexFile m else flatFile m)), .empty⟩

/-- A request to run the code behind the gap. -/
def behindTheGap : SimulateRequest := { input := "a.hex", start := some 0x40 }

theorem interchangeable_gappedSource :
    ∃ p t, Program.assemble gappedSource = .ok p ∧
      HandedOver p.image (bothFiles p.image) "a.hex" "a.bin" ∧
      (behindTheGap.session p.image.clearDefined).run {} 0x40 = (t, .ok ()) ∧
      ∀ path ∈ ["a.hex", "a.bin"],
        (behindTheGap.withInput path).loadImage (bothFiles p.image) = .ok p.image.clearDefined ∧
        (behindTheGap.withInput path).plan (fun _ => none) (bothFiles p.image) =
          ⟨.print (behindTheGap.withInput path).banner :: behindTheGap.report [] t, 0⟩ := by
  obtain ⟨p, hp⟩ := (Program.exists_assemble_iff gappedSource).2
    ⟨by decide +kernel, by decide +kernel, by decide +kernel⟩
  have handedOver : HandedOver p.image (bothFiles p.image) "a.hex" "a.bin" := by
    constructor
    case isHexFile_hexPath => decide +kernel
    case isHexFile_flatPath => decide +kernel
    case data?_hexPath => exact congrArg some (if_pos rfl)
    case data?_flatPath => exact congrArg some (if_neg (by decide))
  have made := madeOf_of_finish (Program.finish_of_ofLines hp) p.symbols.agrees_value?
  have emitted : ⟨4, 0x40, .insn .ret []⟩ ∈
      Assembler.allEmissions {} ((Text.lines gappedSource.toList).zipIdx 1) := by
    decide +kernel
  have word : p.image.word (.ofNat 17 0x40) = Op.ret.encode := by
    rw [made.word_image emitted]
    show Insn.encode ⟨0x40, .ret, 0, 0, 4⟩ = _
    decide
  have fetch : Machine.fetch { mem := p.image.clearDefined, pc := 0x40 } = .ok .ret := by
    have decode : Op.decode (p.image.clearDefined.word (.ofNat 17 0x40)) = .ok .ret := by
      rw [show p.image.clearDefined.word _ = _ from word]
      decide +kernel
    exact Machine.fetch_eq_ok_iff.2 ⟨(by decide : pcFault? 0x40 = none), decode⟩
  have untraced : (behindTheGap.session p.image.clearDefined).TraceUnbounded := nofun
  have short : 0 < ({} : Limits).maxSteps := by decide
  obtain ⟨t, run, -⟩ :=
    Session.exists_run_of_line {} untraced (by decide) (.nil _) fetch rfl short
  obtain ⟨-, -, -, -, -, -, simulator⟩ := interchangeable_of_assemble hp
  obtain ⟨loaded, -, runs⟩ := simulator _ _ _ handedOver (fun _ => none) behindTheGap
  obtain ⟨_, _, plans, -, done⟩ := runs {} t _ rfl run
  obtain ⟨rfl, rfl⟩ := done rfl
  exact ⟨p, t, hp, handedOver, run, fun path hpath => ⟨loaded path hpath, plans path hpath⟩⟩

end CommandLine

end Macc
