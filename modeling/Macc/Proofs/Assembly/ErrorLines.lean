import Macc.Proofs.Assembly.Checking
import Macc.Proofs.Assembly.SourceLines

/-!
# The lines that errors name

The error of a source text that has no program names one of its lines.  If a line fails, it is the
first such line.  Otherwise the error comes up at the end of the assembly and names the line of an
instruction that is responsible for it (`Program.Blames`).  A line that would move the cursor beyond
64 bits stops the program instead (`Assembler.OverflowsAt`).

At the end only the symbol table is left, so what it says about lines has to be true.  The
references to a name are the uses of the name in the instructions put out, in the same order
(`Run.origins_eq`), and a name without a value has at least one (`Run.accounted`), since it is by
references that such a name comes into the table.
-/

namespace Macc

/-! ### The references to a name -/

/-- Where a reference comes from: its line, its factor and its divisor. -/
def Reference.origin (r : Reference) : Nat × Int64 × Int64 := (r.line, r.factor, r.divisor)

/-- The factors and divisors of a name in some terms. -/
def scalings (name : String) (terms : List (Field × Term)) : List (Int64 × Int64) :=
  terms.filterMap fun
    | (_, .symbol x factor divisor) => if x = name then some (factor, divisor) else none
    | (_, .literal _) => none

theorem mem_scalings_iff {name : String} {terms : List (Field × Term)} {factor divisor : Int64} :
    (factor, divisor) ∈ scalings name terms ↔ ∃ f, (f, .symbol name factor divisor) ∈ terms := by
  unfold scalings
  rw [List.mem_filterMap]
  constructor
  · rintro ⟨⟨f, t⟩, ht, h⟩
    cases t with
    | literal v => cases h
    | symbol x factor' divisor' =>
      simp only [Option.ite_none_right_eq_some, Option.some.injEq, Prod.mk.injEq] at h
      obtain ⟨rfl, rfl, rfl⟩ := h
      exact ⟨f, ht⟩
  · rintro ⟨f, h⟩
    exact ⟨_, h, by simp⟩

/-- The uses of a name in what is put out. -/
def Emission.uses (name : String) (e : Emission) : List (Nat × Int64 × Int64) :=
  match e.content with
  | .insn o operands => (scalings name (o.terms operands)).map (e.line, ·)
  | .data .. => []

theorem Emission.mem_uses_iff {name : String} {e : Emission} {line : Nat}
    {factor divisor : Int64} :
    (line, factor, divisor) ∈ e.uses name ↔ line = e.line ∧ ∃ o operands f,
      e.content = .insn o operands ∧ (f, .symbol name factor divisor) ∈ o.terms operands := by
  obtain ⟨n, addr, content⟩ := e
  cases content with
  | data => simp [uses]
  | insn o operands =>
    simp only [uses, List.mem_map, Prod.mk.injEq, exists_eq_right_right, mem_scalings_iff]
    constructor
    · rintro ⟨⟨f, h⟩, rfl⟩
      exact ⟨rfl, o, operands, f, rfl, h⟩
    · rintro ⟨rfl, o, operands, f, h, ht⟩
      cases h
      exact ⟨⟨f, ht⟩, rfl⟩

theorem Emission.uses_eq_nil_iff (name : String) (e : Emission) :
    e.uses name = [] ↔ name ∉ e.names := by
  obtain ⟨n, addr, content⟩ := e
  cases content with
  | data => simp [uses, names]
  | insn o operands =>
    simp only [uses, names, List.map_eq_nil_iff, scalings, termNames, List.filterMap_eq_nil_iff,
      List.mem_filterMap, not_exists, not_and]
    refine forall₂_congr fun p _ => ?_
    match p with
    | (_, .literal _) => simp
    | (_, .symbol x _ _) => simp

namespace SymbolTable

/-- The references to a name, in order. -/
def referencesTo (t : SymbolTable) (name : String) : List Reference :=
  match t.get? name with
  | some s => s.references.toList
  | none => []

theorem referencesTo_define (t : SymbolTable) (name : String) (d : Definition) (x : String) :
    (t.define name d).referencesTo x = t.referencesTo x := by
  have found : (t.define name d).get? x = _ :=
    find?_alter (f := fun s => { s with definition := some d }) (fun _ => rfl) x t.symbols
  rw [referencesTo, found, ← get?, referencesTo]
  by_cases hx : x = name
  · cases h : t.get? x <;> simp [hx]
  · simp [hx]

theorem referencesTo_addReference (t : SymbolTable) (name : String) (r : Reference) (x : String) :
    (t.addReference name r).referencesTo x =
      t.referencesTo x ++ if name = x then [r] else [] := by
  have found : (t.addReference name r).get? x = _ :=
    find?_alter (f := fun s => { s with references := s.references.push r }) (fun _ => rfl) x
      t.symbols
  rw [referencesTo, found, ← get?, referencesTo]
  by_cases hx : x = name
  · cases h : t.get? x <;> simp [hx]
  · simp [hx, Ne.symm hx]

/-- Where the references to a name come from. -/
def origins (t : SymbolTable) (name : String) : List (Nat × Int64 × Int64) :=
  (t.referencesTo name).map Reference.origin

theorem origins_addTerms (t : SymbolTable) (insn line : Nat) (terms : List (Field × Term))
    (x : String) :
    (t.addTerms insn line terms).origins x =
      t.origins x ++ (scalings x terms).map (line, ·) := by
  induction terms generalizing t with
  | nil => exact (List.append_nil _).symm
  | cons p terms ih =>
    match p with
    | (_, .literal _) => exact ih t
    | (f, .symbol name factor divisor) =>
      refine (ih (t.addReference name ⟨insn, f, factor, divisor, line⟩)).trans ?_
      rw [origins, referencesTo_addReference, List.map_append, List.append_assoc, origins]
      congr 1
      by_cases hx : name = x <;> simp [scalings, hx, Reference.origin]

/-- A name without a value has a reference. -/
def Accounted (t : SymbolTable) : Prop :=
  ∀ s ∈ t.symbols, s.definition = none → s.references ≠ #[]

theorem Accounted.define {t : SymbolTable} (h : t.Accounted) (name : String) (d : Definition) :
    (t.define name d).Accounted :=
  forall_mem_alter (P := fun s => s.definition = none → s.references ≠ #[])
    (fun hd => by cases hd) h (fun _ _ hd => by cases hd)

theorem Accounted.addReference {t : SymbolTable} (h : t.Accounted) (name : String)
    (r : Reference) : (t.addReference name r).Accounted :=
  forall_mem_alter (P := fun s => s.definition = none → s.references ≠ #[])
    (fun _ => Array.push_ne_empty) h (fun _ _ _ => Array.push_ne_empty)

end SymbolTable

/-! ### What a run records -/

namespace Assembler

theorem Change.origins_eq {line : Nat} {a b : Assembler} {es : List Emission}
    (step : Change line a es b) (name : String) :
    b.symbols.origins name = a.symbols.origins name ++ es.flatMap (Emission.uses name) := by
  cases step with
  | define position _ =>
    simp [SymbolTable.origins, SymbolTable.referencesTo_define]
  | enter kind _ => exact (List.append_nil _).symm
  | @insn o operands _ =>
    rw [List.flatMap_singleton]
    exact a.symbols.origins_addTerms a.insns.size line (o.terms operands) name
  | word => exact (List.append_nil _).symm

theorem Run.origins_eq {a b : Assembler} {es : List Emission} (run : Run a es b) (name : String) :
    b.symbols.origins name = a.symbols.origins name ++ es.flatMap (Emission.uses name) := by
  induction run with
  | nil => simp
  | cons step _ ih => rw [ih, step.origins_eq, List.flatMap_append, List.append_assoc]

theorem Change.accounted {line : Nat} {a b : Assembler} {es : List Emission}
    (step : Change line a es b) (h : a.symbols.Accounted) : b.symbols.Accounted := by
  cases step with
  | define position _ => exact h.define _ _
  | enter kind _ => exact h
  | insn _ =>
    exact SymbolTable.addTerms_induction (P := SymbolTable.Accounted)
      (fun _ name r _ ht => ht.addReference name r) _ h
  | word => exact h

theorem Run.accounted {a b : Assembler} {es : List Emission} (run : Run a es b)
    (h : a.symbols.Accounted) : b.symbols.Accounted := by
  induction run with
  | nil => exact h
  | cons step _ ih => exact ih (step.accounted h)

theorem origins_feedAll (lines : List (List Char × Nat)) (name : String) :
    (feedAll {} lines).symbols.origins name =
      (allEmissions {} lines).flatMap (Emission.uses name) :=
  (run_feedAll {} lines).origins_eq name

/-- The first use of a name is in the first line that refers to it. -/
theorem first_use {lines : List (List Char)} {name : String} {line : Nat} {factor divisor : Int64}
    {rest : List (Nat × Int64 × Int64)}
    (h : (allEmissions {} (lines.zipIdx 1)).flatMap (Emission.uses name) =
      (line, factor, divisor) :: rest) :
    ∃ k, line = k + 1 ∧ (∃ e ∈ emissionsAt lines k, name ∈ e.names) ∧
      ∀ j < k, ∀ e ∈ emissionsAt lines j, name ∉ e.names := by
  have first : (line, factor, divisor) ∈
      (allEmissions {} (lines.zipIdx 1)).flatMap (Emission.uses name) := by
    rw [h]
    exact .head _
  obtain ⟨e, he, hu⟩ := List.mem_flatMap.1 first
  obtain ⟨k, hk⟩ := mem_allEmissions_iff.1 he
  obtain ⟨rfl, -⟩ := Emission.mem_uses_iff.1 hu
  have used : name ∈ e.names := by
    refine Decidable.byContradiction fun hn => ?_
    rw [(e.uses_eq_nil_iff name).2 hn] at hu
    cases hu
  refine ⟨k, line_of_mem_emissionsAt hk, ⟨e, hk, used⟩, fun j hj e' he' hn => ?_⟩
  -- a use in an earlier line would come first
  rw [allEmissions_eq lines (j + 1), List.flatMap_append] at h
  cases hfront : (allEmissions {} ((lines.take (j + 1)).zipIdx 1)).flatMap (Emission.uses name) with
  | nil =>
    have hmem := mem_allEmissions_take_iff.2 ⟨j, Nat.lt_succ_self j, he'⟩
    exact (e'.uses_eq_nil_iff name).1 (List.flatMap_eq_nil_iff.1 hfront e' hmem) hn
  | cons u us =>
    rw [hfront, List.cons_append] at h
    obtain rfl := (List.cons.inj h).1
    have front : (e.line, factor, divisor) ∈
        (allEmissions {} ((lines.take (j + 1)).zipIdx 1)).flatMap (Emission.uses name) := by
      rw [hfront]
      exact .head _
    obtain ⟨e'', he'', hu''⟩ := List.mem_flatMap.1 front
    obtain ⟨i, hi, hm⟩ := mem_allEmissions_take_iff.1 he''
    have := line_of_mem_emissionsAt hm
    have := line_of_mem_emissionsAt hk
    have := (Emission.mem_uses_iff.1 hu'').1
    omega

end Assembler

/-! ### Lines that stop the program -/

namespace Assembler

variable {lines : List (List Char)} {k : Nat}

/-- The line stops the program, if it is reached. -/
def OverflowsAt (lines : List (List Char)) (k : Nat) : Prop :=
  ∃ text, lines[k]? = some text ∧ (before lines k).Overflows text

theorem aborts_failure?_iff :
    (∃ e, failure? lines k = some e ∧ e.aborts) ↔ OverflowsAt lines k := by
  unfold OverflowsAt failure?
  cases hl : lines[k]? with
  | none => simp
  | some text =>
    simp only [Option.bind_some, Option.some.injEq, exists_eq_left']
    rw [← aborts_feed_iff _ (k + 1)]
    cases ((before lines k).feed (k + 1) text).2 <;> simp

theorem insn_notMem_quads (o : Opcode) (operands : List (List Char)) (bytes : List Byte) :
    .insn o operands ∉ quads bytes := by
  fun_induction quads bytes with
  | case1 b0 b1 b2 b3 rest ih => simpa using ih
  | case2 => exact List.not_mem_nil

/-- A line that puts out an instruction puts out nothing else, and it does so at every cursor. -/
theorem contents_eq_of_insn {a : Assembler} {text : List Char} {o : Opcode}
    {operands : List (List Char)} (h : .insn o operands ∈ a.contents text) (addr : Nat) :
    ({ a with cursor := addr }).contents text = [.insn o operands] := by
  unfold contents at h ⊢
  dsimp only
  split at h
  next head given hs hc =>
    unfold insnContents at h ⊢
    split at h
    next =>
      split at h
      next arity => rw [if_pos arity, List.mem_singleton.1 h]
      next => cases h
    next => cases h
  next head given hs hc =>
    unfold dataContents at h
    split at h
    next bytes _ =>
      split at h
      next => exact absurd (List.mem_of_mem_take h) (insn_notMem_quads o operands bytes)
      next => cases h
    next => cases h
  next => cases h

theorem content_of_mem_place {e : Emission} {line addr : Nat} {cs : List Content}
    (h : e ∈ place line addr cs) : e.content ∈ cs := by
  induction cs generalizing addr with
  | nil => cases h
  | cons c cs ih =>
    rcases List.mem_cons.1 h with rfl | h
    · exact .head _
    · exact .tail _ (ih h)

/-- Behind an instruction of a line that does not fail there is room for the cursor. -/
theorem room_of_insn {addr : Nat} {o : Opcode} {operands : List (List Char)}
    (fine : failure? lines k = none) (h : ⟨k + 1, addr, .insn o operands⟩ ∈ emissionsAt lines k) :
    addr + 4 < UInt64.size := by
  unfold emissionsAt at h
  split at h
  next text hl =>
    have only := contents_eq_of_insn (content_of_mem_place h)
    have here : (before lines k).contents text = [.insn o operands] :=
      only (before lines k).cursor
    rw [emissions, here, place, place, List.mem_singleton] at h
    obtain rfl : addr = (before lines k).cursor := congrArg Emission.addr h
    -- otherwise the line stops the program
    refine Nat.not_le.1 fun full => ?_
    have stops : OverflowsAt lines k := ⟨text, hl, full, by rw [only]; exact List.cons_ne_nil _ _⟩
    obtain ⟨e, failed, -⟩ := aborts_failure?_iff.2 stops
    rw [fine] at failed
    cases failed
  next => cases h

end Assembler

/-! ### Errors at the end -/

theorem Symbol.relocations_eq_error {s : Symbol} {e : LocatedError}
    (h : s.relocations = .error e) :
    s.definition = none ∧
        e = ⟨(s.references[0]?.map Reference.line).getD 0, .undefined s.name⟩ ∨
      ∃ d, s.definition = some d ∧ ∃ r ∈ s.references.toList,
        exactQuotient? (d.position * r.factor) r.divisor = none ∧
        e = ⟨r.line, .notMultiple s.name (d.position * r.factor) r.divisor⟩ := by
  unfold Symbol.relocations at h
  split at h
  next hd => exact .inl ⟨hd, (Except.error.inj h).symm⟩
  next d hd =>
    obtain ⟨r, hr, he⟩ := exists_error_of_mapM h
    unfold Reference.relocation at he
    dsimp only at he
    split at he
    · cases he
    next hq => exact .inr ⟨d, hd, r, hr, hq, (Except.error.inj he).symm⟩

theorem SymbolTable.relocations_eq_error {t : SymbolTable} {e : LocatedError}
    (h : t.relocations = .error e) : ∃ s ∈ t.symbols, s.relocations = .error e := by
  rw [SymbolTable.relocations] at h
  cases hm : t.symbols.mapM Symbol.relocations with
  | ok rss => rw [hm] at h; cases h
  | error e' =>
    rw [hm] at h
    cases h
    exact exists_error_of_mapM hm

theorem foldlM_writeInsn_eq_error {insns : List Insn} {m : Image} {e : LocatedError}
    (h : insns.foldlM Image.writeInsn m = .error e) :
    ∃ i ∈ insns, memorySize < i.position + 4 ∧
      e = ⟨i.line, Assembler.unwritable i.position⟩ := by
  induction insns generalizing m with
  | nil => cases h
  | cons i insns ih =>
    rw [List.foldlM_cons] at h
    by_cases hf : memorySize < i.position + 4
    · rw [m.writeInsn_of_lt hf] at h
      cases h
      exact ⟨i, .head _, hf, rfl⟩
    · rw [m.writeInsn_of_le (Nat.not_lt.1 hf)] at h
      obtain ⟨j, hj, rest⟩ := ih h
      exact ⟨j, .tail _ hj, rest⟩

namespace Program

open Assembler

/-- The error names the line of an instruction that is responsible for it. -/
inductive Blames (lines : List (List Char)) : LocatedError → Prop
  /-- The name has no value in the end, and the line is the first that refers to it. -/
  | undefined {k : Nat} {name : String}
      (unknown : (before lines lines.length).symbols.value? name = none)
      (refers : ∃ e ∈ emissionsAt lines k, name ∈ e.names)
      (first : ∀ j < k, ∀ e ∈ emissionsAt lines j, name ∉ e.names) :
      Blames lines ⟨k + 1, .undefined name⟩
  /-- The instruction of the line has an operand with this factor and divisor. -/
  | notMultiple {k addr : Nat} {o : Opcode} {operands : List (List Char)} {field : Field}
      {name : String} {position factor divisor : Int64}
      (value : (before lines lines.length).symbols.value? name = some position)
      (insn : ⟨k + 1, addr, .insn o operands⟩ ∈ emissionsAt lines k)
      (term : (field, .symbol name factor divisor) ∈ o.terms operands)
      (inexact : exactQuotient? (position * factor) divisor = none) :
      Blames lines ⟨k + 1, .notMultiple name (position * factor) divisor⟩
  /-- The instruction of the line is placed where it does not fit into the image. -/
  | outOfRange {k addr : Nat} {o : Opcode} {operands : List (List Char)}
      (insn : ⟨k + 1, addr, .insn o operands⟩ ∈ emissionsAt lines k)
      (behind : memorySize < addr + 4) :
      Blames lines ⟨k + 1, .image (.outOfRange addr)⟩

variable {lines : List (List Char)} {e : LocatedError}

theorem Blames.line_le (h : Blames lines e) : 1 ≤ e.line ∧ e.line ≤ lines.length := by
  cases h with
  | undefined _ refers _ =>
    obtain ⟨e, he, -⟩ := refers
    exact ⟨Nat.succ_pos _, lt_length_of_mem_emissionsAt he⟩
  | notMultiple _ insn _ _ => exact ⟨Nat.succ_pos _, lt_length_of_mem_emissionsAt insn⟩
  | outOfRange insn _ => exact ⟨Nat.succ_pos _, lt_length_of_mem_emissionsAt insn⟩

/-- A symbol that does not resolve. -/
theorem blames_of_relocations {s : Symbol}
    (hs : s ∈ (before lines lines.length).symbols.symbols) (h : s.relocations = .error e) :
    Blames lines e := by
  rw [before_length] at hs
  have found := SymbolTable.get?_of_mem (wellFormed_feedAll (lines.zipIdx 1)).nodup hs
  have origins := origins_feedAll (lines.zipIdx 1) s.name
  rw [SymbolTable.origins, SymbolTable.referencesTo, found] at origins
  dsimp only at origins
  rcases s.relocations_eq_error h with ⟨hd, rfl⟩ | ⟨d, hd, r, hr, inexact, rfl⟩
  · have accounted : (feedAll {} (lines.zipIdx 1)).symbols.Accounted :=
      (run_feedAll {} (lines.zipIdx 1)).accounted fun _ hs => nomatch hs
    cases hr : s.references.toList with
    | nil => exact absurd (Array.toList_eq_nil_iff.1 hr) (accounted s hs hd)
    | cons r rest =>
      have line : (s.references[0]?.map Reference.line).getD 0 = r.line := by
        rw [← Array.getElem?_toList, hr]
        rfl
      rw [hr] at origins
      obtain ⟨k, hk, refers, first⟩ := first_use origins.symm
      rw [line, hk]
      refine .undefined ?_ refers first
      rw [before_length, SymbolTable.value?, SymbolTable.definition?, found, Option.bind_some, hd]
      rfl
  · have used : r.origin ∈ (allEmissions {} (lines.zipIdx 1)).flatMap (Emission.uses s.name) :=
      origins ▸ List.mem_map_of_mem hr
    obtain ⟨⟨line, addr, content⟩, he, hu⟩ := List.mem_flatMap.1 used
    obtain ⟨k, hk⟩ := mem_allEmissions_iff.1 he
    obtain ⟨hline, o, operands, f, hcontent, term⟩ := Emission.mem_uses_iff.1 hu
    obtain rfl : content = _ := hcontent
    obtain rfl : line = k + 1 := line_of_mem_emissionsAt hk
    rw [show r.line = k + 1 from hline]
    refine .notMultiple ?_ hk term inexact
    rw [before_length]
    exact SymbolTable.value?_of_mem (wellFormed_feedAll _).nodup hs hd

/-- The error of lines none of which fails. -/
theorem blames_of_finish (fine : ∀ k, failure? lines k = none)
    (h : (before lines lines.length).finish = .error e) : Blames lines e := by
  unfold Assembler.finish at h
  split at h
  next e' hr =>
    obtain rfl := Except.error.inj h
    obtain ⟨s, hs, he⟩ := SymbolTable.relocations_eq_error hr
    exact blames_of_relocations hs he
  next rs hr =>
    dsimp only at h
    cases hw : (relocate (before lines lines.length).insns rs).toList.foldlM Image.writeInsn
        (before lines lines.length).image with
    | ok image => rw [hw] at h; cases h
    | error e' =>
      rw [hw] at h
      cases h
      obtain ⟨i, hi, behind, rfl⟩ := foldlM_writeInsn_eq_error hw
      -- all symbols resolve, so the instructions are the evaluated ones
      rw [before_length] at hr hi
      have resolved := SymbolTable.resolved_of_relocations hr
      rw [SymbolTable.relocations_eq_ok resolved (wellFormed_feedAll _).nodup
        (SymbolTable.agrees_value? _)] at hr
      cases hr
      rw [toList_relocate, settled_feedAll] at hi
      obtain ⟨⟨line, addr, content⟩, he, hv⟩ := List.mem_filterMap.1 hi
      obtain ⟨k, hk⟩ := mem_allEmissions_iff.1 he
      obtain rfl : line = k + 1 := line_of_mem_emissionsAt hk
      cases content with
      | data => cases hv
      | insn o operands =>
        obtain rfl := Option.some.inj hv
        dsimp only
        rw [unwritable, if_neg (Nat.not_le.2 (room_of_insn (fine k) hk))]
        exact .outOfRange hk behind

/-- Lines have no program because of the first that fails, or else because of an instruction. -/
theorem error_of_ofLines (h : ofLines lines = .error e) :
    (∃ k < lines.length, e.line = k + 1 ∧ failure? lines k = some e.cause ∧
        ∀ j < k, failure? lines j = none) ∨
      (∀ k, failure? lines k = none) ∧ Blames lines e := by
  unfold ofLines at h
  rcases foldlM_feedLine lines lines.length with ⟨run, fine⟩ | ⟨k, hk, cause, failed, first, run⟩
  · rw [List.take_length] at run
    rw [run] at h
    have fine (k : Nat) : failure? lines k = none := by
      rcases Nat.lt_or_ge k lines.length with hk | hk
      · exact fine k hk
      · exact failure?_of_length_le hk
    exact .inr ⟨fine, blames_of_finish fine h⟩
  · rw [List.take_length] at run
    rw [run] at h
    cases h
    exact .inl ⟨k, hk, rfl, failed, first⟩

theorem Blames.aborts (h : Blames lines e) : e.cause.aborts = false := by
  cases h <;> rfl

/-- Every assembly error names a line of the source text: the first that fails, or if none does, the
line of an instruction that is responsible.  The program stops without an error exactly if the named
line puts out a word and there is no room for the cursor behind it. -/
theorem assemble_error_line {source : String} (h : assemble source = .error e) :
    let lines := Text.lines source.toList
    1 ≤ e.line ∧ e.line ≤ lines.length ∧
      ((∃ k, failure? lines k ≠ none) →
        failure? lines (e.line - 1) = some e.cause ∧ ∀ j < e.line - 1, failure? lines j = none) ∧
      ((∀ k, failure? lines k = none) → Blames lines e) ∧
      (e.cause.aborts ↔ OverflowsAt lines (e.line - 1)) := by
  intro lines
  rcases error_of_ofLines h with ⟨k, hk, line, failed, first⟩ | ⟨fine, blames⟩
  · rw [line, Nat.add_sub_cancel]
    refine ⟨Nat.succ_pos k, hk, fun _ => ⟨failed, first⟩, fun fine => ?_, ?_⟩
    · rw [fine k] at failed
      cases failed
    · rw [← aborts_failure?_iff]
      simp [lines, failed]
  · obtain ⟨pos, le⟩ := blames.line_le
    refine ⟨pos, le, fun ⟨k, hk⟩ => absurd (fine k) hk, fun _ => blames, ?_⟩
    rw [← aborts_failure?_iff, fine]
    simp [blames.aborts]

/-- The second directive seems to move the cursor forward, and its row ends behind the last
address. -/
example :
    (match assemble ".code 0x7ffffffffffffffc\nSync\n.data -4\n1 2 3 4\n" with
      | .ok _ => none
      | .error e => some e) = some ⟨4, .image .overflow⟩ := by decide +kernel

/-- A name that two lines refer to and none defines. -/
def danglingSource : String := ".code\nSetVBP 4\nExecute 0, later\nSetLBP later\n"

theorem assemble_danglingSource : assemble danglingSource = .error ⟨3, .undefined "later"⟩ := by
  have error : (match assemble danglingSource with
      | .ok _ => none
      | .error e => some e) = some ⟨3, .undefined "later"⟩ := by decide +kernel
  split at error
  · cases error
  next e h => rw [h, Option.some.inj error]

theorem assemble_error_line_danglingSource :
    ∃ e, assemble danglingSource = .error e ∧ e.line = 3 ∧
      Blames (Text.lines danglingSource.toList) e := by
  have fine : ∀ k < 4, failure? (Text.lines danglingSource.toList) k = none := by decide +kernel
  obtain ⟨-, -, -, blames, -⟩ := assemble_error_line assemble_danglingSource
  refine ⟨_, assemble_danglingSource, rfl, blames fun k => ?_⟩
  rcases Nat.lt_or_ge k 4 with hk | hk
  · exact fine k hk
  · refine failure?_of_length_le (Nat.le_trans ?_ hk)
    decide +kernel

end Program

end Macc
