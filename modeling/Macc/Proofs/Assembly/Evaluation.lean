import Macc.Proofs.Assembly.Emission
import Macc.Proofs.Assembly.Relocation

/-!
# Instructions evaluated at once

`Emission.evaluate` reads an instruction off its operands in one pass, when all symbols have given
values.  The assembler needs two passes: it adds the literals when it sees the line, and what the
symbols add is known only at the end.

`Run.settled_eq` ties the two together.  In every state the instructions, with what the references
of the table would add under the given values, are the evaluated ones of the lines so far.  The
invariant behind it is `Assembler.WellFormed`: a name appears once in the table, and references
belong to instructions that exist.
-/

namespace Macc

/-! ### Values -/

/-- The value of a term when symbols have given values. -/
def Term.value (values : String → Int64) : Term → Int64
  | .literal v => v
  | .symbol name factor divisor => values name * factor / divisor

/-- The terms of the operands that are added into a field. -/
def Opcode.fieldTerms (o : Opcode) (operands : List (List Char)) (f : Field) : List Term :=
  ((o.format.fields.zip operands).filter (·.1 = f)).flatMap fun (_, text) => Term.ofOperand text

/-- The sum of the values of all terms of the operands that are added into a field. -/
def Opcode.fieldValue (values : String → Int64) (o : Opcode) (operands : List (List Char))
    (f : Field) : Int64 :=
  ((o.fieldTerms operands f).map (Term.value values)).sum

/-- The instruction put out, if it is one, with its operands evaluated. -/
def Emission.evaluate (values : String → Int64) (e : Emission) : Option Insn :=
  match e.content with
  | .insn o operands =>
    some ⟨e.addr, o, o.fieldValue values operands .maddr, o.fieldValue values operands .caddr,
      e.line⟩
  | .data .. => none

def termNames (terms : List (Field × Term)) : List String :=
  terms.filterMap fun
    | (_, .symbol name _ _) => some name
    | (_, .literal _) => none

/-- The names in the operands of an instruction put out. -/
def Emission.names (e : Emission) : List String :=
  match e.content with
  | .insn o operands => termNames (o.terms operands)
  | .data .. => []

/-- The sum of the values of those terms that belong to a field. -/
def termSum (values : String → Int64) (terms : List (Field × Term)) (f : Field) : Int64 :=
  ((terms.filter (·.1 = f)).map fun t => t.2.value values).sum

theorem termSum_nil (values : String → Int64) (f : Field) : termSum values [] f = 0 := rfl

theorem termSum_cons (values : String → Int64) (g : Field) (t : Term)
    (terms : List (Field × Term)) (f : Field) :
    termSum values ((g, t) :: terms) f =
      (if g = f then t.value values else 0) + termSum values terms f := by
  rw [termSum, List.filter_cons]
  by_cases h : g = f
  · rw [if_pos (decide_eq_true h), if_pos h, List.map_cons, List.sum_cons, termSum]
  · rw [if_neg (by simpa using h), if_neg h, Int64.zero_add, termSum]

/-- Terms tagged with their fields sum up to the values of the fields. -/
theorem Opcode.termSum_terms (values : String → Int64) (o : Opcode) (operands : List (List Char))
    (f : Field) : termSum values (o.terms operands) f = o.fieldValue values operands f := by
  unfold Opcode.fieldValue Opcode.fieldTerms Opcode.terms termSum
  congr 1
  induction o.format.fields.zip operands with
  | nil => rfl
  | cons p ps ih =>
    obtain ⟨g, text⟩ := p
    rw [List.flatMap_cons, List.filter_append, List.map_append, ih, List.filter_cons]
    by_cases h : g = f
    · have all : ((Term.ofOperand text).map (g, ·)).filter (·.1 = f) =
          (Term.ofOperand text).map (g, ·) := by
        rw [List.filter_eq_self]
        intro t ht
        obtain ⟨t, -, rfl⟩ := List.mem_map.1 ht
        exact decide_eq_true h
      rw [all, if_pos (decide_eq_true h), List.flatMap_cons, List.map_append, List.map_map]
      rfl
    · have none : ((Term.ofOperand text).map (g, ·)).filter (·.1 = f) = [] := by
        rw [List.filter_eq_nil_iff]
        intro t ht
        obtain ⟨t, -, rfl⟩ := List.mem_map.1 ht
        simpa using h
      rw [none, if_neg (by simpa using h), List.map_nil, List.nil_append]

/-! ### What a table adds -/

namespace SymbolTable

variable (values : String → Int64)

/-- A value adds nothing to what the references add. -/
theorem contributions_define (t : SymbolTable) (name : String) (d : Definition) :
    (t.define name d).contributions values = t.contributions values := by
  obtain ⟨symbols⟩ := t
  unfold define contributions
  dsimp only
  induction symbols with
  | nil => rfl
  | cons s symbols ih =>
    rw [alter]
    split
    · rfl
    · rw [List.flatMap_cons, ih, List.flatMap_cons]

/-- A reference adds its own contribution. -/
theorem totalAmount_addReference (t : SymbolTable) (name : String) (r : Reference) (i : Nat)
    (f : Field) :
    totalAmount ((t.addReference name r).contributions values) i f =
      totalAmount (t.contributions values) i f +
        if r.insn = i ∧ r.field = f then values name * r.factor / r.divisor else 0 := by
  have single : totalAmount [r.contribution (values name)] i f =
      if r.insn = i ∧ r.field = f then values name * r.factor / r.divisor else 0 := by
    rw [totalAmount_cons, totalAmount_nil, Int64.add_zero]
    rfl
  rw [← single]
  -- the reference comes last in its symbol, but other symbols may follow in the table
  obtain ⟨symbols⟩ := t
  unfold addReference contributions
  dsimp only
  induction symbols with
  | nil => exact (Int64.zero_add _).symm
  | cons s symbols ih =>
    rw [alter]
    by_cases hs : s.name = name
    · have pushed : Symbol.contributions values { s with references := s.references.push r } =
          s.contributions values ++ [r.contribution (values name)] := by
        rw [Symbol.contributions, Array.toList_push, List.map_append, Symbol.contributions, hs]
        rfl
      rw [if_pos hs, List.flatMap_cons, pushed, List.flatMap_cons]
      simp only [totalAmount_append]
      ac_rfl
    · rw [if_neg hs, List.flatMap_cons, totalAmount_append, ih, List.flatMap_cons,
        totalAmount_append, Int64.add_assoc]

/-- What holds of a table and survives new references of an instruction holds when the symbols of
its terms are recorded. -/
theorem addTerms_induction {P : SymbolTable → Prop} {insn line : Nat}
    (step : ∀ t name r, r.insn = insn → P t → P (t.addReference name r))
    (terms : List (Field × Term)) {t : SymbolTable} (h : P t) : P (t.addTerms insn line terms) := by
  induction terms generalizing t with
  | nil => exact h
  | cons p terms ih =>
    match p with
    | (_, .literal _) => exact ih h
    | (_, .symbol name _ _) => exact ih (step t name _ rfl h)

theorem mem_names_addTerms (t : SymbolTable) (insn line : Nat) (terms : List (Field × Term))
    (x : String) :
    x ∈ (t.addTerms insn line terms).names ↔ x ∈ termNames terms ∨ x ∈ t.names := by
  induction terms generalizing t with
  | nil =>
    rw [termNames, List.filterMap_nil, List.mem_nil_iff, false_or]
    rfl
  | cons p terms ih =>
    match p with
    | (_, .literal _) => exact ih t
    | (f, .symbol name factor divisor) =>
      refine (ih (t.addReference name ⟨insn, f, factor, divisor, line⟩)).trans ?_
      rw [mem_names_addReference, show termNames ((f, .symbol name factor divisor) :: terms) =
        name :: termNames terms from rfl, List.mem_cons]
      exact or_left_comm.trans or_assoc.symm

/-- The references of an instruction add nothing to others. -/
theorem totalAmount_addTerms_of_ne {insn i : Nat} (h : insn ≠ i) (t : SymbolTable) (line : Nat)
    (terms : List (Field × Term)) (f : Field) :
    totalAmount ((t.addTerms insn line terms).contributions values) i f =
      totalAmount (t.contributions values) i f := by
  refine addTerms_induction (P := fun u => totalAmount (u.contributions values) i f =
    totalAmount (t.contributions values) i f) (fun u name r hr hu => ?_) terms rfl
  rw [totalAmount_addReference, if_neg (fun e => h (hr.symm.trans e.1)), Int64.add_zero, hu]

end SymbolTable

/-- The literals among terms, and what their symbols add through the table, sum up to all terms. -/
theorem field_addLiterals_add (values : String → Int64) (insn : Insn) (t : SymbolTable)
    (i line : Nat) (terms : List (Field × Term)) (f : Field) :
    (insn.addLiterals terms).field f +
        totalAmount ((t.addTerms i line terms).contributions values) i f =
      insn.field f + totalAmount (t.contributions values) i f + termSum values terms f := by
  induction terms generalizing insn t with
  | nil =>
    rw [termSum_nil, Int64.add_zero]
    rfl
  | cons p terms ih =>
    match p with
    | (g, .literal v) =>
      refine (ih (insn.add g v) t).trans ?_
      rw [Insn.field_add, termSum_cons, Term.value]
      ac_rfl
    | (g, .symbol name factor divisor) =>
      refine (ih insn (t.addReference name ⟨i, g, factor, divisor, line⟩)).trans ?_
      rw [SymbolTable.totalAmount_addReference, termSum_cons, Term.value]
      simp only [true_and]
      ac_rfl

namespace Insn

theorem addLiterals_const {α : Type} {g : Insn → α} (hg : ∀ i f v, g (i.add f v) = g i)
    (i : Insn) (terms : List (Field × Term)) : g (i.addLiterals terms) = g i := by
  induction terms generalizing i with
  | nil => rfl
  | cons p terms ih =>
    match p with
    | (f, .literal v) => exact (ih (i.add f v)).trans (hg i f v)
    | (_, .symbol _ _ _) => exact ih i

/-- Literals and amounts that sum up to the terms give the evaluated instruction. -/
theorem settle_addLiterals {values : String → Int64} {addr line : Nat} {o : Opcode}
    {terms : List (Field × Term)} {amount : Field → Int64}
    (h : ∀ f, ((⟨addr, o, 0, 0, line⟩ : Insn).addLiterals terms).field f + amount f =
      termSum values terms f) :
    ((⟨addr, o, 0, 0, line⟩ : Insn).addLiterals terms).settle amount =
      ⟨addr, o, termSum values terms .maddr, termSum values terms .caddr, line⟩ := by
  rw [← settle_zero ⟨addr, o, termSum values terms .maddr, termSum values terms .caddr, line⟩]
  refine settle_congr ?_ ?_ ?_ fun f => ?_
  · exact addLiterals_const position_add _ terms
  · exact addLiterals_const opcode_add _ terms
  · exact addLiterals_const line_add _ terms
  · rw [h, Int64.add_zero]
    cases f <;> rfl

end Insn

/-! ### The invariant of a run -/

namespace Assembler

/-- A name appears once in the table, and references belong to instructions that exist. -/
structure WellFormed (a : Assembler) : Prop where
  nodup : a.symbols.names.Nodup
  below : a.symbols.Below a.insns.size

theorem wellFormed_empty : WellFormed {} := by
  constructor
  · exact List.nodup_nil
  · intro s hs
    cases hs

theorem WellFormed.define {a : Assembler} (h : a.WellFormed) (name : String) (d : Definition) :
    WellFormed { a with symbols := a.symbols.define name d } := by
  constructor
  · exact SymbolTable.nodup_define h.nodup name d
  · exact h.below.define name d

theorem WellFormed.emitInsn {a : Assembler} (h : a.WellFormed) (line : Nat) (o : Opcode)
    (terms : List (Field × Term)) : (a.emitInsn line o terms).WellFormed := by
  constructor
  · refine SymbolTable.addTerms_induction (P := fun t => t.names.Nodup) ?_ terms h.nodup
    intro t name r _ ht
    exact SymbolTable.nodup_addReference ht name r
  · rw [show (a.emitInsn line o terms).insns.size = a.insns.size + 1 from Array.size_push _]
    refine SymbolTable.addTerms_induction (P := fun t => t.Below (a.insns.size + 1)) ?_ terms
      (h.below.mono (Nat.le_succ _))
    intro t name r hr ht
    exact ht.addReference name (by omega)

theorem Change.wellFormed {line : Nat} {a b : Assembler} {es : List Emission}
    (step : Change line a es b) (h : a.WellFormed) : b.WellFormed := by
  cases step with
  | define position _ => exact h.define _ _
  | enter kind _ => exact ⟨h.nodup, h.below⟩
  | insn _ => exact h.emitInsn _ _ _
  | word => exact ⟨h.nodup, h.below⟩

theorem Run.wellFormed {a b : Assembler} {es : List Emission} (run : Run a es b)
    (h : a.WellFormed) : b.WellFormed := by
  induction run with
  | nil => exact h
  | cons step _ ih => exact ih (step.wellFormed h)

/-- A new instruction is evaluated as far as its literals go, and its symbols add the rest. -/
theorem settled_emitInsn {a : Assembler} (h : a.WellFormed) (values : String → Int64) (line : Nat)
    (o : Opcode) (terms : List (Field × Term)) :
    (a.emitInsn line o terms).settled values = a.settled values ++
      [⟨a.cursor, o, termSum values terms .maddr, termSum values terms .caddr, line⟩] := by
  let u := a.symbols.addTerms a.insns.size line terms
  -- the new references belong to the new instruction, so the others stay as they are
  have old : a.insns.toList.mapIdx (fun i insn => insn.settle
      (totalAmount (u.contributions values) i)) = a.settled values := by
    refine List.mapIdx_eq_mapIdx_iff.2 fun i hi => ?_
    have ne : a.insns.size ≠ i := by
      rw [Array.length_toList] at hi
      omega
    have same : totalAmount (u.contributions values) i =
        totalAmount (a.symbols.contributions values) i :=
      funext (a.symbols.totalAmount_addTerms_of_ne values ne line terms)
    rw [same]
  have new : ((⟨a.cursor, o, 0, 0, line⟩ : Insn).addLiterals terms).settle
      (totalAmount (u.contributions values) a.insns.size) =
      ⟨a.cursor, o, termSum values terms .maddr, termSum values terms .caddr, line⟩ := by
    refine Insn.settle_addLiterals fun f => ?_
    -- no reference names the index before its instruction exists
    have none : totalAmount (a.symbols.contributions values) a.insns.size f = 0 := by
      refine totalAmount_eq_zero f fun r hr => ?_
      obtain ⟨s, hs, hm⟩ := List.mem_flatMap.1 hr
      obtain ⟨reference, href, rfl⟩ := List.mem_map.1 hm
      exact Nat.ne_of_lt (h.below s hs reference href)
    have zero : (⟨a.cursor, o, 0, 0, line⟩ : Insn).field f = 0 := by cases f <;> rfl
    rw [field_addLiterals_add, none, zero, Int64.add_zero, Int64.zero_add]
  rw [settled, emitInsn]
  dsimp only
  rw [Array.toList_push, List.mapIdx_concat, Array.length_toList, old, new]

theorem Change.settled_eq {line : Nat} {a b : Assembler} {es : List Emission}
    (step : Change line a es b) (h : a.WellFormed) (values : String → Int64) :
    b.settled values = a.settled values ++ es.filterMap (Emission.evaluate values) := by
  cases step with
  | define position _ =>
    rw [settled, SymbolTable.contributions_define, List.filterMap_nil, List.append_nil, settled]
  | enter kind _ => rw [List.filterMap_nil, List.append_nil, settled, settled]
  | word => exact (List.append_nil _).symm
  | @insn o operands _ =>
    rw [settled_emitInsn h, Opcode.termSum_terms, Opcode.termSum_terms]
    rfl

/-- The instructions of a run are the evaluated ones. -/
theorem Run.settled_eq {a b : Assembler} {es : List Emission} (run : Run a es b)
    (h : a.WellFormed) (values : String → Int64) :
    b.settled values = a.settled values ++ es.filterMap (Emission.evaluate values) := by
  induction run with
  | nil => rw [List.filterMap_nil, List.append_nil]
  | cons step _ ih =>
    rw [ih (step.wellFormed h), step.settled_eq h, List.filterMap_append, List.append_assoc]

/-! ### Names -/

theorem Change.mem_names {line : Nat} {a b : Assembler} {es : List Emission}
    (step : Change line a es b) {x : String}
    (h : x ∈ a.symbols.names ∨ ∃ e ∈ es, x ∈ e.names) : x ∈ b.symbols.names := by
  cases step with
  | @define name position _ =>
    rcases h with h | ⟨e, he, -⟩
    · exact (a.symbols.mem_names_define name _ x).2 (.inr h)
    · cases he
  | enter kind _ =>
    rcases h with h | ⟨e, he, -⟩
    · exact h
    · cases he
  | word =>
    rcases h with h | ⟨e, he, hx⟩
    · exact h
    · rw [List.mem_singleton] at he
      subst he
      cases hx
  | @insn o operands _ =>
    refine (a.symbols.mem_names_addTerms a.insns.size line (o.terms operands) x).2 ?_
    rcases h with h | ⟨e, he, hx⟩
    · exact .inr h
    · rw [List.mem_singleton] at he
      subst he
      exact .inl hx

/-- Names that are put out are recorded, and stay. -/
theorem Run.mem_names {a b : Assembler} {es : List Emission} (run : Run a es b) {x : String}
    (h : x ∈ a.symbols.names ∨ ∃ e ∈ es, x ∈ e.names) : x ∈ b.symbols.names := by
  induction run with
  | nil =>
    rcases h with h | ⟨e, he, -⟩
    · exact h
    · cases he
  | cons step _ ih =>
    rcases h with h | ⟨e, he, hx⟩
    · exact ih (.inl (step.mem_names (.inl h)))
    · rcases List.mem_append.1 he with he | he
      · exact ih (.inl (step.mem_names (.inr ⟨e, he, hx⟩)))
      · exact ih (.inr ⟨e, he, hx⟩)

/-! ### Lines from the beginning -/

variable {lines : List (List Char × Nat)} {p : Program} {values : String → Int64}

theorem wellFormed_feedAll (lines : List (List Char × Nat)) : (feedAll {} lines).WellFormed :=
  (run_feedAll {} lines).wellFormed wellFormed_empty

theorem settled_feedAll (values : String → Int64) (lines : List (List Char × Nat)) :
    (feedAll {} lines).settled values =
      (allEmissions {} lines).filterMap (Emission.evaluate values) :=
  (run_feedAll {} lines).settled_eq wellFormed_empty values

theorem exists_finish_feedAll_iff (lines : List (List Char × Nat)) :
    (∃ p, (feedAll {} lines).finish = .ok p) ↔
      (∀ s ∈ (feedAll {} lines).symbols.symbols, s.Resolved) ∧
        ∀ i ∈ (feedAll {} lines).insns.toList, i.position + 4 ≤ memorySize :=
  exists_finish_iff (wellFormed_feedAll lines).nodup

theorem program_of_finish (h : (feedAll {} lines).finish = .ok p)
    (agrees : p.symbols.Agrees values) :
    p = ⟨(feedAll {} lines).image.setWords
        (((allEmissions {} lines).filterMap (Emission.evaluate values)).map fun i =>
          (i.position, i.encode)),
      (feedAll {} lines).symbols,
      ((allEmissions {} lines).filterMap (Emission.evaluate values)).toArray,
      (feedAll {} lines).rows⟩ := by
  rw [symbols_of_finish h] at agrees
  obtain ⟨resolved, fits⟩ := (exists_finish_feedAll_iff lines).1 ⟨p, h⟩
  have program := finish_eq_ok (wellFormed_feedAll lines).nodup agrees resolved fits
  rw [settled_feedAll] at program
  exact Except.ok.inj (h.symm.trans program)

theorem fits_of_finish (values : String → Int64) (h : (feedAll {} lines).finish = .ok p) :
    ∀ i ∈ (allEmissions {} lines).filterMap (Emission.evaluate values),
      i.position + 4 ≤ memorySize := by
  rw [← settled_feedAll, forall_fits_settled]
  exact ((exists_finish_feedAll_iff lines).1 ⟨p, h⟩).2

/-- Every symbol of a program has a value. -/
theorem exists_value_of_mem_names (h : (feedAll {} lines).finish = .ok p) {name : String}
    (hname : name ∈ p.symbols.names) : ∃ v, p.symbols.value? name = some v := by
  rw [symbols_of_finish h] at hname ⊢
  obtain ⟨s, hs, rfl⟩ := List.mem_map.1 hname
  obtain ⟨d, hd, -⟩ := ((exists_finish_feedAll_iff lines).1 ⟨p, h⟩).1 s hs
  exact ⟨d.position, SymbolTable.value?_of_mem (wellFormed_feedAll lines).nodup hs hd⟩

/-- Every name that lines refer to has a value in their program. -/
theorem exists_value_of_finish (h : (feedAll {} lines).finish = .ok p) {e : Emission}
    (he : e ∈ allEmissions {} lines) {name : String} (hname : name ∈ e.names) :
    ∃ v, p.symbols.value? name = some v := by
  refine exists_value_of_mem_names h ?_
  rw [symbols_of_finish h]
  exact (run_feedAll {} lines).mem_names (.inr ⟨e, he, hname⟩)

/-- Lines assemble exactly if every symbol resolves and every instruction fits into the image, and
then the instructions are those that the lines put out, evaluated with the final values of the
symbols, wherever these are defined. -/
theorem finish_evaluates (lines : List (List Char × Nat)) :
    ((∃ p, (feedAll {} lines).finish = .ok p) ↔
        (∀ s ∈ (feedAll {} lines).symbols.symbols, s.Resolved) ∧
          ∀ i ∈ (feedAll {} lines).insns.toList, i.position + 4 ≤ memorySize) ∧
      ∀ p, (feedAll {} lines).finish = .ok p →
        (∀ e ∈ allEmissions {} lines, ∀ name ∈ e.names, ∃ v, p.symbols.value? name = some v) ∧
          ∀ values, p.symbols.Agrees values →
            p.insns.toList = (allEmissions {} lines).filterMap (Emission.evaluate values) := by
  refine ⟨exists_finish_feedAll_iff lines, fun p hp => ⟨?_, ?_⟩⟩
  · intro e he name hname
    exact exists_value_of_finish hp he hname
  · intro values agrees
    rw [program_of_finish hp agrees]

/-- Lines whose instructions refer to symbols in front of them and behind them, and one that
fails. -/
def referringLines : List (List Char × Nat) :=
  [(".sym slot 5".toList, 1), (".code 0x100".toList, 2), ("SetVBP buf*2+1".toList, 3),
    ("SetLBP 8-buf/4".toList, 4), ("Frob buf".toList, 5), ("Execute slot+slot, 3".toList, 6),
    (".data 0x200".toList, 7), ("buf:".toList, 8), ("0 0 0 0".toList, 9)]

theorem finish_referringLines :
    ∃ p, (feedAll {} referringLines).finish = .ok p ∧ p.insns.toList =
      [⟨0x100, .setVbp, 0x401, 0, 3⟩, ⟨0x104, .setLbp, -0x78, 0, 4⟩,
        ⟨0x108, .execute, 3, 10, 6⟩] := by
  obtain ⟨exists_iff, evaluates⟩ := finish_evaluates referringLines
  obtain ⟨p, hp⟩ := exists_iff.2 ⟨by decide +kernel, by decide +kernel⟩
  have agrees : p.symbols.Agrees fun name =>
      ((feedAll {} referringLines).symbols.value? name).getD 0 := by
    rw [symbols_of_finish hp]
    exact SymbolTable.agrees_value? _
  refine ⟨p, hp, ((evaluates p hp).2 _ agrees).trans ?_⟩
  decide +kernel

end Assembler

/-- Lines assemble if none of them fails, their symbols get values that the references can use, and
their instructions lie inside the image. -/
theorem Program.exists_ofLines_iff (texts : List (List Char)) :
    (∃ p, Program.ofLines texts = .ok p) ↔
      let lines := texts.zipIdx 1
      (lines.foldlM feedLine {}).toOption.isSome ∧
        (∀ s ∈ (Assembler.feedAll {} lines).symbols.symbols, s.Resolved) ∧
        ∀ i ∈ (Assembler.feedAll {} lines).insns.toList, i.position + 4 ≤ memorySize := by
  dsimp only
  rw [← Assembler.exists_finish_feedAll_iff, ofLines]
  cases hf : (texts.zipIdx 1).foldlM feedLine {} with
  | error e => simp [Except.toOption]
  | ok a => simp [Except.toOption, feedAll_of_foldlM_feedLine hf]

end Macc
