import Mathlib.Data.Finset.Card
import Macc.Assembly.Error
import Macc.Proofs.Assembly.Appearance
import Macc.Proofs.Assembly.ErrorLines

/-!
# Operations on a symbol table

A table that starts empty is the record of the operations made on it.  It has one symbol for each
name used, in order of first appearance, with the first definition and all references of the name
(`SymbolTable.Records`).  One operation keeps this up (`Records.operate`), so it holds after any
sequence of them (`records_operateAll`).
-/

namespace Macc

namespace SymbolTable

/-! ### Operations -/

/-- What a symbol table is told about a name. -/
inductive Operation
  | define (name : String) (d : Definition)
  | refer (name : String) (r : Reference)

namespace Operation

def name : Operation → String
  | define name _ | refer name _ => name

/-- The definition that an operation offers for a name. -/
def definitionOf? (name : String) : Operation → Option Definition
  | define x d => if x = name then some d else none
  | refer _ _ => none

/-- The reference to a name that an operation makes. -/
def referenceTo? (name : String) : Operation → Option Reference
  | define _ _ => none
  | refer x r => if x = name then some r else none

/-- The definition that comes first. -/
def firstDefinition? (name : String) (ops : List Operation) : Option Definition :=
  ops.findSome? (definitionOf? name)

/-- The references in order, those in front of the definition and those behind it. -/
def references (name : String) (ops : List Operation) : List Reference :=
  ops.filterMap (referenceTo? name)

/-- What operations say of a name. -/
def symbol (ops : List Operation) (name : String) : Symbol :=
  ⟨name, firstDefinition? name ops, (references name ops).toArray⟩

theorem firstDefinition?_append (name : String) (ops more : List Operation) :
    firstDefinition? name (ops ++ more) =
      (firstDefinition? name ops).or (firstDefinition? name more) := List.findSome?_append

theorem references_append (name : String) (ops more : List Operation) :
    references name (ops ++ more) = references name ops ++ references name more :=
  List.filterMap_append

theorem mem_map_name_of_firstDefinition? {name : String} {ops : List Operation} {d : Definition}
    (h : firstDefinition? name ops = some d) : name ∈ ops.map Operation.name := by
  obtain ⟨op, hop, offers⟩ := List.exists_of_findSome?_eq_some h
  refine List.mem_map.2 ⟨op, hop, ?_⟩
  cases op with
  | define x _ => exact (Option.ite_none_right_eq_some.1 offers).1
  | refer => cases offers

end Operation

/-- Carry out an operation.  A second definition of a name is refused. -/
def operate (t : SymbolTable) : Operation → SymbolTable × Except AssemblyError Unit
  | .define name d =>
    match t.define? name d with
    | (t', .ok ()) => (t', .ok ())
    | (t', .error previous) => (t', .error (.redefined name previous.line))
  | .refer name r => (t.addReference name r, .ok ())

/-- Carry out operations one after another, whether some of them are refused or not. -/
def operateAll (t : SymbolTable) (ops : List Operation) : SymbolTable :=
  ops.foldl (fun t op => (t.operate op).1) t

/-- A name is given a definition, unless it has one. -/
theorem operate_define (t : SymbolTable) (name : String) (d : Definition) :
    t.operate (.define name d) =
      match t.definition? name with
      | none => (t.define name d, .ok ())
      | some first => (t, .error (.redefined name first.line)) := by
  rw [operate, define?_eq]
  cases t.definition? name <;> rfl

/-! ### Look-up -/

theorem definition?_define (t : SymbolTable) (name : String) (d : Definition) (x : String) :
    (t.define name d).definition? x = if x = name then some d else t.definition? x := by
  have found : (t.define name d).get? x = _ :=
    find?_alter (f := fun s => { s with definition := some d }) (fun _ => rfl) x t.symbols
  rw [definition?, found, definition?, get?]
  split <;> rfl

theorem definition?_addReference (t : SymbolTable) (name : String) (r : Reference) (x : String) :
    (t.addReference name r).definition? x = t.definition? x := by
  have found : (t.addReference name r).get? x = _ :=
    find?_alter (f := fun s => { s with references := s.references.push r }) (fun _ => rfl) x
      t.symbols
  rw [definition?, found, ← get?, definition?]
  by_cases hx : x = name
  · rw [if_pos hx]
    cases t.get? x <;> rfl
  · rw [if_neg hx]

/-- A symbol of a table is made up of what looking up its name gives. -/
theorem symbols_eq_map {t : SymbolTable} (h : t.names.Nodup) :
    t.symbols = t.names.map fun name =>
      ⟨name, t.definition? name, (t.referencesTo name).toArray⟩ := by
  rw [names, List.map_map]
  refine (List.map_id _).symm.trans (List.map_congr_left fun s hs => ?_)
  have found := get?_of_mem h hs
  simp only [Function.comp_apply, definition?, referencesTo, found, Option.bind_some]
  rfl

/-! ### What a table records -/

theorem nodup_eraseDups (xs : List String) : xs.eraseDups.Nodup := by
  induction xs using List.reverseRecOn with
  | nil => exact .nil
  | append_singleton xs x ih =>
    rw [eraseDups_concat]
    split
    · exact ih
    next new =>
      refine List.nodup_append.2 ⟨ih, List.pairwise_singleton _ _, fun y hy z hz => ?_⟩
      rintro rfl
      exact new (List.mem_singleton.1 hz ▸ hy)

/-- The table says what the operations say. -/
structure Records (t : SymbolTable) (ops : List Operation) : Prop where
  names : t.names = (ops.map Operation.name).eraseDups
  definition? : ∀ name, t.definition? name = Operation.firstDefinition? name ops
  referencesTo : ∀ name, t.referencesTo name = Operation.references name ops

namespace Records

variable {t : SymbolTable} {ops : List Operation}

theorem symbols (h : t.Records ops) :
    t.symbols = (ops.map Operation.name).eraseDups.map (Operation.symbol ops) := by
  have nodup : t.names.Nodup := h.names ▸ nodup_eraseDups _
  rw [symbols_eq_map nodup, h.names]
  refine List.map_congr_left fun name _ => ?_
  rw [h.definition?, h.referencesTo]
  rfl

theorem size (h : t.Records ops) : t.size = (ops.map Operation.name).toFinset.card := by
  have same : (ops.map Operation.name).eraseDups.toFinset = (ops.map Operation.name).toFinset := by
    ext name
    rw [List.mem_toFinset, List.mem_eraseDups, List.mem_toFinset]
  rw [SymbolTable.size, h.symbols, List.length_map, ← same,
    List.toFinset_card_of_nodup (nodup_eraseDups _)]

/-- One more operation. -/
theorem operate (h : t.Records ops) (op : Operation) : (t.operate op).1.Records (ops ++ [op]) := by
  cases op with
  | refer name r =>
    constructor
    case names =>
      rw [List.map_append]
      exact names_addReference h.names name r
    case definition? =>
      intro x
      rw [SymbolTable.operate, definition?_addReference, h.definition?,
        Operation.firstDefinition?_append]
      exact (Option.or_none).symm
    case referencesTo =>
      intro x
      rw [SymbolTable.operate, referencesTo_addReference, h.referencesTo,
        Operation.references_append]
      by_cases hx : name = x <;> simp [Operation.references, Operation.referenceTo?, hx]
  | define name d =>
    have references (x : String) :
        Operation.references x (ops ++ [.define name d]) = t.referencesTo x := by
      rw [h.referencesTo, Operation.references_append]
      exact List.append_nil _
    have definition? (x : String) : Operation.firstDefinition? x (ops ++ [.define name d]) =
        (t.definition? x).or (if name = x then some d else none) := by
      rw [h.definition?, Operation.firstDefinition?_append]
      by_cases hx : name = x <;>
        simp [Operation.firstDefinition?, Operation.definitionOf?, hx]
    rw [operate_define]
    cases hd : t.definition? name with
    | none =>
      constructor
      case names =>
        rw [List.map_append]
        exact names_define h.names name d
      case definition? =>
        intro x
        rw [definition?_define, definition?]
        by_cases hx : x = name
        · rw [hx, if_pos rfl, hd, if_pos rfl, Option.none_or]
        · rw [if_neg hx, if_neg (Ne.symm hx), Option.or_none]
      case referencesTo =>
        intro x
        rw [referencesTo_define, references]
    | some first =>
      -- the name has appeared, at the latest in its first definition
      have known : name ∈ (ops.map Operation.name).eraseDups := by
        rw [h.definition?] at hd
        exact List.mem_eraseDups.2 (Operation.mem_map_name_of_firstDefinition? hd)
      constructor
      case names =>
        rw [List.map_append, List.map_singleton, Operation.name, eraseDups_concat, if_pos known,
          h.names]
      case definition? =>
        intro x
        rw [definition?]
        by_cases hx : name = x
        · rw [← hx, hd, Option.some_or]
        · rw [if_neg hx, Option.or_none]
      case referencesTo =>
        intro x
        rw [references]

theorem operateAll (h : t.Records ops) (more : List Operation) :
    (t.operateAll more).Records (ops ++ more) := by
  induction more generalizing t ops with
  | nil => rwa [List.append_nil]
  | cons op more ih =>
    rw [List.append_cons]
    exact ih (h.operate op)

end Records

theorem records_empty : Records {} [] := ⟨rfl, fun _ => rfl, fun _ => rfl⟩

theorem records_operateAll (ops : List Operation) : (operateAll {} ops).Records ops :=
  records_empty.operateAll ops

/-! ### The law -/

/-- After any operations on an empty table, its symbols are the names used, each once and in order
of first appearance, with the first definition and all references in order.  A definition stays as
it is, and a second one is refused with the line of the first and leaves the table as it is. -/
theorem operateAll_law (ops : List Operation) :
    let t := operateAll {} ops
    t.symbols = (ops.map Operation.name).eraseDups.map (Operation.symbol ops) ∧
      t.size = (ops.map Operation.name).toFinset.card ∧
      ∀ name,
        t.definition? name = Operation.firstDefinition? name ops ∧
        t.value? name = (Operation.firstDefinition? name ops).map Definition.position ∧
        (∀ first, Operation.firstDefinition? name ops = some first →
          (∀ more, (t.operateAll more).definition? name = some first) ∧
          ∀ d, t.operate (.define name d) = (t, .error (.redefined name first.line))) ∧
        (Operation.firstDefinition? name ops = none →
          ∀ d, t.operate (.define name d) = (t.define name d, .ok ())) := by
  intro t
  have records : t.Records ops := records_operateAll ops
  refine ⟨records.symbols, records.size, fun name => ⟨records.definition? name, ?_, ?_, ?_⟩⟩
  · rw [value?, records.definition?]
  · intro first hf
    refine ⟨fun more => ?_, fun d => ?_⟩
    · rw [(records.operateAll more).definition?, Operation.firstDefinition?_append, hf,
        Option.some_or]
    · rw [operate_define, records.definition?, hf]
  · intro hf d
    rw [operate_define, records.definition?, hf]

/-- A name that is referred to, defined and referred to again, and one that is defined twice. -/
def interleavedOperations : List Operation :=
  [.refer "data" ⟨0, .maddr, 2, 1, 1⟩, .define "loop" ⟨0x40, 3⟩, .define "loop" ⟨0x80, 9⟩,
    .define "data" ⟨0x100, 10⟩, .refer "data" ⟨1, .caddr, 1, 4, 12⟩]

theorem operateAll_law_interleavedOperations :
    let t := operateAll {} interleavedOperations
    t.symbols =
        [⟨"data", some ⟨0x100, 10⟩, #[⟨0, .maddr, 2, 1, 1⟩, ⟨1, .caddr, 1, 4, 12⟩]⟩,
          ⟨"loop", some ⟨0x40, 3⟩, #[]⟩] ∧
      t.operate (.define "loop" ⟨0, 13⟩) = (t, .error (.redefined "loop" 3)) := by
  intro t
  obtain ⟨symbols, -, names⟩ := operateAll_law interleavedOperations
  have first : Operation.firstDefinition? "loop" interleavedOperations = some ⟨0x40, 3⟩ := by
    decide +kernel
  obtain ⟨-, -, defined, -⟩ := names "loop"
  exact ⟨symbols.trans (by decide +kernel), (defined _ first).2 _⟩

end SymbolTable

end Macc
