import Macc.Assembly.SymbolTable

/-!
# Names of a symbol table

`SymbolTable.names` are the names in order of first appearance.  Where no name appears twice, a
symbol of the table is the one that its name finds (`get?_of_mem`), and changes of the table keep it
that way (`nodup_alter`).  A refused definition changes nothing (`define?_eq`).  `Below` bounds the
instructions that references belong to.
-/

namespace Macc

namespace SymbolTable

/-! ### Look-up -/

/-- The names of a table. -/
def names (t : SymbolTable) : List String := t.symbols.map Symbol.name

/-- The values are those of the table, where it has any. -/
def Agrees (t : SymbolTable) (values : String → Int64) : Prop :=
  ∀ name v, t.value? name = some v → values name = v

theorem agrees_value? (t : SymbolTable) : t.Agrees fun name => (t.value? name).getD 0 := by
  intro name v h
  simp only [h, Option.getD_some]

theorem get?_of_mem {t : SymbolTable} (h : t.names.Nodup) {s : Symbol}
    (hs : s ∈ t.symbols) : t.get? s.name = some s := by
  obtain ⟨symbols⟩ := t
  unfold SymbolTable.names at h
  unfold SymbolTable.get?
  dsimp only at h hs ⊢
  induction symbols with
  | nil => cases hs
  | cons s' symbols ih =>
    rw [List.map_cons, List.nodup_cons] at h
    rcases List.mem_cons.1 hs with rfl | hs
    · rw [List.find?_cons_of_pos (by simp)]
    · have : s'.name ≠ s.name := fun e => h.1 (e ▸ List.mem_map_of_mem hs)
      rw [List.find?_cons_of_neg (by simpa using this)]
      exact ih h.2 hs

theorem value?_of_mem {t : SymbolTable} (h : t.names.Nodup) {s : Symbol}
    (hs : s ∈ t.symbols) {d : Definition} (hd : s.definition = some d) :
    t.value? s.name = some d.position := by
  simp only [value?, definition?, t.get?_of_mem h hs, Option.bind_some, hd, Option.map_some]

/-! ### Altered tables -/

variable {name : String} {f : Symbol → Symbol}

theorem map_name_alter (hf : ∀ s, (f s).name = s.name) (symbols : List Symbol) :
    (alter name f symbols).map Symbol.name =
      if name ∈ symbols.map Symbol.name then symbols.map Symbol.name
      else symbols.map Symbol.name ++ [name] := by
  induction symbols with
  | nil => simp [alter, hf]
  | cons s symbols ih =>
    rw [alter]
    by_cases hs : s.name = name
    · rw [if_pos hs, List.map_cons, hf, List.map_cons, if_pos (by rw [hs]; exact .head _)]
    · rw [if_neg hs, List.map_cons, ih, List.map_cons]
      by_cases hm : name ∈ symbols.map Symbol.name
      · rw [if_pos hm, if_pos (.tail _ hm)]
      · have : name ∉ s.name :: symbols.map Symbol.name := by
          rw [List.mem_cons, not_or]
          exact ⟨Ne.symm hs, hm⟩
        rw [if_neg hm, if_neg this, List.cons_append]

theorem nodup_alter (hf : ∀ s, (f s).name = s.name) {symbols : List Symbol}
    (h : (symbols.map Symbol.name).Nodup) : ((alter name f symbols).map Symbol.name).Nodup := by
  rw [map_name_alter hf]
  split
  · exact h
  next hm =>
    rw [List.nodup_append]
    refine ⟨h, List.pairwise_singleton _ _, fun a ha b hb => ?_⟩
    rw [List.mem_singleton] at hb
    intro e
    exact hm (hb ▸ e ▸ ha)

theorem mem_names_alter (hf : ∀ s, (f s).name = s.name) (x : String) (symbols : List Symbol) :
    x ∈ (alter name f symbols).map Symbol.name ↔ x = name ∨ x ∈ symbols.map Symbol.name := by
  rw [map_name_alter hf]
  split
  next hm =>
    constructor
    · exact .inr
    · rintro (rfl | hx)
      · exact hm
      · exact hx
  · rw [List.mem_append, List.mem_singleton, or_comm]

theorem nodup_define {t : SymbolTable} (h : t.names.Nodup) (name : String) (d : Definition) :
    (t.define name d).names.Nodup :=
  nodup_alter (f := fun s => { s with definition := some d }) (fun _ => rfl) h

theorem nodup_addReference {t : SymbolTable} (h : t.names.Nodup) (name : String) (r : Reference) :
    (t.addReference name r).names.Nodup :=
  nodup_alter (f := fun s => { s with references := s.references.push r }) (fun _ => rfl) h

theorem mem_names_define (t : SymbolTable) (name : String) (d : Definition) (x : String) :
    x ∈ (t.define name d).names ↔ x = name ∨ x ∈ t.names :=
  mem_names_alter (f := fun s => { s with definition := some d }) (fun _ => rfl) x t.symbols

theorem mem_names_addReference (t : SymbolTable) (name : String) (r : Reference) (x : String) :
    x ∈ (t.addReference name r).names ↔ x = name ∨ x ∈ t.names :=
  mem_names_alter (f := fun s => { s with references := s.references.push r }) (fun _ => rfl) x
    t.symbols

/-! ### Definitions -/

theorem alter_eq_self {symbols : List Symbol} {s : Symbol}
    (found : symbols.find? (fun s => s.name == name) = some s) (same : f s = s) :
    alter name f symbols = symbols := by
  induction symbols with
  | nil => cases found
  | cons s' symbols ih =>
    rw [alter]
    by_cases hs : s'.name = name
    · rw [List.find?_cons_of_pos (by simpa using hs)] at found
      rw [if_pos hs, Option.some.inj found, same]
    · rw [List.find?_cons_of_neg (by simpa using hs)] at found
      rw [if_neg hs, ih found]

/-- Changes of one symbol, one after the other, are one change. -/
theorem alter_alter {g : Symbol → Symbol} (hg : ∀ s, (g s).name = s.name)
    (symbols : List Symbol) :
    alter name f (alter name g symbols) = alter name (fun s => f (g s)) symbols := by
  induction symbols with
  | nil =>
    show alter name f [g { name }] = [f (g { name })]
    rw [alter, if_pos (hg _)]
  | cons s symbols ih =>
    rw [alter, alter]
    split
    next hs => rw [alter, if_pos ((hg s).trans hs)]
    next hs => rw [alter, if_neg hs, ih]

theorem definition?_enter (t : SymbolTable) (name : String) :
    (t.enter name).definition? name = t.definition? name := by
  rw [definition?, get?, enter, find?_alter (f := id) (fun _ => rfl), if_pos rfl, definition?,
    get?]
  cases t.symbols.find? fun s => s.name == name <;> rfl

/-- A name that has a definition is in the table. -/
theorem enter_of_definition? {t : SymbolTable} {name : String} {d : Definition}
    (h : t.definition? name = some d) : t.enter name = t := by
  obtain ⟨s, found, -⟩ := Option.bind_eq_some_iff.1 h
  rw [enter, alter_eq_self (f := id) found rfl]

theorem define_enter (t : SymbolTable) (name : String) (d : Definition) :
    (t.enter name).define name d = t.define name d := by
  rw [define, enter, alter_alter (g := id) fun _ => rfl]
  rfl

/-- A second definition changes nothing.  The name that comes into the table first is known. -/
theorem define?_eq (t : SymbolTable) (name : String) (d : Definition) :
    t.define? name d =
      match t.definition? name with
      | some previous => (t, .error previous)
      | none => (t.define name d, .ok ()) := by
  unfold define?
  dsimp only
  rw [definition?_enter]
  cases h : t.definition? name with
  | some previous => rw [enter_of_definition? h]
  | none => rw [define_enter]

/-- What holds of a new symbol and survives the change holds of an altered table. -/
theorem forall_mem_alter {P : Symbol → Prop} (hnew : P (f { name })) {symbols : List Symbol}
    (h : ∀ s ∈ symbols, P s) (hf : ∀ s ∈ symbols, P (f s)) :
    ∀ s ∈ alter name f symbols, P s := by
  induction symbols with
  | nil =>
    intro s hs
    rw [alter, List.mem_singleton] at hs
    exact hs ▸ hnew
  | cons s symbols ih =>
    rw [List.forall_mem_cons] at h hf
    rw [alter]
    split
    · exact List.forall_mem_cons.2 ⟨hf.1, h.2⟩
    · exact List.forall_mem_cons.2 ⟨h.1, ih h.2 hf.2⟩

/-! ### References -/

/-- All references belong to the first `n` instructions. -/
def Below (t : SymbolTable) (n : Nat) : Prop :=
  ∀ s ∈ t.symbols, ∀ r ∈ s.references.toList, r.insn < n

namespace Below

variable {t : SymbolTable} {m n : Nat}

theorem mono (h : t.Below m) (hmn : m ≤ n) : t.Below n :=
  fun s hs r hr => Nat.lt_of_lt_of_le (h s hs r hr) hmn

theorem define (h : t.Below n) (name : String) (d : Definition) : (t.define name d).Below n :=
  forall_mem_alter (fun _ hr => nomatch hr) h h

theorem addReference (h : t.Below n) (name : String) {r : Reference} (hr : r.insn < n) :
    (t.addReference name r).Below n := by
  have pushed : ∀ references : Array Reference, (∀ x ∈ references.toList, x.insn < n) →
      ∀ x ∈ (references.push r).toList, x.insn < n := by
    intro references hx x hm
    rw [Array.toList_push, List.mem_append, List.mem_singleton] at hm
    rcases hm with hm | rfl
    · exact hx x hm
    · exact hr
  exact forall_mem_alter (pushed #[] fun x hx => nomatch hx) h
    fun s hs => pushed s.references (h s hs)

end Below

end SymbolTable

end Macc
