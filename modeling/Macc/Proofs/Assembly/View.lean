import Macc.Proofs.Assembly.Checking
import Macc.Proofs.Assembly.Evaluation
import Mathlib.Data.List.Nodup

/-!
# Assemblers apart from line numbers

Line numbers and the order of the symbol table have no part in what is assembled.  A view
(`Assembler.view`) is an assembler without these.  Lines with the same texts take assemblers with
the same view to assemblers with the same view again, or fail in both (`viewAfter_readLines_congr`).
Assemblers with the same view both finish or both fail (`Assembler.exists_finish_congr`), and the
programs they finish with match (`Assembler.matches_of_finish`).  `Program.ofLines_congr` takes this
together.
-/

namespace Macc

/-! ### Symbol tables -/

/-- The reference without its line. -/
def Reference.unlined (r : Reference) : Reference := { r with line := 0 }

/-- A symbol without its name and without lines. -/
structure SymbolView where
  position : Option Int64 := none
  references : List Reference := []

def Symbol.view (s : Symbol) : SymbolView :=
  ⟨s.definition.map Definition.position, s.references.toList.map Reference.unlined⟩

namespace SymbolTable

/-- What is known of a name. -/
def view (t : SymbolTable) (name : String) : Option SymbolView := (t.get? name).map Symbol.view

theorem value?_eq (t : SymbolTable) (name : String) :
    t.value? name = (t.view name).bind SymbolView.position := by
  rw [value?, definition?, view]
  cases t.get? name <;> rfl

theorem definition?_eq_none_iff (t : SymbolTable) (name : String) :
    t.definition? name = none ↔ t.value? name = none :=
  Option.map_eq_none_iff.symm

theorem view_alter {name : String} {f : Symbol → Symbol} {g : SymbolView → SymbolView}
    (hf : ∀ s, (f s).name = s.name) (hg : ∀ s, (f s).view = g s.view) (t : SymbolTable)
    (x : String) :
    (⟨alter name f t.symbols⟩ : SymbolTable).view x =
      if x = name then some (g ((t.view x).getD {})) else t.view x := by
  have found : (⟨alter name f t.symbols⟩ : SymbolTable).get? x = _ := find?_alter hf x t.symbols
  have new : ((t.get? x).getD { name }).view = (t.view x).getD {} := by
    rw [view]
    cases t.get? x <;> rfl
  rw [view, found]
  split
  · rw [Option.map_some, hg, ← new]
    rfl
  · rfl

theorem view_define (t : SymbolTable) (name : String) (d : Definition) (x : String) :
    (t.define name d).view x =
      if x = name then some { (t.view x).getD {} with position := some d.position }
      else t.view x :=
  view_alter (f := fun s => { s with definition := some d })
    (g := fun v => { v with position := some d.position }) (fun _ => rfl) (fun _ => rfl) t x

theorem view_addReference (t : SymbolTable) (name : String) (r : Reference) (x : String) :
    (t.addReference name r).view x =
      if x = name then some { (t.view x).getD {} with
        references := ((t.view x).getD {}).references ++ [r.unlined] }
      else t.view x :=
  view_alter (f := fun s => { s with references := s.references.push r })
    (g := fun v => { v with references := v.references ++ [r.unlined] }) (fun _ => rfl)
    (fun s => by simp only [Symbol.view, Array.toList_push, List.map_append, List.map_singleton])
    t x

/-- A definition gives its name a value, and no other. -/
theorem value?_define (t : SymbolTable) (name : String) (d : Definition) (x : String) :
    (t.define name d).value? x = if x = name then some d.position else t.value? x := by
  rw [value?_eq, view_define, value?_eq]
  split <;> rfl

theorem value?_addReference (t : SymbolTable) (name : String) (r : Reference) (x : String) :
    (t.addReference name r).value? x = t.value? x := by
  rw [value?_eq, view_addReference, value?_eq]
  split
  · cases t.view x <;> rfl
  · rfl

theorem value?_addTerms (t : SymbolTable) (insn line : Nat) (terms : List (Field × Term))
    (x : String) : (t.addTerms insn line terms).value? x = t.value? x :=
  addTerms_induction (P := fun u => u.value? x = t.value? x)
    (fun u name r _ hu => (u.value?_addReference name r x).trans hu) terms rfl

variable {t u : SymbolTable}

theorem view_define_congr (h : t.view = u.view) (name : String) {d d' : Definition}
    (hd : d.position = d'.position) : (t.define name d).view = (u.define name d').view := by
  funext x
  rw [view_define, view_define, h, hd]

theorem view_addReference_congr (h : t.view = u.view) (name : String) {r r' : Reference}
    (hr : r.unlined = r'.unlined) :
    (t.addReference name r).view = (u.addReference name r').view := by
  funext x
  rw [view_addReference, view_addReference, h, hr]

theorem view_addTerms_congr (h : t.view = u.view) (insn m n : Nat) (terms : List (Field × Term)) :
    (t.addTerms insn m terms).view = (u.addTerms insn n terms).view := by
  induction terms generalizing t u with
  | nil => exact h
  | cons p terms ih =>
    match p with
    | (_, .literal _) => exact ih h
    | (_, .symbol name _ _) => exact ih (view_addReference_congr h name rfl)

/-! ### The symbols of a table -/

/-- The names with what is known of them, in order. -/
def entries (t : SymbolTable) : List (String × SymbolView) :=
  t.symbols.map fun s => (s.name, s.view)

theorem mem_entries_iff (h : t.names.Nodup) (name : String) (v : SymbolView) :
    (name, v) ∈ t.entries ↔ t.view name = some v := by
  constructor
  · intro hm
    obtain ⟨s, hs, he⟩ := List.mem_map.1 hm
    cases he
    rw [view, get?_of_mem h hs, Option.map_some]
  · intro hv
    obtain ⟨s, hs, rfl⟩ := Option.map_eq_some_iff.1 hv
    have name : s.name = name := by simpa using List.find?_some hs
    exact List.mem_map.2 ⟨s, List.mem_of_find?_eq_some hs, by rw [name]⟩

theorem nodup_entries (h : t.names.Nodup) : t.entries.Nodup := by
  refine List.Nodup.of_map Prod.fst ?_
  rwa [entries, List.map_map]

/-- Tables with the same view have the same symbols, in some order. -/
theorem perm_entries (ht : t.names.Nodup) (hu : u.names.Nodup) (h : t.view = u.view) :
    t.entries.Perm u.entries :=
  (List.perm_ext_iff_of_nodup (nodup_entries ht) (nodup_entries hu)).2 fun ⟨name, v⟩ => by
    rw [mem_entries_iff ht, mem_entries_iff hu, h]

theorem contributions_eq (values : String → Int64) (t : SymbolTable) :
    t.contributions values =
      t.entries.flatMap fun e => e.2.references.map (·.contribution (values e.1)) := by
  rw [contributions, entries, List.flatMap_map]
  congr 1
  funext s
  rw [Symbol.contributions, Symbol.view, List.map_map]
  rfl

end SymbolTable

theorem totalAmount_perm {rs qs : List Relocation} (h : rs.Perm qs) (i : Nat) :
    totalAmount rs i = totalAmount qs i := by
  funext f
  induction h with
  | nil => rfl
  | cons r _ ih => rw [totalAmount_cons, totalAmount_cons, ih]
  | swap r q rs =>
    simp only [totalAmount_cons]
    ac_rfl
  | trans _ _ ih ih' => exact ih.trans ih'

/-- A symbol with this view is resolved. -/
def SymbolView.Resolved (v : SymbolView) : Prop :=
  ∃ position, v.position = some position ∧ ∀ r ∈ v.references, r.Exact position

theorem Symbol.resolved_iff (s : Symbol) : s.Resolved ↔ s.view.Resolved := by
  unfold Resolved SymbolView.Resolved view
  dsimp only
  constructor
  · rintro ⟨d, hd, exact_⟩
    exact ⟨d.position, by rw [hd]; rfl, List.forall_mem_map.2 exact_⟩
  · rintro ⟨position, hp, exact_⟩
    obtain ⟨d, hd, rfl⟩ := Option.map_eq_some_iff.1 hp
    exact ⟨d, hd, List.forall_mem_map.1 exact_⟩

theorem SymbolTable.forall_resolved_iff (t : SymbolTable) :
    (∀ s ∈ t.symbols, s.Resolved) ↔ ∀ e ∈ t.entries, e.2.Resolved := by
  rw [entries, List.forall_mem_map]
  exact forall₂_congr fun s _ => s.resolved_iff

/-! ### Assemblers -/

/-- The instruction without its line. -/
def Insn.unlined (i : Insn) : Insn := { i with line := 0 }

theorem Insn.unlined_add (i : Insn) (f : Field) (v : Int64) :
    (i.add f v).unlined = i.unlined.add f v := by
  cases f <;> rfl

theorem Insn.unlined_addLiterals (i : Insn) (terms : List (Field × Term)) :
    (i.addLiterals terms).unlined = i.unlined.addLiterals terms := by
  induction terms generalizing i with
  | nil => rfl
  | cons p terms ih =>
    match p with
    | (f, .literal v) => exact (ih (i.add f v)).trans (by rw [i.unlined_add f v]; rfl)
    | (_, .symbol _ _ _) => exact ih i

/-- An assembler without lines and without the order of its symbols. -/
structure AssemblerView where
  current : Option SectionKind
  cursor : Nat
  insns : List Insn
  symbols : String → Option SymbolView
  image : Image

namespace Assembler

def view (a : Assembler) : AssemblerView :=
  ⟨a.current, a.cursor, a.insns.toList.map Insn.unlined, a.symbols.view, a.image⟩

/-- The view after an action that succeeds. -/
def viewOf : Assembler × Except AssemblyError Unit → Option AssemblerView
  | (a, .ok ()) => some a.view
  | (_, .error _) => none

variable {a b : Assembler}

theorem view_eq (current : a.current = b.current) (cursor : a.cursor = b.cursor)
    (insns : a.insns.toList.map Insn.unlined = b.insns.toList.map Insn.unlined)
    (symbols : a.symbols.view = b.symbols.view) (image : a.image = b.image) :
    a.view = b.view := by
  rw [view, view, current, cursor, insns, symbols, image]

/-- To check a statement is to check a definition, or has nothing to do with the symbols. -/
theorem check_cases (a : Assembler) (st : Statement) :
    (∃ name position, ∀ b : Assembler, b.current = a.current → b.cursor = a.cursor →
        b.check st = b.checkDefine name position) ∨
      (∀ b : Assembler, b.current = a.current → b.cursor = a.cursor → b.check st = a.check st) ∧
        ∀ name position, a.check st ≠ .ok (.define name position) := by
  cases st with
  | blank => exact .inr ⟨fun _ _ _ => rfl, fun _ _ h => by cases h⟩
  | symbol operands =>
    rcases check_symbol operands with ⟨e, he⟩ | ⟨name, position, hd⟩
    · refine .inr ⟨fun b _ _ => (he b).trans (he a).symm, fun name position h => ?_⟩
      cases (he a).symm.trans h
    · exact .inl ⟨name, position, fun b _ _ => hd b⟩
  | enter kind operands =>
    refine .inr ⟨fun b _ hcursor => ?_, fun name position h => ?_⟩
    · rw [check, check, checkEnter.eq_def, checkEnter.eq_def, hcursor]
    · cases checked_of_ok h
  | unknownDirective name => exact .inr ⟨fun _ _ _ => rfl, fun _ _ h => by cases h⟩
  | label name => exact .inl ⟨name, _, fun b _ hcursor => by rw [check, hcursor]⟩
  | row head operands =>
    refine .inr ⟨fun b hcurrent _ => by rw [check, check, hcurrent], fun name position h => ?_⟩
    cases checked_of_ok h

/-- A line that defines a symbol does so, unless the symbol has a value. -/
theorem feed_define_cases {text name : List Char} {position : Int64}
    (h : a.check (.ofLine a.current text) = a.checkDefine name position) (line : Nat) :
    a.symbols.value? (String.ofList name) = none ∧
        a.feed line text = ({ a with
          symbols := a.symbols.define (String.ofList name) ⟨position, line⟩ }, .ok ()) ∨
      a.symbols.value? (String.ofList name) ≠ none ∧
        ∃ e, a.feed line text = (a, .error e) := by
  rw [Ne, ← SymbolTable.definition?_eq_none_iff]
  unfold checkDefine at h
  dsimp only at h
  cases hd : a.symbols.definition? (String.ofList name) with
  | none =>
    rw [hd] at h
    exact .inl ⟨rfl, feed_of_ok h⟩
  | some previous =>
    rw [hd] at h
    exact .inr ⟨Option.some_ne_none _, _, feed_of_error h⟩

theorem viewOf_emitWords_congr (h : a.view = b.view) (m n : Nat) (words : List Word) :
    viewOf (emitWords m words a) = viewOf (emitWords n words b) := by
  induction words generalizing a b with
  | nil => exact congrArg some h
  | cons w words ih =>
    obtain ⟨current, cursor, insns, symbols, image⟩ := AssemblerView.mk.inj h
    rw [emitWords, emitWords, cursor]
    split
    · rfl
    · refine ih (view_eq current ?_ insns symbols ?_)
      · exact congrArg (· + 4) cursor
      · change a.image.setWord (.ofNat 17 a.cursor) w = b.image.setWord (.ofNat 17 b.cursor) w
        rw [image, cursor]

theorem viewOf_perform_congr (h : a.view = b.view) (m n : Nat) (action : Action) :
    viewOf (perform m action a) = viewOf (perform n action b) := by
  obtain ⟨current, cursor, insns, symbols, image⟩ := AssemblerView.mk.inj h
  cases action with
  | nothing => exact congrArg some h
  | define name position =>
    exact congrArg some
      (view_eq current cursor insns (SymbolTable.view_define_congr symbols name rfl) image)
  | enter kind addr => exact congrArg some (view_eq rfl rfl insns symbols image)
  | emit o terms =>
    have size : a.insns.size = b.insns.size := by simpa using congrArg List.length insns
    have emitted : (a.emitInsn m o terms).view = (b.emitInsn n o terms).view := by
      refine view_eq current (congrArg (· + 4) cursor) ?_ ?_ image
      · rw [emitInsn, emitInsn, Array.toList_push, Array.toList_push, List.map_append,
          List.map_append, insns, List.map_singleton, List.map_singleton, Insn.unlined_addLiterals,
          Insn.unlined_addLiterals, cursor]
        rfl
      · rw [emitInsn, emitInsn, size]
        exact SymbolTable.view_addTerms_congr symbols _ m n terms
    rw [perform, perform, cursor]
    split
    · exact congrArg some emitted
    · rfl
  | data words => exact viewOf_emitWords_congr h m n words

theorem viewOf_feed_congr (h : a.view = b.view) (m n : Nat) (text : List Char) :
    viewOf (a.feed m text) = viewOf (b.feed n text) := by
  obtain ⟨current, cursor, insns, symbols, image⟩ := AssemblerView.mk.inj h
  rcases a.check_cases (.ofLine a.current text) with ⟨name, position, define⟩ | ⟨same, -⟩
  · have ha := define a rfl rfl
    have hb := define b current.symm cursor.symm
    rw [current] at hb
    have known : a.symbols.value? (String.ofList name) = b.symbols.value? (String.ofList name) := by
      rw [SymbolTable.value?_eq, SymbolTable.value?_eq, symbols]
    rcases feed_define_cases ha m with ⟨new, hx⟩ | ⟨old, e, hx⟩ <;>
      rcases feed_define_cases hb n with ⟨new', hy⟩ | ⟨old', e', hy⟩
    · rw [hx, hy]
      exact congrArg some (view_eq current cursor insns
        (SymbolTable.view_define_congr symbols _ rfl) image)
    · exact absurd (known.symm.trans new) old'
    · exact absurd (known.trans new') old
    · rw [hx, hy]
      rfl
  · have hb := same b current.symm cursor.symm
    rw [feed_eq, feed_eq, ← current, hb]
    cases a.check (.ofLine a.current text) with
    | error e => rfl
    | ok action => exact viewOf_perform_congr h m n action

end Assembler

/-! ### Lines -/

namespace Program

/-- The view after lines that must not fail. -/
def viewAfter (x : Except LocatedError Assembler) : Option AssemblerView :=
  x.toOption.map Assembler.view

/-- Take lines that are numbered from `n` on and must not fail. -/
def readLines (n : Nat) (lines : List (List Char)) (a : Assembler) :
    Except LocatedError Assembler :=
  (lines.zipIdx n).foldlM feedLine a

theorem viewAfter_feedLine (a : Assembler) (line : List Char × Nat) :
    viewAfter (feedLine a line) = Assembler.viewOf (a.feed line.2 line.1) := by
  rw [feedLine]
  generalize a.feed line.2 line.1 = x
  obtain ⟨b, result⟩ := x
  cases result <;> rfl

theorem viewAfter_feedLine_congr {a b : Assembler} (h : a.view = b.view) (text : List Char)
    (m n : Nat) : viewAfter (feedLine a (text, m)) = viewAfter (feedLine b (text, n)) := by
  rw [viewAfter_feedLine, viewAfter_feedLine]
  exact Assembler.viewOf_feed_congr h m n text

theorem viewAfter_bind {x y : Except LocatedError Assembler}
    {f g : Assembler → Except LocatedError Assembler} (h : viewAfter x = viewAfter y)
    (next : ∀ a b, a.view = b.view → viewAfter (f a) = viewAfter (g b)) :
    viewAfter (x >>= f) = viewAfter (y >>= g) := by
  cases x with
  | error e =>
    cases y with
    | error e' => rfl
    | ok b => cases h
  | ok a =>
    cases y with
    | error e' => cases h
    | ok b => exact next a b (Option.some.inj h)

theorem readLines_cons (n : Nat) (line : List Char) (lines : List (List Char)) (a : Assembler) :
    readLines n (line :: lines) a = feedLine a (line, n) >>= readLines (n + 1) lines :=
  List.foldlM_cons

theorem viewAfter_readLines_congr (lines : List (List Char)) {a b : Assembler}
    (h : a.view = b.view) (m n : Nat) :
    viewAfter (readLines m lines a) = viewAfter (readLines n lines b) := by
  induction lines generalizing a b m n with
  | nil => exact congrArg some h
  | cons line lines ih =>
    rw [readLines_cons, readLines_cons]
    exact viewAfter_bind (viewAfter_feedLine_congr h line m n) fun _ _ h => ih h _ _

end Program

/-! ### Programs -/

/-- The same image, instructions apart from their lines, and values. -/
structure Program.Matches (p q : Program) : Prop where
  image : p.image = q.image
  insns : p.insns.toList.map Insn.unlined = q.insns.toList.map Insn.unlined
  value? : ∀ name, p.symbols.value? name = q.symbols.value? name

namespace Assembler

variable {a b : Assembler}

theorem map_unlined_settled (values : String → Int64) (a : Assembler) :
    (a.settled values).map Insn.unlined =
      a.view.insns.mapIdx fun i insn =>
        insn.settle (totalAmount (a.symbols.contributions values) i) := by
  refine List.ext_getElem? fun i => ?_
  rw [settled, view, List.getElem?_map, List.getElem?_mapIdx, List.getElem?_mapIdx,
    List.getElem?_map, Option.map_map, Option.map_map]
  rfl

theorem forall_fits_iff (a : Assembler) :
    (∀ i ∈ a.insns.toList, i.position + 4 ≤ memorySize) ↔
      ∀ i ∈ a.view.insns, i.position + 4 ≤ memorySize := by
  rw [view, List.forall_mem_map]
  rfl

/-- Instructions that agree up to lines, with amounts from tables that agree, agree up to lines. -/
theorem map_unlined_settled_congr (ha : a.WellFormed) (hb : b.WellFormed) (h : a.view = b.view)
    (values : String → Int64) :
    (a.settled values).map Insn.unlined = (b.settled values).map Insn.unlined := by
  have symbols : a.symbols.view = b.symbols.view := congrArg AssemblerView.symbols h
  have contributions :
      (a.symbols.contributions values).Perm (b.symbols.contributions values) := by
    rw [SymbolTable.contributions_eq, SymbolTable.contributions_eq]
    exact (SymbolTable.perm_entries ha.nodup hb.nodup symbols).flatMap_right _
  have amounts : totalAmount (a.symbols.contributions values) =
      totalAmount (b.symbols.contributions values) :=
    funext (totalAmount_perm contributions)
  rw [map_unlined_settled, map_unlined_settled, h, amounts]

theorem map_word_eq (insns : List Insn) :
    insns.map (fun i => (i.position, i.encode)) =
      (insns.map Insn.unlined).map fun i => (i.position, i.encode) := by
  rw [List.map_map]
  rfl

theorem exists_finish_congr (ha : a.WellFormed) (hb : b.WellFormed) (h : a.view = b.view) :
    (∃ p, a.finish = .ok p) ↔ ∃ q, b.finish = .ok q := by
  have symbols : a.symbols.view = b.symbols.view := congrArg AssemblerView.symbols h
  rw [exists_finish_iff ha.nodup, exists_finish_iff hb.nodup, SymbolTable.forall_resolved_iff,
    SymbolTable.forall_resolved_iff, forall_fits_iff, forall_fits_iff, h]
  refine and_congr_left fun _ => forall_congr' fun e => ?_
  rw [(SymbolTable.perm_entries ha.nodup hb.nodup symbols).mem_iff]

theorem matches_of_finish (ha : a.WellFormed) (hb : b.WellFormed) (h : a.view = b.view)
    {p q : Program} (hp : a.finish = .ok p) (hq : b.finish = .ok q) : p.Matches q := by
  have image : a.image = b.image := congrArg AssemblerView.image h
  have values (name : String) : a.symbols.value? name = b.symbols.value? name := by
    rw [SymbolTable.value?_eq, SymbolTable.value?_eq]
    exact congrArg (fun v : AssemblerView => (v.symbols name).bind SymbolView.position) h
  have agrees := b.symbols.agrees_value?
  have agrees' : a.symbols.Agrees fun name => (b.symbols.value? name).getD 0 := by
    intro name v hv
    dsimp only
    rw [← values, hv, Option.getD_some]
  obtain ⟨resolved, fits⟩ := (exists_finish_iff ha.nodup).1 ⟨p, hp⟩
  obtain ⟨resolved', fits'⟩ := (exists_finish_iff hb.nodup).1 ⟨q, hq⟩
  rw [finish_eq_ok ha.nodup agrees' resolved fits] at hp
  rw [finish_eq_ok hb.nodup agrees resolved' fits'] at hq
  cases hp
  cases hq
  have insns := map_unlined_settled_congr ha hb h fun name => (b.symbols.value? name).getD 0
  refine ⟨?_, by rwa [List.toList_toArray, List.toList_toArray], values⟩
  dsimp only
  rw [image, map_word_eq, insns, ← map_word_eq]

end Assembler

namespace Program

theorem ofLines_eq (lines : List (List Char)) :
    ofLines lines = readLines 1 lines {} >>= Assembler.finish := by
  rw [ofLines, readLines]
  cases (lines.zipIdx 1).foldlM feedLine {} <;> rfl

theorem wellFormed_of_readLines {lines : List (List Char)} {a : Assembler}
    (h : readLines 1 lines {} = .ok a) : a.WellFormed := by
  rw [← feedAll_of_foldlM_feedLine h]
  exact Assembler.wellFormed_feedAll _

/-- Lines that lead to the same view assemble to programs that match, or both fail. -/
theorem ofLines_congr {lines lines' : List (List Char)}
    (h : viewAfter (readLines 1 lines {}) = viewAfter (readLines 1 lines' {})) :
    ((∃ p, ofLines lines = .ok p) ↔ ∃ q, ofLines lines' = .ok q) ∧
      ∀ p q, ofLines lines = .ok p → ofLines lines' = .ok q → p.Matches q := by
  rw [ofLines_eq, ofLines_eq]
  cases ha : readLines 1 lines {} with
  | error e =>
    cases hb : readLines 1 lines' {} with
    | error e' =>
      refine ⟨⟨?_, ?_⟩, ?_⟩
      · rintro ⟨p, hp⟩
        cases hp
      · rintro ⟨q, hq⟩
        cases hq
      · intro p q hp
        cases hp
    | ok b => rw [ha, hb] at h; cases h
  | ok a =>
    cases hb : readLines 1 lines' {} with
    | error e => rw [ha, hb] at h; cases h
    | ok b =>
      have same : a.view = b.view := by
        rw [ha, hb] at h
        exact Option.some.inj h
      have wa := wellFormed_of_readLines ha
      have wb := wellFormed_of_readLines hb
      exact ⟨Assembler.exists_finish_congr wa wb same,
        fun p q => Assembler.matches_of_finish wa wb same⟩

end Program

end Macc
