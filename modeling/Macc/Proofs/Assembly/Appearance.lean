import Macc.Proofs.Assembly.Checking
import Macc.Proofs.Assembly.Operands
import Macc.Proofs.Assembly.SourceLines

/-!
# The order of symbols

A name comes into the symbol table with the first line that mentions it, be it a label, a `.sym`
directive or an instruction with the name in an operand (`Statement.mentions`).  So the names of the
table are the names that the lines mention, in order of their first appearance
(`Assembler.names_before`).  None of them has a blank (`Assembler.nonblank_of_mem_mentionsAt`).
-/

namespace Macc

open Text

/-! ### Mentioned names -/

/-- The names that a statement mentions in a section, in order. -/
def Statement.mentions (current : Option SectionKind) : Statement → List String
  | .label name => [String.ofList name]
  | .symbol (name :: _) => [String.ofList name]
  | .row head operands =>
    if current = some .code then
      match Opcode.ofMnemonic? (String.ofList head) with
      | some o => termNames (o.terms operands)
      | none => []
    else []
  | _ => []

/-- A name in an operand is a part of its text. -/
theorem Term.subset_of_mem_ofOperand {text : List Char} {name : String} {factor divisor : Int64}
    (h : .symbol name factor divisor ∈ ofOperand text) : name.toList ⊆ text := by
  rw [ofOperand_eq] at h
  obtain ⟨piece, hp, term⟩ := List.mem_map.1 h
  obtain ⟨sign, unsigned, body, scalings, hu, hs, written⟩ := writtenAs_iff.2 term
  have named : name = String.ofList body := by
    cases hv : Literal.value? body with
    | some v => rw [hv] at written; cases written
    | none => rw [hv] at written; exact (Term.symbol.inj written).1
  rw [named, String.toList_ofList]
  intro c hc
  have unscaled : c ∈ unsigned := hs.text_eq ▸ List.mem_append_left _ hc
  have inPiece : c ∈ piece := by
    cases hu with
    | minus | plus => exact .tail _ unscaled
    | none => exact unscaled
  rw [← flatten_summands text]
  exact List.mem_flatten_of_mem hp inPiece

theorem mem_termNames_iff {name : String} {terms : List (Field × Term)} :
    name ∈ termNames terms ↔ ∃ f factor divisor, (f, .symbol name factor divisor) ∈ terms := by
  unfold termNames
  rw [List.mem_filterMap]
  constructor
  · rintro ⟨⟨f, t⟩, ht, h⟩
    cases t with
    | literal v => cases h
    | symbol x factor divisor =>
      obtain rfl := Option.some.inj h
      exact ⟨f, factor, divisor, ht⟩
  · rintro ⟨f, factor, divisor, h⟩
    exact ⟨_, h, rfl⟩

/-- A name in an instruction is a part of one of its operands. -/
theorem Opcode.exists_of_mem_termNames {o : Opcode} {operands : List (List Char)} {name : String}
    (h : name ∈ termNames (o.terms operands)) : ∃ text ∈ operands, name.toList ⊆ text := by
  obtain ⟨f, factor, divisor, h⟩ := mem_termNames_iff.1 h
  obtain ⟨⟨g, text⟩, hz, h⟩ := List.mem_flatMap.1 h
  obtain ⟨term, ht, he⟩ := List.mem_map.1 h
  obtain ⟨-, rfl⟩ := Prod.mk.inj he
  exact ⟨text, (List.of_mem_zip hz).2, Term.subset_of_mem_ofOperand ht⟩

/-- What is mentioned is a part of a text of the statement. -/
theorem Statement.exists_of_mem_mentions {current : Option SectionKind} {s : Statement}
    {name : String} (h : name ∈ s.mentions current) : ∃ text ∈ s.texts, name.toList ⊆ text := by
  unfold mentions at h
  split at h
  · obtain rfl := List.mem_singleton.1 h
    exact ⟨_, .head _, by simp⟩
  · obtain rfl := List.mem_singleton.1 h
    exact ⟨_, .head _, by simp⟩
  · split at h
    · split at h
      · obtain ⟨text, ht, sub⟩ := Opcode.exists_of_mem_termNames h
        exact ⟨text, .tail _ ht, sub⟩
      · cases h
    · cases h
  · cases h

/-! ### The names of a table -/

section EraseDups

variable {xs : List String} {name : String}

/-- One more name is new at the end, or has appeared before. -/
theorem eraseDups_concat (xs : List String) (name : String) :
    (xs ++ [name]).eraseDups =
      if name ∈ xs.eraseDups then xs.eraseDups else xs.eraseDups ++ [name] := by
  rw [List.eraseDups_append, List.cons_removeAll, List.nil_removeAll]
  by_cases h : name ∈ xs <;> simp [h, List.eraseDups_cons]

namespace SymbolTable

variable {t : SymbolTable} (h : t.names = xs.eraseDups)

include h

theorem names_define (name : String) (d : Definition) :
    (t.define name d).names = (xs ++ [name]).eraseDups := by
  rw [eraseDups_concat, ← h]
  exact map_name_alter (f := fun s => { s with definition := some d }) (fun _ => rfl) t.symbols

theorem names_addReference (name : String) (r : Reference) :
    (t.addReference name r).names = (xs ++ [name]).eraseDups := by
  rw [eraseDups_concat, ← h]
  exact map_name_alter (f := fun s => { s with references := s.references.push r }) (fun _ => rfl)
    t.symbols

theorem names_addTerms (insn line : Nat) (terms : List (Field × Term)) :
    (t.addTerms insn line terms).names = (xs ++ termNames terms).eraseDups := by
  induction terms generalizing t xs with
  | nil => rwa [termNames, List.filterMap_nil, List.append_nil]
  | cons p terms ih =>
    obtain ⟨f, term⟩ := p
    cases term with
    | literal v => exact ih h
    | symbol name factor divisor =>
      have rest := ih (names_addReference h name ⟨insn, f, factor, divisor, line⟩)
      rwa [List.append_assoc] at rest

end SymbolTable

end EraseDups

/-! ### Lines -/

/-- The names that an action puts into the table, in order. -/
def Action.names : Action → List String
  | .define name _ => [name]
  | .emit _ terms => termNames terms
  | .nothing | .enter _ _ | .data _ => []

namespace Assembler

variable {a : Assembler} {xs : List String} {lines : List (List Char)} {k : Nat}

/-- A statement that is not refused asks for the names that it mentions. -/
theorem names_of_check {s : Statement} {action : Action} (h : a.check s = .ok action) :
    action.names = s.mentions a.current := by
  cases checked_of_ok h with
  | blank | label _ | symbol _ _ | enter _ => rfl
  | insn current ho _ => rw [Action.names, Statement.mentions, if_pos current, ho]
  | data current _ _ => rw [Action.names, Statement.mentions, if_neg (by simp [current])]

theorem symbols_emitWords (line : Nat) (words : List Word) (a : Assembler) :
    (emitWords line words a).1.symbols = a.symbols := by
  induction words generalizing a with
  | nil => rfl
  | cons w words ih =>
    rw [emitWords]
    split
    · rfl
    · exact ih (a.emitWord line w)

theorem names_perform (h : a.symbols.names = xs.eraseDups) (line : Nat) (action : Action) :
    (perform line action a).1.symbols.names = (xs ++ action.names).eraseDups := by
  have same : a.symbols.names = (xs ++ []).eraseDups := by rwa [List.append_nil]
  cases action with
  | nothing => exact same
  | define name position => exact SymbolTable.names_define h name ⟨position, line⟩
  | enter kind addr => exact same
  | emit o terms => exact SymbolTable.names_addTerms h a.insns.size line terms
  | data words => rwa [perform, symbols_emitWords]

/-- A line that does not fail puts the names that it mentions into the table. -/
theorem names_feed (h : a.symbols.names = xs.eraseDups) {text : List Char} {n : Nat}
    (fine : (a.feed n text).2 = .ok ()) :
    (a.feed n text).1.symbols.names =
      (xs ++ (Statement.ofLine a.current text).mentions a.current).eraseDups := by
  cases hk : a.check (.ofLine a.current text) with
  | error e =>
    rw [feed_of_error hk] at fine
    cases fine
  | ok action => rw [feed_of_ok hk, names_perform h, names_of_check hk]

/-- The names that a line mentions. -/
def mentionsAt (lines : List (List Char)) (k : Nat) : List String :=
  match statementAt lines k with
  | some s => s.mentions (before lines k).current
  | none => []

/-- As long as no line fails, the names of the table are those mentioned, in order of their first
appearance. -/
theorem names_before (lines : List (List Char)) {k : Nat}
    (fine : ∀ j < k, failure? lines j = none) :
    (before lines k).symbols.names = ((List.range k).flatMap (mentionsAt lines)).eraseDups := by
  induction k with
  | zero => rfl
  | succ k ih =>
    have front := ih fun j hj => fine j (Nat.lt_succ_of_lt hj)
    rw [List.range_succ, List.flatMap_append, List.flatMap_singleton, mentionsAt, statementAt]
    cases hl : lines[k]? with
    | none =>
      rw [before_succ_of_length_le (List.getElem?_eq_none_iff.1 hl), front, Option.map_none,
        List.append_nil]
    | some text =>
      have taken := (failure?_eq_none_iff hl).1 (fine k (Nat.lt_succ_self k))
      rw [before_succ hl]
      exact names_feed front taken

theorem nonblank_of_mem_mentionsAt {name : String} (h : name ∈ mentionsAt lines k) :
    ∀ c ∈ name.toList, isAsciiBlank c = false := by
  unfold mentionsAt at h
  split at h
  next s hs =>
    obtain ⟨line, -, rfl⟩ := Option.map_eq_some_iff.1 hs
    obtain ⟨text, ht, sub⟩ := Statement.exists_of_mem_mentions h
    exact fun c hc => (Statement.isWord_of_mem_texts ht).nonblank c (sub hc)
  · cases h

end Assembler

/-- The symbols of a program are in order of their first appearance in the source text. -/
theorem Program.names_of_ofLines {lines : List (List Char)} {p : Program}
    (h : ofLines lines = .ok p) :
    p.symbols.names =
      ((List.range lines.length).flatMap (Assembler.mentionsAt lines)).eraseDups := by
  rw [Assembler.symbols_of_finish (finish_of_ofLines h), ← Assembler.before_length]
  exact Assembler.names_before lines fun j _ => Assembler.failure?_of_ofLines h j

end Macc
