import Macc.Proofs.Assembly.View

/-!
# Where symbols are defined

A `.sym` line may stand anywhere.  It says the same in every section, takes no part in the layout,
and what it adds to the symbol table goes with what other lines add to it.  So it can change places
with the line in front of it (`Program.viewAfter_swap`), hence move to any place
(`Program.symbol_anywhere`).
-/

namespace Macc

/-! ### The statement -/

namespace Statement

theorem ofWords_eq_symbol {head : List Char} {words operands : List (List Char)}
    (h : ofWords head words = .symbol operands) : head = ".sym".toList := by
  unfold ofWords at h
  split at h
  next hd => exact hd
  all_goals (repeat' split at h) <;> cases h

/-- A line that defines a symbol does so in every section. -/
theorem ofLine_eq_symbol {current : Option SectionKind} {line : List Char}
    {operands : List (List Char)} (h : ofLine current line = .symbol operands)
    (current' : Option SectionKind) : ofLine current' line = .symbol operands := by
  unfold ofLine at h ⊢
  dsimp only at h ⊢
  split at h
  · cases h
  next hblank =>
    rw [if_neg hblank]
    have dotted (c : Option SectionKind) :
        (c == some .data || ".sym".toList.head? == some '.') = true := Bool.or_true _
    have head := ofWords_eq_symbol h
    rw [head, dotted] at h ⊢
    exact h

end Statement

/-! ### Changes of the symbol table that go together -/

namespace SymbolTable

variable (t : SymbolTable) (name : String) (d : Definition)

theorem view_addReference_define (name' : String) (r : Reference) :
    ((t.define name d).addReference name' r).view =
      ((t.addReference name' r).define name d).view := by
  funext x
  simp only [view_addReference, view_define]
  split <;> split <;> rfl

theorem view_addTerms_define (insn line : Nat) (terms : List (Field × Term)) :
    ((t.define name d).addTerms insn line terms).view =
      ((t.addTerms insn line terms).define name d).view := by
  induction terms generalizing t with
  | nil => rfl
  | cons p terms ih =>
    match p with
    | (_, .literal _) => exact ih t
    | (f, .symbol name' factor divisor) =>
      let r : Reference := ⟨insn, f, factor, divisor, line⟩
      exact (view_addTerms_congr (t.view_addReference_define name d name' r) insn line line
        terms).trans (ih (t.addReference name' r))

theorem view_define_define {name' : String} (h : name ≠ name') (d' : Definition) :
    ((t.define name d).define name' d').view = ((t.define name' d').define name d).view := by
  funext x
  simp only [view_define]
  split
  next hx =>
    rw [if_neg fun hx' => h (hx'.symm.trans hx), if_neg fun hx' => h (hx'.symm.trans hx)]
  · rfl

end SymbolTable

/-- What a line does to the symbol table. -/
inductive SymbolEffect
  | fail
  | define (name : String) (d : Definition)
  | refer (insn line : Nat) (terms : List (Field × Term))

namespace SymbolEffect

/-- The table after the effect, unless it fails. -/
def run : SymbolEffect → SymbolTable → Option SymbolTable
  | fail, _ => none
  | define name d, t => if t.value? name = none then some (t.define name d) else none
  | refer insn line terms, t => some (t.addTerms insn line terms)

/-- Definitions go together.  Two definitions of one symbol fail in either order. -/
theorem run_define_comm (name name' : String) (d d' : Definition) (t : SymbolTable) :
    (((define name' d').run t).bind (define name d).run).map SymbolTable.view =
      (((define name d).run t).bind (define name' d').run).map SymbolTable.view := by
  simp only [run]
  by_cases same : name = name'
  · subst same
    split
    · simp only [Option.bind_some, run, SymbolTable.value?_define]
      rfl
    · rfl
  · have known : (t.define name d).value? name' = t.value? name' :=
      (t.value?_define name d name').trans (if_neg (Ne.symm same))
    have known' : (t.define name' d').value? name = t.value? name :=
      (t.value?_define name' d' name).trans (if_neg same)
    have swapped := (t.view_define_define name d same d').symm
    by_cases new : t.value? name = none <;> by_cases new' : t.value? name' = none <;>
      simp [run, new, new', known, known', swapped]

/-- A definition goes together with whatever another line does. -/
theorem run_comm (name : String) (d : Definition) (effect : SymbolEffect) (t : SymbolTable) :
    ((effect.run t).bind (define name d).run).map SymbolTable.view =
      (((define name d).run t).bind effect.run).map SymbolTable.view := by
  cases effect with
  | fail =>
    simp only [run]
    split <;> rfl
  | define name' d' => exact run_define_comm name name' d d' t
  | refer insn line terms =>
    simp only [run, Option.bind_some, SymbolTable.value?_addTerms]
    split
    · exact congrArg some (t.view_addTerms_define name d insn line terms).symm
    · rfl

end SymbolEffect

/-! ### Lines that go together -/

namespace Assembler

/-- The assembler with another symbol table. -/
def withSymbols (a : Assembler) (t : SymbolTable) : Assembler := { a with symbols := t }

theorem map_view_withSymbols (a : Assembler) (t : Option SymbolTable) :
    (t.map a.withSymbols).map view =
      (t.map SymbolTable.view).map fun v => { a.view with symbols := v } := by
  cases t <;> rfl

/-- Data words do not depend on the symbols. -/
theorem emitWords_withSymbols (line : Nat) (words : List Word) (t : SymbolTable) (a : Assembler) :
    emitWords line words (a.withSymbols t) =
      (emitWords line words a).map (·.withSymbols t) id := by
  induction words generalizing a with
  | nil => rfl
  | cons w words ih =>
    rw [emitWords.eq_2 line a]
    by_cases h : a.cursor + 4 > memorySize
    · rw [if_pos h]
      exact if_pos h
    · rw [if_neg h]
      exact (if_neg h).trans (ih (a.emitWord line w))

/-- What is done for a line that defines no symbol does not depend on the symbols, and adds
references to them at most. -/
theorem exists_perform_eq {action : Action} (h : ∀ name position, action ≠ .define name position)
    (line : Nat) (a : Assembler) :
    ∃ (b : Assembler) (result : Except AssemblyError Unit) (insn : Nat) (terms : List _),
      ∀ t, perform line action (a.withSymbols t) =
        (b.withSymbols (t.addTerms insn line terms), result) := by
  cases action with
  | nothing => exact ⟨a, .ok (), 0, [], fun _ => rfl⟩
  | define name position => exact absurd rfl (h name position)
  | enter kind addr =>
    exact ⟨{ a with current := some kind, cursor := addr }, .ok (), 0, [], fun _ => rfl⟩
  | emit o terms =>
    exact ⟨a.emitInsn line o terms, (perform line (.emit o terms) a).2, a.insns.size, terms,
      fun _ => rfl⟩
  | data words =>
    exact ⟨(emitWords line words a).1, (emitWords line words a).2, 0, [],
      fun t => emitWords_withSymbols line words t a⟩

end Assembler

namespace Program

open Assembler

theorem toOption_feedLine_of_error {a b : Assembler} {text : List Char} {n : Nat}
    {e : AssemblyError} (h : a.feed n text = (b, .error e)) :
    (feedLine a (text, n)).toOption = none := by
  rw [feedLine, h]
  rfl

theorem toOption_feedLine_of_ok {a b : Assembler} {text : List Char} {n : Nat}
    (h : a.feed n text = (b, .ok ())) : (feedLine a (text, n)).toOption = some b := by
  rw [feedLine, h]
  rfl

theorem toOption_feedLine_define {a : Assembler} {text name : List Char} {position : Int64}
    (h : a.check (.ofLine a.current text) = a.checkDefine name position) (n : Nat) :
    (feedLine a (text, n)).toOption =
      ((SymbolEffect.define (String.ofList name) ⟨position, n⟩).run a.symbols).map
        a.withSymbols := by
  rw [SymbolEffect.run]
  rcases feed_define_cases h n with ⟨new, hf⟩ | ⟨old, e, hf⟩
  · rw [toOption_feedLine_of_ok hf, if_pos new]
    rfl
  · rw [toOption_feedLine_of_error hf, if_neg old]
    rfl

/-- A line has an effect on the symbols, whatever they are; all else does not depend on them. -/
theorem exists_effect (a : Assembler) (text : List Char) (n : Nat) :
    ∃ (b : Assembler) (effect : SymbolEffect), ∀ t,
      (feedLine (a.withSymbols t) (text, n)).toOption = (effect.run t).map b.withSymbols := by
  rcases a.check_cases (.ofLine a.current text) with ⟨name, position, define⟩ | ⟨same, other⟩
  · exact ⟨a, .define (String.ofList name) ⟨position, n⟩, fun t =>
      toOption_feedLine_define (define (a.withSymbols t) rfl rfl) n⟩
  · have check (t : SymbolTable) := same (a.withSymbols t) rfl rfl
    cases hc : a.check (.ofLine a.current text) with
    | error e =>
      exact ⟨a, .fail, fun t =>
        toOption_feedLine_of_error (feed_of_error ((check t).trans hc))⟩
    | ok action =>
      have noDefinition (name : String) (position : Int64) : action ≠ .define name position :=
        fun h => other name position (hc.trans (congrArg Except.ok h))
      obtain ⟨b, result, insn, terms, perform⟩ := exists_perform_eq noDefinition n a
      have feed (t : SymbolTable) := (feed_of_ok ((check t).trans hc)).trans (perform t)
      cases result with
      | error e => exact ⟨b, .fail, fun t => toOption_feedLine_of_error (feed t)⟩
      | ok => exact ⟨b, .refer insn n terms, fun t => toOption_feedLine_of_ok (feed t)⟩

theorem toOption_bind {α β ε : Type} (x : Except ε α) (f : α → Except ε β) :
    (x >>= f).toOption = x.toOption.bind fun a => (f a).toOption := by
  cases x <;> rfl

/-- A line that defines a symbol changes places with any other line, numbers apart. -/
theorem viewAfter_swap {line : List Char} {operands : List (List Char)}
    (h : Statement.ofLine none line = .symbol operands) (text : List Char) (m n : Nat)
    (a : Assembler) :
    viewAfter (feedLine a (text, m) >>= fun b => feedLine b (line, n)) =
      viewAfter (feedLine a (line, n) >>= fun b => feedLine b (text, m)) := by
  rw [viewAfter, viewAfter, toOption_bind, toOption_bind]
  rcases check_symbol operands with ⟨e, refused⟩ | ⟨name, position, define⟩
  · have fails (b : Assembler) : (feedLine b (line, n)).toOption = none :=
      toOption_feedLine_of_error
        (feed_of_error ((congrArg b.check (Statement.ofLine_eq_symbol h _)).trans (refused b)))
    simp only [fails, Option.bind_none, Option.bind_fun_none]
  · let defining := SymbolEffect.define (String.ofList name) ⟨position, n⟩
    have defines (b : Assembler) :
        (feedLine b (line, n)).toOption = (defining.run b.symbols).map b.withSymbols :=
      toOption_feedLine_define
        ((congrArg b.check (Statement.ofLine_eq_symbol h _)).trans (define b)) n
    obtain ⟨b, effect, effects⟩ := exists_effect a text m
    have first : (feedLine a (text, m)).toOption = (effect.run a.symbols).map b.withSymbols :=
      effects a.symbols
    calc ((feedLine a (text, m)).toOption.bind fun b => (feedLine b (line, n)).toOption).map view
        = (((effect.run a.symbols).bind defining.run).map b.withSymbols).map view := by
          rw [first]
          simp only [defines, Option.bind_map, Option.map_bind]
          rfl
      _ = (((defining.run a.symbols).bind effect.run).map b.withSymbols).map view := by
          rw [map_view_withSymbols, SymbolEffect.run_comm, ← map_view_withSymbols]
      _ = ((feedLine a (line, n)).toOption.bind fun b => (feedLine b (text, m)).toOption).map
            view := by
          rw [defines a, Option.bind_map, Option.map_bind]
          simp only [Function.comp_def, effects]

/-- A line that defines a symbol moves to the front. -/
theorem viewAfter_readLines_move {line : List Char} {operands : List (List Char)}
    (h : Statement.ofLine none line = .symbol operands) (front back : List (List Char)) (n : Nat)
    (a : Assembler) :
    viewAfter (readLines n (front ++ line :: back) a) =
      viewAfter (readLines n (line :: (front ++ back)) a) := by
  induction front generalizing n a with
  | nil => rfl
  | cons text front ih =>
    let rest := front ++ back
    calc viewAfter (readLines n (text :: front ++ line :: back) a)
        = viewAfter (feedLine a (text, n) >>= readLines (n + 1) (line :: rest)) := by
          rw [List.cons_append, readLines_cons]
          refine viewAfter_bind rfl fun b c same => ?_
          rw [ih, viewAfter_readLines_congr _ same (n + 1) (n + 1)]
      _ = viewAfter ((feedLine a (text, n) >>= fun b => feedLine b (line, n + 1)) >>=
            readLines (n + 2) rest) := by
          rw [bind_assoc]
          rfl
      _ = viewAfter ((feedLine a (line, n + 1) >>= fun b => feedLine b (text, n)) >>=
            readLines (n + 2) rest) :=
          viewAfter_bind (viewAfter_swap h text n (n + 1) a) fun b c same =>
            viewAfter_readLines_congr rest same _ _
      _ = viewAfter (feedLine a (line, n) >>= readLines (n + 1) (text :: rest)) := by
          rw [bind_assoc]
          refine viewAfter_bind (viewAfter_feedLine_congr rfl line _ _) fun b c same => ?_
          rw [readLines_cons]
          exact viewAfter_bind (viewAfter_feedLine_congr same text _ _) fun b c same =>
            viewAfter_readLines_congr rest same _ _
      _ = viewAfter (readLines n (line :: (text :: front ++ back)) a) := by
          rw [List.cons_append, readLines_cons]

/-- The lines taken one after another give assemblers with the same view, or fail, wherever one of
them that defines a symbol stands. -/
theorem viewAfter_readLines_place {line : List Char} {operands : List (List Char)}
    (h : Statement.ofLine none line = .symbol operands) {front back front' back' : List (List Char)}
    (same : front ++ back = front' ++ back') (n : Nat) (a : Assembler) :
    viewAfter (readLines n (front ++ line :: back) a) =
      viewAfter (readLines n (front' ++ line :: back') a) := by
  rw [viewAfter_readLines_move h, viewAfter_readLines_move h, same]

/-- It does not matter where a symbol is defined.  Wherever a `.sym` line stands among other lines,
they assemble or they do not, and they assemble to the same image, instructions and values. -/
theorem symbol_anywhere (front back front' back' : List (List Char))
    (same : front ++ back = front' ++ back') {line : List Char} {operands : List (List Char)}
    (h : Statement.ofLine none line = .symbol operands) :
    ((∃ p, ofLines (front ++ line :: back) = .ok p) ↔
        ∃ q, ofLines (front' ++ line :: back') = .ok q) ∧
      ∀ p q, ofLines (front ++ line :: back) = .ok p → ofLines (front' ++ line :: back') = .ok q →
        p.image = q.image ∧
        p.insns.toList.map Insn.unlined = q.insns.toList.map Insn.unlined ∧
        ∀ name, p.symbols.value? name = q.symbols.value? name := by
  obtain ⟨assembles, agree⟩ := ofLines_congr (viewAfter_readLines_place h same 1 {})
  refine ⟨assembles, fun p q hp hq => ?_⟩
  have program := agree p q hp hq
  exact ⟨program.image, program.insns, program.value?⟩

/-- Lines with a label and an instruction that refers to it and to one more symbol. -/
def callingLines : List (List Char) :=
  [".code 0x10".toList, "start:".toList, "Execute slot*2, start/4".toList]

/-- A symbol that is defined first stands first in the table, at last, it stands last. -/
theorem symbol_anywhere_callingLines :
    ∃ p q, ofLines (".sym slot 5".toList :: callingLines) = .ok p ∧
      ofLines (callingLines ++ [".sym slot 5".toList]) = .ok q ∧
      p.symbols.names = ["slot", "start"] ∧ q.symbols.names = ["start", "slot"] ∧
      p.image = q.image := by
  obtain ⟨p, hp⟩ := (exists_ofLines_iff (".sym slot 5".toList :: callingLines)).2
    ⟨by decide +kernel, by decide +kernel, by decide +kernel⟩
  have line : Statement.ofLine none ".sym slot 5".toList = .symbol ["slot".toList, "5".toList] := by
    decide +kernel
  obtain ⟨assembles, agree⟩ :=
    symbol_anywhere [] callingLines callingLines [] (List.append_nil _).symm line
  obtain ⟨q, hq⟩ := assembles.1 ⟨p, hp⟩
  refine ⟨p, q, hp, hq, ?_, ?_, (agree p q hp hq).1⟩
  · rw [symbols_of_finish (finish_of_ofLines hp)]
    decide +kernel
  · rw [symbols_of_finish (finish_of_ofLines hq)]
    decide +kernel

end Program

end Macc
