import Macc.Proofs.Assembly.Appearance
import Macc.Proofs.Assembly.View

/-!
# Dangling signs

Reading an operand never fails, so an operand with a dangling sign such as `a+-b` or `a-` is read as
well: the piece that is only a sign refers to the empty name, and no other piece does
(`Term.refersToNothing_iff`).  The line is caught in the end, because names that lines define are
words (`Assembler.definesWords_feedAll`).
-/

namespace Macc

open Text

/-! ### Pieces that are only a sign -/

/-- The text has a sign with another sign or nothing behind it. -/
def DanglingSign (text : List Char) : Prop :=
  ∃ front sign back, text = front ++ sign :: back ∧ isSign sign ∧ (back = [] ∨ BeginsWithSign back)

theorem summands_append {text rest : List Char} (filled : text ≠ []) (sign : BeginsWithSign rest) :
    summands (text ++ rest) = summands text ++ summands rest :=
  ((isCut_summands text).append (isCut_summands rest) filled sign).summands_eq

theorem summands_singleton (c : Char) : summands [c] = [[c]] :=
  summands_eq_singleton (List.forall_mem_nil _)

/-- A dangling sign is cut off on both sides. -/
theorem danglingSign_iff {text : List Char} :
    DanglingSign text ↔ ∃ sign, isSign sign ∧ [sign] ∈ summands text := by
  constructor
  · rintro ⟨front, sign, back, rfl, hs, behind⟩
    have begins : BeginsWithSign (sign :: back) := hs
    have first : [sign] ∈ summands (sign :: back) := by
      rcases behind with rfl | behind
      · rw [summands_singleton]
        exact .head _
      · have cut := summands_append (List.cons_ne_nil sign []) behind
        rw [summands_singleton] at cut
        exact cut ▸ .head _
    refine ⟨sign, hs, ?_⟩
    by_cases hf : front = []
    · rwa [hf]
    · rw [summands_append hf begins]
      exact List.mem_append_right _ first
  · rintro ⟨sign, hs, hm⟩
    have cut := isCut_summands text
    obtain ⟨ps, qs, pieces⟩ := List.append_of_mem hm
    rw [pieces] at cut
    refine ⟨ps.flatten, sign, qs.flatten, ?_, hs, ?_⟩
    · rw [← cut.flatten, List.flatten_append, List.flatten_cons, List.singleton_append]
    · cases qs with
      | nil => exact .inl rfl
      | cons q qs =>
        have hq : q ∈ (ps ++ [sign] :: q :: qs).tail := by
          cases ps <;> simp
        obtain ⟨c, cs, rfl, hc⟩ := (cut.begins q hq).exists_cons
        exact .inr hc

namespace Term

/-- An operand refers to the empty name. -/
def RefersToNothing (operand : List Char) : Prop :=
  ∃ factor divisor, Term.symbol "" factor divisor ∈ ofOperand operand

theorem ofSummand_sign {sign : Char} (h : isSign sign) :
    ∃ factor, ofSummand 1 1 [sign] = .symbol "" factor 1 := by
  have nothing (factor : Int64) : unscale factor 1 [] = ([], factor, 1) :=
    unscale_of_eq_none rfl factor 1
  rcases Bool.or_eq_true_iff.1 h with plus | minus
  · obtain rfl := eq_of_beq plus
    exact ⟨1, by simp [ofSummand, ofText, splitSign, nothing, Literal.value?_nil]⟩
  · obtain rfl := eq_of_beq minus
    exact ⟨-1, by simp [ofSummand, ofText, splitSign, nothing, Literal.value?_nil]⟩

/-- Only a piece without any text behind its sign has the empty name. -/
theorem eq_nil_or_sign_of_ofSummand {piece : List Char} {factor divisor : Int64}
    (h : ofSummand 1 1 piece = .symbol "" factor divisor) :
    piece = [] ∨ ∃ sign, isSign sign ∧ piece = [sign] := by
  obtain ⟨sign, unsigned, body, scalings, hu, hs, written⟩ := writtenAs_iff.2 h
  have body_eq : body = [] := by
    cases hv : Literal.value? body with
    | some v => rw [hv] at written; cases written
    | none =>
      rw [hv] at written
      simpa using (Term.symbol.inj written).1.symm
  have unscaled : scalings = [] := Classical.byContradiction fun hn => hs.body_ne_nil hn body_eq
  have empty : unsigned = [] := by
    rw [hs.text_eq, body_eq, unscaled]
    rfl
  cases hu with
  | minus => exact .inr ⟨'-', rfl, by rw [empty]⟩
  | plus => exact .inr ⟨'+', rfl, by rw [empty]⟩
  | none => exact .inl empty

/-- An operand refers to the empty name exactly if one of its signs dangles. -/
theorem refersToNothing_iff {operand : List Char} (h : operand ≠ []) :
    RefersToNothing operand ↔ DanglingSign operand := by
  rw [danglingSign_iff]
  constructor
  · rintro ⟨factor, divisor, hm⟩
    rw [ofOperand_eq] at hm
    obtain ⟨piece, hp, hterm⟩ := List.mem_map.1 hm
    rcases eq_nil_or_sign_of_ofSummand hterm with rfl | ⟨sign, hs, rfl⟩
    · exact absurd hp ((isCut_summands operand).ne_nil h)
    · exact ⟨sign, hs, hp⟩
  · rintro ⟨sign, hs, hp⟩
    obtain ⟨factor, hterm⟩ := ofSummand_sign hs
    exact ⟨factor, 1, ofOperand_eq operand ▸ hterm ▸ List.mem_map_of_mem hp⟩

end Term

/-! ### Names with a value -/

namespace Assembler

variable {a : Assembler}

/-- Names with a value are words. -/
def DefinesWords (a : Assembler) : Prop :=
  ∀ name v, a.symbols.value? name = some v → IsWord name.toList

theorem DefinesWords.define (h : a.DefinesWords) {name : List Char} (word : IsWord name)
    (d : Definition) :
    DefinesWords { a with symbols := a.symbols.define (String.ofList name) d } := by
  intro x v hv
  dsimp only at hv
  rw [SymbolTable.value?_define] at hv
  split at hv
  next hx => rwa [hx, String.toList_ofList]
  next => exact h x v hv

/-- Both ways to define a name take a word of the line. -/
theorem DefinesWords.feed (h : a.DefinesWords) (line : Nat) (text : List Char) :
    (a.feed line text).1.DefinesWords := by
  have answer := a.checked (.ofLine a.current text)
  generalize hk : a.check (.ofLine a.current text) = result at answer
  have words : ∀ w ∈ (Statement.ofLine a.current text).texts, IsWord w :=
    fun w => Statement.isWord_of_mem_texts
  generalize Statement.ofLine a.current text = s at answer words
  cases answer with
  | refused => rwa [feed_of_error hk]
  | blank | enter => rwa [feed_of_ok hk]
  | label =>
    rw [feed_of_ok hk]
    exact h.define (words _ (.head _)) _
  | symbol =>
    rw [feed_of_ok hk]
    exact h.define (words _ (.head _)) _
  | insn =>
    rw [feed_of_ok hk]
    intro x v hv
    exact h x v ((SymbolTable.value?_addTerms _ _ _ _ x).symm.trans hv)
  | data =>
    rw [feed_of_ok hk, DefinesWords, perform, symbols_emitWords]
    exact h

theorem definesWords_feedAll (lines : List (List Char × Nat)) :
    (feedAll {} lines).DefinesWords := by
  have run (a : Assembler) (h : a.DefinesWords) : (a.feedAll lines).DefinesWords := by
    induction lines generalizing a with
    | nil => exact h
    | cons line lines ih => exact ih _ (h.feed line.2 line.1)
  exact run {} fun _ _ hv => nomatch hv

/-- No lines give the empty name a value. -/
theorem value?_empty_feedAll (lines : List (List Char × Nat)) :
    (feedAll {} lines).symbols.value? "" = none := by
  cases hv : (feedAll {} lines).symbols.value? "" with
  | none => rfl
  | some v => exact absurd rfl (definesWords_feedAll lines "" v hv).ne_nil

/-- The word of an instruction line in a code section. -/
theorem mem_emissionsAt {lines : List (List Char)} {k : Nat} {head : List Char}
    {operands : List (List Char)} {o : Opcode} (code : (before lines k).current = some .code)
    (row : statementAt lines k = some (.row head operands))
    (ho : Opcode.ofMnemonic? (String.ofList head) = some o)
    (arity : o.format.arity = operands.length) :
    ⟨k + 1, (before lines k).cursor, .insn o operands⟩ ∈ emissionsAt lines k := by
  obtain ⟨text, hl, hs⟩ := Option.map_eq_some_iff.1 row
  have contents : (before lines k).contents text = [.insn o operands] := by
    rw [code] at hs
    simp only [contents, code, hs, insnContents, ho, if_pos arity]
  simp only [emissionsAt, hl, emissions, contents]
  exact .head _

end Assembler

/-- What an operand refers to, its instruction refers to. -/
theorem Opcode.mem_termNames {o : Opcode} {operands : List (List Char)} {text : List Char}
    {name : String} {factor divisor : Int64} (arity : o.format.arity = operands.length)
    (ht : text ∈ operands) (h : .symbol name factor divisor ∈ Term.ofOperand text) :
    name ∈ termNames (o.terms operands) := by
  have all : (o.format.fields.zip operands).map Prod.snd = operands :=
    List.map_snd_zip (Nat.le_of_eq arity.symm)
  obtain ⟨⟨f, text⟩, hz, rfl⟩ := List.mem_map.1 (all ▸ ht)
  exact mem_termNames_iff.2 ⟨f, factor, divisor,
    List.mem_flatMap.2 ⟨_, hz, List.mem_map_of_mem h⟩⟩

/-! ### Source texts -/

namespace Program

open Assembler

/-- A source text with a dangling sign in an operand of an instruction has no program, whatever
symbols it defines: the operand refers to the empty name, and no lines give that a value. -/
theorem assemble_danglingSign {source : String} {k : Nat} {head w : List Char}
    {operands : List (List Char)} {o : Opcode}
    (code : (before (Text.lines source.toList) k).current = some .code)
    (row : statementAt (Text.lines source.toList) k = some (.row head operands))
    (ho : Opcode.ofMnemonic? (String.ofList head) = some o)
    (arity : o.format.arity = operands.length) (hw : w ∈ operands) (dangling : DanglingSign w) :
    (∃ e, assemble source = .error e) ∧ Term.RefersToNothing w ∧
      ∀ lines, (feedAll {} lines).symbols.value? "" = none := by
  have word : IsWord w := by
    obtain ⟨text, -, hs⟩ := Option.map_eq_some_iff.1 row
    have mem : w ∈ (Statement.row head operands).texts := .tail _ hw
    exact Statement.isWord_of_mem_texts (hs ▸ mem)
  have refers := (Term.refersToNothing_iff word.ne_nil).2 dangling
  refine ⟨?_, refers, value?_empty_feedAll⟩
  cases h : assemble source with
  | error e => exact ⟨e, rfl⟩
  | ok p =>
    obtain ⟨factor, divisor, hm⟩ := refers
    have finish := finish_of_ofLines h
    have put := mem_allEmissions_iff.2 ⟨k, mem_emissionsAt code row ho arity⟩
    obtain ⟨v, hv⟩ := exists_value_of_finish finish put (Opcode.mem_termNames arity hw hm)
    rw [symbols_of_finish finish, value?_empty_feedAll] at hv
    cases hv

/-- An operand with a blank between two signs, and the symbols in it defined. -/
def danglingSignSource : String := ".sym a 4\n.code\nb: \n  Execute 0, a*2+ -b\n"

theorem assemble_danglingSign_blankBetween :
    (∃ e, assemble danglingSignSource = .error e) ∧ Term.RefersToNothing "a*2+-b".toList := by
  have dangling : DanglingSign "a*2+-b".toList :=
    ⟨"a*2".toList, '+', "-b".toList, rfl, rfl, .inr rfl⟩
  have code : (before (Text.lines danglingSignSource.toList) 3).current = some .code := by
    decide +kernel
  have row : statementAt (Text.lines danglingSignSource.toList) 3 =
      some (.row "Execute".toList ["0".toList, "a*2+-b".toList]) := by decide +kernel
  have execute : Opcode.ofMnemonic? (String.ofList "Execute".toList) = some .execute := by decide
  obtain ⟨fails, refers, -⟩ :=
    assemble_danglingSign code row execute rfl (.tail _ (.head _)) dangling
  exact ⟨fails, refers⟩

end Program

end Macc
