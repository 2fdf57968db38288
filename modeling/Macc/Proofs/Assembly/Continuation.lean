import Macc.Proofs.Assembly.Layout
import Macc.Proofs.Assembly.View

/-!
# Appended source

Lines that are appended to a source text add rows, instructions, values and bytes to its program and
change none of those that are there (`Program.Continues`).

The two assemblies do not come to the end in the same way.  In the longer one the symbols of the
front part are resolved together with those of the lines behind it, in one table and into one image.
`Run.value?_eq` is what ties them together: a symbol keeps the value it has.  So the values of the
longer program serve for both, and the words of both are those that `Emission.word` gives under
them.
-/

namespace Macc

namespace Assembler

/-! ### Values stay -/

theorem Change.value?_eq {line : Nat} {a b : Assembler} {es : List Emission}
    (step : Change line a es b) {name : String} {v : Int64}
    (h : a.symbols.value? name = some v) : b.symbols.value? name = some v := by
  cases step with
  | @define defined position new =>
    -- only a name without a value is given one
    have other : name ≠ defined := by
      rintro rfl
      rw [SymbolTable.definition?_eq_none_iff, h] at new
      cases new
    rw [SymbolTable.value?_define, if_neg other, h]
  | enter kind _ => exact h
  | insn _ => exact (SymbolTable.value?_addTerms _ _ _ _ name).trans h
  | word => exact h

theorem Run.value?_eq {a b : Assembler} {es : List Emission} (run : Run a es b) {name : String}
    {v : Int64} (h : a.symbols.value? name = some v) : b.symbols.value? name = some v := by
  induction run with
  | nil => exact h
  | cons step _ ih => exact ih (step.value?_eq h)

theorem value?_feedAll (a : Assembler) (lines : List (List Char × Nat)) {name : String} {v : Int64}
    (h : a.symbols.value? name = some v) : (a.feedAll lines).symbols.value? name = some v :=
  (run_feedAll a lines).value?_eq h

end Assembler

/-! ### Programs -/

namespace Program

/-- The program `q` has all that `p` has, in the same places. -/
structure Continues (p q : Program) : Prop where
  rows : p.rows.toList <+: q.rows.toList
  /-- With the same operands in the end. -/
  insns : p.insns.toList <+: q.insns.toList
  word_insn : ∀ insn ∈ p.insns.toList,
    p.image.word (.ofNat 17 insn.position) = insn.encode ∧
      q.image.word (.ofNat 17 insn.position) = insn.encode
  /-- All symbols of `p` have values. -/
  value? : ∀ name ∈ p.symbols.names, ∃ v,
    p.symbols.value? name = some v ∧ q.symbols.value? name = some v
  byte : ∀ x, p.image.isDefined x → q.image.isDefined x ∧ q.image.byte x = p.image.byte x

variable {p q : Program} {values : String → Int64} {es fs : List Emission}

/-- What more emissions add under the same values. -/
theorem MadeOf.byte_append (hp : p.MadeOf values es) (hq : q.MadeOf values (es ++ fs)) {x : Address}
    (hx : p.image.isDefined x) : q.image.isDefined x ∧ q.image.byte x = p.image.byte x := by
  obtain ⟨e, he, hc⟩ := (hp.isDefined_image_iff x).1 hx
  have he' : e ∈ es ++ fs := List.mem_append_left _ he
  refine ⟨(hq.isDefined_image_iff x).2 ⟨e, he', hc⟩, Image.byte_congr hc ?_⟩
  rw [hq.word_image he', hp.word_image he]

theorem MadeOf.word_insn_append (hp : p.MadeOf values es) (hq : q.MadeOf values (es ++ fs))
    {insn : Insn} (hi : insn ∈ p.insns.toList) :
    p.image.word (.ofNat 17 insn.position) = insn.encode ∧
      q.image.word (.ofNat 17 insn.position) = insn.encode := by
  rw [hp.insns] at hi
  obtain ⟨e, he, hv⟩ := List.mem_filterMap.1 hi
  obtain ⟨hposition, -, hword⟩ := Emission.of_evaluate hv
  rw [hposition, ← hword]
  exact ⟨hp.word_image he, hq.word_image (List.mem_append_left _ he)⟩

/-- Lines that fail included. -/
theorem continues_of_finish {front back : List (List Char × Nat)}
    (hp : (Assembler.feedAll {} front).finish = .ok p)
    (hq : (Assembler.feedAll {} (front ++ back)).finish = .ok q) : p.Continues q := by
  have value? {name : String} {v : Int64} (h : p.symbols.value? name = some v) :
      q.symbols.value? name = some v := by
    rw [Assembler.symbols_of_finish hp] at h
    rw [Assembler.symbols_of_finish hq, Assembler.feedAll_append]
    exact Assembler.value?_feedAll _ back h
  -- the values of the longer program are those of both
  have agrees := q.symbols.agrees_value?
  have madeP := madeOf_of_finish hp fun name v h => agrees name v (value? h)
  have madeQ := madeOf_of_finish hq agrees
  rw [Assembler.allEmissions_append] at madeQ
  constructor
  case rows =>
    rw [madeP.rows, madeQ.rows, Assembler.rowsFrom_append]
    exact List.prefix_append _ _
  case insns =>
    rw [madeP.insns, madeQ.insns, List.filterMap_append]
    exact List.prefix_append _ _
  case word_insn => exact fun insn hi => madeP.word_insn_append madeQ hi
  case value? =>
    intro name hn
    obtain ⟨v, hv⟩ := Assembler.exists_value_of_mem_names hp hn
    exact ⟨v, hv, value? hv⟩
  case byte => exact fun x hx => madeP.byte_append madeQ hx

/-- Appended source never disturbs what is assembled. -/
theorem continues_of_append {front back : List (List Char)} (hp : ofLines front = .ok p)
    (hq : ofLines (front ++ back) = .ok q) : p.Continues q := by
  have finish := finish_of_ofLines hq
  rw [List.zipIdx_append] at finish
  exact continues_of_finish (finish_of_ofLines hp) finish

/-- Lines that define a symbol and refer to it. -/
def tableLines : List (List Char) :=
  [".code".toList, "SetVBP table*2".toList, ".data 0x10".toList, "table:".toList,
    "1 2 3 4".toList]

/-- Lines that refer to the symbol again, and define another. -/
def laterLines : List (List Char) :=
  ["later:".toList, ".code".toList, "Execute later, table/4".toList]

theorem continues_tableLines :
    ∃ p q, ofLines tableLines = .ok p ∧ ofLines (tableLines ++ laterLines) = .ok q ∧
      p.Continues q ∧ ⟨0, .setVbp, 0x20, 0, 2⟩ ∈ q.insns.toList := by
  obtain ⟨p, hp⟩ := (exists_ofLines_iff tableLines).2
    ⟨by decide +kernel, by decide +kernel, by decide +kernel⟩
  obtain ⟨q, hq⟩ := (exists_ofLines_iff (tableLines ++ laterLines)).2
    ⟨by decide +kernel, by decide +kernel, by decide +kernel⟩
  have continues := continues_of_append hp hq
  have agrees : p.symbols.Agrees fun name =>
      ((Assembler.feedAll {} (tableLines.zipIdx 1)).symbols.value? name).getD 0 := by
    rw [Assembler.symbols_of_finish (finish_of_ofLines hp)]
    exact SymbolTable.agrees_value? _
  have insns : p.insns.toList = [⟨0, .setVbp, 0x20, 0, 2⟩] :=
    (madeOf_of_finish (finish_of_ofLines hp) agrees).insns.trans (by decide +kernel)
  refine ⟨p, q, hp, hq, continues, continues.insns.subset ?_⟩
  rw [insns]
  exact .head _

end Program

end Macc
