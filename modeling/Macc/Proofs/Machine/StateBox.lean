import Macc.Proofs.Machine.Dumps

/-!
# The box of the final state

A line of a box is read as cells, which are what stands between blanks and bars (`boxCells`).  The
lines that a session shows have its registers and counters in their cells, each behind its label
(`Session.showsState_stateLines`).
-/

namespace Macc

open Text

/-! ### Cells -/

/-- A blank or a bar. -/
def isRuling (c : Char) : Bool := c = ' ' || c = '|'

/-- What stands between blanks and bars. -/
def boxCells (line : String) : List String := (words isRuling line.toList).map String.ofList

/-- A text that stands in one cell. -/
structure IsCell (text : String) : Prop where
  ne_nil : text.toList ≠ []
  unruled : ∀ c ∈ text.toList, isRuling c = false

instance (text : String) : Decidable (IsCell text) :=
  decidable_of_iff (text.toList ≠ [] ∧ text.toList.all fun c => !isRuling c)
    ⟨fun h => ⟨h.1, by simpa using h.2⟩, fun h => ⟨h.1, by simpa using h.2⟩⟩

theorem isRuling_of_isAlphanum {c : Char} (h : c.isAlphanum) : isRuling c = false := by
  rw [isRuling, Bool.or_eq_false_iff, decide_eq_false_iff_not, decide_eq_false_iff_not]
  constructor
  all_goals
    rintro rfl
    exact absurd h (by decide)

theorem isCell_of_isToken {text : String} (h : IsToken text.toList) : IsCell text :=
  ⟨h.ne_nil, fun c hc => isRuling_of_isAlphanum (h.isAlphanum c hc)⟩

theorem isCell_hex (width n : Nat) : IsCell (hex width n) := by
  refine isCell_of_isToken ?_
  rw [toList_hex]
  exact isToken_hexDigits width n

theorem isCell_toString (n : Nat) : IsCell (toString n) := isCell_of_isToken (isToken_toString n)

theorem isCell_toString_int (i : Int) : IsCell (toString i) := by
  cases i with
  | ofNat n => exact isCell_toString n
  | negSucc n =>
    have text : (toString (Int.negSucc n)).toList = '-' :: (toString (n + 1)).toList :=
      String.toList_append
    constructor
    · rw [text]
      exact List.cons_ne_nil _ _
    · rw [text, List.forall_mem_cons]
      exact ⟨by decide, (isCell_toString (n + 1)).unruled⟩

/-- Blanks and bars between two cells, or behind the last one. -/
structure IsRuled (gap : String) : Prop where
  ne_nil : gap.toList ≠ []
  ruled : ∀ c ∈ gap.toList, isRuling c

instance (gap : String) : Decidable (IsRuled gap) :=
  decidable_of_iff (gap.toList ≠ [] ∧ gap.toList.all isRuling)
    ⟨fun h => ⟨h.1, List.all_eq_true.1 h.2⟩, fun h => ⟨h.1, List.all_eq_true.2 h.ruled⟩⟩

/-- A line of cells, each with a gap behind it. -/
def cellLine (cells : List (String × String)) : String :=
  String.join (cells.map fun c => c.1 ++ c.2)

theorem boxCells_cellLine {front : String} (hf : IsRuled front)
    {cells : List (String × String)} (h : ∀ c ∈ cells, IsCell c.1 ∧ IsRuled c.2) :
    boxCells (front ++ cellLine cells) = cells.map Prod.fst := by
  rw [boxCells, String.toList_append, words_append_of_blank hf.ruled]
  induction cells with
  | nil => rfl
  | cons c cells ih =>
    obtain ⟨⟨cell, gap⟩, rest⟩ := List.forall_mem_cons.1 h
    obtain ⟨first, behind, hgap⟩ := List.exists_cons_of_ne_nil gap.ne_nil
    have ruled := gap.ruled
    rw [hgap, List.forall_mem_cons] at ruled
    have line : (cellLine (c :: cells)).toList =
        c.1.toList ++ first :: (behind ++ (cellLine cells).toList) := by
      rw [cellLine, List.map_cons, String.join_cons, String.toList_append, String.toList_append,
        hgap, List.append_assoc, List.cons_append]
      rfl
    rw [line, words_append_cons ruled.1, words_eq_singleton cell.ne_nil cell.unruled,
      words_append_of_blank ruled.2, List.map_append, ih rest]
    simp

/-- Blanks that fill a column. -/
def spaces (n : Nat) : String := String.ofList (List.replicate n ' ')

theorem isRuling_of_mem_spaces {n : Nat} : ∀ c ∈ (spaces n).toList, isRuling c := by
  intro c hc
  rw [spaces, String.toList_ofList] at hc
  exact (List.mem_replicate.1 hc).2 ▸ rfl

namespace IsRuled

variable {gap : String}

theorem append_spaces (h : IsRuled gap) (n : Nat) : IsRuled (gap ++ spaces n) := by
  constructor
  · rw [String.toList_append]
    exact List.append_ne_nil_of_left_ne_nil h.ne_nil _
  · rw [String.toList_append, List.forall_mem_append]
    exact ⟨h.ruled, isRuling_of_mem_spaces⟩

theorem spaces_append (h : IsRuled gap) (n : Nat) : IsRuled (spaces n ++ gap) := by
  constructor
  · rw [String.toList_append]
    exact List.append_ne_nil_of_right_ne_nil _ h.ne_nil
  · rw [String.toList_append, List.forall_mem_append]
    exact ⟨isRuling_of_mem_spaces, h.ruled⟩

end IsRuled

theorem padRight_eq (width : Nat) (text : String) :
    padRight width text = text ++ spaces (width - text.length) := by
  rw [← String.toList_inj, padRight, spaces, String.toList_ofList, String.toList_append,
    String.toList_ofList, List.rightpad, String.length_toList]

theorem padLeft_eq (width : Nat) (text : String) :
    padLeft width text = spaces (width - text.length) ++ text := by
  rw [← String.toList_inj, padLeft, spaces, String.toList_ofList, String.toList_append,
    String.toList_ofList, List.leftpad, String.length_toList]

/-! ### Registers and counters -/

namespace Session

/-- The box shows the bases, the accumulators as words and as signed numbers, and the counters. -/
def ShowsState (s : Session) (box : List String) : Prop :=
  ∃ first second third,
    box = [registerBorder, first, second, registerBorder, third, border] ∧
    (∃ vbp lbp acc, boxCells first =
        ["VBP:", vbp, "LBP:", lbp, "acc0:", acc, toString s.machine.acc0.toInt] ∧
      IsHex 5 s.machine.vbp.toNat vbp ∧ IsHex 5 s.machine.lbp.toNat lbp ∧
      IsHex 8 s.machine.acc0.toNat acc) ∧
    (∃ sbp cbp acc, boxCells second =
        ["SBP:", sbp, "CBP:", cbp, "acc1:", acc, toString s.machine.acc1.toInt] ∧
      IsHex 5 s.machine.sbp.toNat sbp ∧ IsHex 3 s.machine.cbp.toNat cbp ∧
      IsHex 8 s.machine.acc1.toNat acc) ∧
    boxCells third =
      ["cycles:", toString s.counters.cycles, "ops:", toString s.counters.ops,
        "steps:", toString s.counters.steps]

/-- The cells of two bases and an accumulator with the gaps behind them. -/
def registerCells (label₁ base₁ label₂ gap base₂ label₃ : String) (acc : Word) :
    List (String × String) :=
  let number := toString acc.toInt
  [(label₁, " "), (base₁, "  | "), (label₂, gap), (base₂, "  | "), (label₃, " "),
    (hex 8 acc.toNat, " " ++ spaces (11 - number.length)), (number, " |")]

theorem boxCells_registers {label₁ base₁ label₂ gap base₂ label₃ : String}
    (labels : IsCell label₁ ∧ IsCell label₂ ∧ IsCell label₃) (h₁ : IsCell base₁)
    (h₂ : IsCell base₂) (hg : IsRuled gap) (acc : Word) :
    boxCells (" | " ++ cellLine (registerCells label₁ base₁ label₂ gap base₂ label₃ acc)) =
      [label₁, base₁, label₂, base₂, label₃, hex 8 acc.toNat, toString acc.toInt] := by
  have space : IsRuled " " := by decide
  have bar : IsRuled "  | " := by decide
  refine boxCells_cellLine (by decide) ?_
  simp only [registerCells, List.forall_mem_cons]
  exact ⟨⟨labels.1, space⟩, ⟨h₁, bar⟩, ⟨labels.2.1, hg⟩, ⟨h₂, bar⟩, ⟨labels.2.2, space⟩,
    ⟨isCell_hex _ _, space.append_spaces _⟩, ⟨isCell_toString_int _, by decide⟩, nofun⟩

/-- The cells of the counters with the gaps behind them. -/
def counterCells (c : Counters) : List (String × String) :=
  [("cycles:", " "), (toString c.cycles, spaces (12 - (toString c.cycles).length) ++ " "),
    ("ops:", " "), (toString c.ops, spaces (12 - (toString c.ops).length) ++ " "),
    ("steps:", " "), (toString c.steps, spaces (9 - (toString c.steps).length) ++ "|")]

theorem boxCells_counters (c : Counters) :
    boxCells (" | " ++ cellLine (counterCells c)) =
      ["cycles:", toString c.cycles, "ops:", toString c.ops, "steps:", toString c.steps] := by
  have space : IsRuled " " := by decide
  have bar : IsRuled "|" := by decide
  refine boxCells_cellLine (by decide) ?_
  simp only [counterCells, List.forall_mem_cons]
  exact ⟨⟨by decide, space⟩, ⟨isCell_toString _, space.spaces_append _⟩, ⟨by decide, space⟩,
    ⟨isCell_toString _, space.spaces_append _⟩, ⟨by decide, space⟩,
    ⟨isCell_toString _, bar.spaces_append _⟩, nofun⟩

theorem showsState_stateLines (s : Session) : s.ShowsState s.stateLines := by
  obtain ⟨m, c, trace⟩ := s
  have hex5 (a : Address) : IsHex 5 a.toNat (hex 5 a.toNat) := isHex_hex (by decide) (by omega)
  have hex8 (w : Word) : IsHex 8 w.toNat (hex 8 w.toNat) := isHex_hex (by decide) (by omega)
  refine ⟨_, _, _, rfl, ⟨_, _, _, ?first, hex5 _, hex5 _, hex8 _⟩,
    ⟨_, _, _, ?second, hex5 _, isHex_hex (by decide) (by omega), hex8 _⟩, ?third⟩
  case first =>
    refine (congrArg boxCells ?_).trans
      (boxCells_registers (by decide) (isCell_hex 5 _) (isCell_hex 5 _)
        (by decide : IsRuled " ") m.acc0)
    simp [← String.toList_inj, registerCells, cellLine, accumulatorText, padLeft_eq]
  case second =>
    refine (congrArg boxCells ?_).trans
      (boxCells_registers (by decide) (isCell_hex 5 _) (isCell_hex 3 _)
        (by decide : IsRuled "   ") m.acc1)
    simp [← String.toList_inj, registerCells, cellLine, accumulatorText, padLeft_eq]
  case third =>
    refine (congrArg boxCells ?_).trans (boxCells_counters c)
    simp [← String.toList_inj, counterCells, cellLine, padRight_eq]

end Session

end Macc
