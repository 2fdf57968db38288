import Mathlib.Algebra.Group.Int.Defs
import Mathlib.Algebra.Group.Nat.Defs
import Macc.Proofs.Assembly.Checking
import Macc.Proofs.Assembly.Reading

/-!
# The cursor

The cursor is meant to move forward only.  `Assembler.Advances` is that law for one line: the cursor
stays a multiple of 4 and does not become smaller, a section directive with a lower address is
refused, and the rows have increasing addresses.

Section directives compare addresses as signed 64-bit numbers, so the law ends with the signed
range.  An instruction at `2 ^ 63 - 4` moves the cursor to `2 ^ 63`, and then lower addresses are
let through: such a directive `Rewinds` the cursor.  `advances_iff_not_rewinds` shows that the law
holds along a sequence of lines exactly when no line does, and says which lines move the cursor
back.
-/

namespace Macc

/-! ### Signed and unsigned addresses -/

theorem toInt_eq_toNat_toUInt64 (p : Int64) : p.toInt =
    if p.toUInt64.toNat < 2 ^ 63 then (p.toUInt64.toNat : Int) else p.toUInt64.toNat - 2 ^ 64 := by
  rw [← Int64.toNat_toBitVec, Int64.toInt, BitVec.toInt_eq_toNat_cond]
  split <;> split <;> omega

theorem toInt_ofNat_of_lt {c : Nat} (h : c < 2 ^ 64) :
    (Int64.ofNat c).toInt = if c < 2 ^ 63 then (c : Int) else c - 2 ^ 64 := by
  have : (Int64.ofNat c).toUInt64.toNat = c := by
    rw [Int64.toUInt64_ofNat', UInt64.toNat_ofNat', Nat.mod_eq_of_lt h]
  rw [toInt_eq_toNat_toUInt64, this]

theorem mod_four_eq_zero_iff (p : Int64) : p % 4 = 0 ↔ p.toInt % 4 = 0 := by
  rw [← Int64.toInt_inj, Int64.toInt_mod, Int64.toInt_zero]
  exact Int.dvd_iff_tmod_eq_zero.symm.trans Int.dvd_iff_emod_eq_zero

theorem Literal.natAbs_lt_of_value? {text : List Char} {v : Int}
    (h : Literal.value? text = some v) : v.natAbs < 2 ^ 63 := by
  obtain ⟨body, n, hn, cases⟩ := value?_cases h
  have := magnitude?_lt hn
  rcases cases with ⟨-, rfl⟩ | ⟨-, rfl⟩ <;> omega

theorem toInt_ofInt_of_value? {text : List Char} {v : Int} (h : Literal.value? text = some v) :
    (Int64.ofInt v).toInt = v := by
  have := Literal.natAbs_lt_of_value? h
  exact Int64.toInt_ofInt_of_le (by omega) (by omega)

theorem Assembler.SectionStart.mod_four {cursor addr : Nat} (h : SectionStart cursor addr)
    (hc : cursor % 4 = 0) : addr % 4 = 0 := by
  obtain rfl | ⟨p, -, h4, rfl⟩ := h
  · exact hc
  · have hp := toInt_eq_toNat_toUInt64 p
    rw [mod_four_eq_zero_iff] at h4
    split at hp <;> omega

/-- As long as the cursor is in the signed range, a section begins at the cursor or behind it. -/
theorem Assembler.SectionStart.le {cursor addr : Nat} (h : SectionStart cursor addr)
    (hc : cursor < 2 ^ 63) : cursor ≤ addr ∧ addr < 2 ^ 63 := by
  obtain rfl | ⟨p, hlt, -, rfl⟩ := h
  · exact ⟨Nat.le_refl _, hc⟩
  · have hp := toInt_eq_toNat_toUInt64 p
    have := p.toUInt64.toNat_lt
    rw [Int64.lt_iff_toInt_lt, toInt_ofNat_of_lt (by omega), if_pos hc] at hlt
    split at hp <;> omega

namespace Assembler

/-! ### Section directives -/

section Directive

variable {a : Assembler} {text : List Char} {kind : SectionKind} (n : Nat)

theorem feed_enter_nil (hs : Statement.ofLine a.current text = .enter kind []) :
    a.feed n text = ({ a with current := some kind }, .ok ()) :=
  feed_of_ok (by rw [hs]; rfl)

theorem feed_enter_many {t u : List Char} {rest : List (List Char)}
    (hs : Statement.ofLine a.current text = .enter kind (t :: u :: rest)) :
    a.feed n text = (a, .error .sectionOperands) :=
  feed_of_error (by rw [hs]; rfl)

theorem feed_enter_notAddress {operand : List Char}
    (hs : Statement.ofLine a.current text = .enter kind [operand])
    (hv : Literal.value? operand = none) :
    a.feed n text = (a, .error (.notAddress (String.ofList operand))) :=
  feed_of_error (by rw [hs, check, checkEnter, hv])

/-- What a section directive with an address does. -/
theorem feed_enter {operand : List Char} {v : Int}
    (hs : Statement.ofLine a.current text = .enter kind [operand])
    (hv : Literal.value? operand = some v) :
    a.feed n text =
      if Int64.ofInt v < Int64.ofNat a.cursor then
        (a, .error (.backward a.cursor (Int64.ofInt v)))
      else if Int64.ofInt v % 4 ≠ 0 then (a, .error (.misaligned (Int64.ofInt v)))
      else ({ a with current := some kind, cursor := (Int64.ofInt v).toUInt64.toNat }, .ok ()) := by
  have hk : a.check (.ofLine a.current text) =
      if Int64.ofInt v < Int64.ofNat a.cursor then .error (.backward a.cursor (Int64.ofInt v))
      else if Int64.ofInt v % 4 ≠ 0 then .error (.misaligned (Int64.ofInt v))
      else .ok (.enter kind (Int64.ofInt v).toUInt64.toNat) := by
    simp only [hs, check, checkEnter, hv]
  split
  next hlt => exact feed_of_error (by rw [hk, if_pos hlt])
  next hlt =>
    split
    next h4 => exact feed_of_error (by rw [hk, if_neg hlt, if_pos h4])
    next h4 => exact feed_of_ok (by rw [hk, if_neg hlt, if_neg h4])

end Directive

theorem contents_of_enter {a : Assembler} {text : List Char} {kind : SectionKind}
    {operands : List (List Char)} (hs : Statement.ofLine a.current text = .enter kind operands) :
    a.contents text = [] := by
  rw [contents, hs]

/-! ### The other lines -/

/-- Rows and cursor grow together, apart from section directives. -/
theorem cursor_emitWords (line : Nat) (ws : List Word) (a : Assembler) :
    (emitWords line ws a).1.cursor + 4 * a.rows.size =
      a.cursor + 4 * (emitWords line ws a).1.rows.size := by
  induction ws generalizing a with
  | nil => rfl
  | cons w ws ih =>
    rw [emitWords]
    split
    · rfl
    · have := ih (a.emitWord line w)
      simp only [emitWord, Array.size_push] at this ⊢
      omega

theorem cursor_perform {line : Nat} {action : Action} {a : Assembler}
    (h : ∀ kind addr, action ≠ .enter kind addr) :
    (perform line action a).1.cursor + 4 * a.rows.size =
      a.cursor + 4 * (perform line action a).1.rows.size := by
  cases action with
  | nothing => rfl
  | define name position => rfl
  | enter kind addr => exact absurd rfl (h kind addr)
  | emit o terms =>
    simp only [perform, emitInsn, Array.size_push]
    omega
  | data ws => exact cursor_emitWords line ws a

/-- Only a section directive asks for a section. -/
theorem check_ne_enter {a : Assembler} {s : Statement}
    (h : ∀ kind operands, s ≠ .enter kind operands) (kind : SectionKind) (addr : Nat) :
    a.check s ≠ .ok (.enter kind addr) := by
  intro asked
  cases checked_of_ok asked
  exact h _ _ rfl

/-- A line that is no section directive moves the cursor behind the words that it puts out. -/
theorem cursor_feed {a : Assembler} {line : List Char × Nat}
    (h : ∀ kind operands, Statement.ofLine a.current line.1 ≠ .enter kind operands) :
    (a.feed line.2 line.1).1.cursor = a.cursor + 4 * (a.contents line.1).length := by
  have grow : (a.feed line.2 line.1).1.cursor + 4 * a.rows.size =
      a.cursor + 4 * (a.feed line.2 line.1).1.rows.size := by
    cases hk : a.check (.ofLine a.current line.1) with
    | error e => rw [feed_of_error hk]
    | ok action =>
      rw [feed_of_ok hk]
      refine cursor_perform fun kind addr he => ?_
      rw [he] at hk
      exact check_ne_enter h kind addr hk
  have rows := congrArg List.length (run_feed a line).rows_eq
  rw [List.length_append, Array.length_toList, Array.length_toList, length_rowsFrom, emissions,
    length_place] at rows
  omega

/-! ### The law of the cursor -/

/-- The cursor and the rows after some lines: the rows have increasing addresses below the
cursor. -/
structure Ordered (a : Assembler) : Prop where
  aligned : a.cursor % 4 = 0
  increasing : a.rows.toList.Pairwise fun r s => r.addr < s.addr
  below : ∀ r ∈ a.rows.toList, r.addr < a.cursor

/-- The law of the cursor for a line. -/
structure Advances (a : Assembler) (line : List Char × Nat) : Prop where
  aligned : (a.feed line.2 line.1).1.cursor % 4 = 0
  le : a.cursor ≤ (a.feed line.2 line.1).1.cursor
  /-- A section directive with an address below the cursor is refused. -/
  refused : ∀ kind operand v, Statement.ofLine a.current line.1 = .enter kind [operand] →
    Literal.value? operand = some v → v < a.cursor →
    a.feed line.2 line.1 = (a, .error (.backward a.cursor (Int64.ofInt v)))
  increasing : (a.feed line.2 line.1).1.rows.toList.Pairwise fun r s => r.addr < s.addr

/-- The line is a section directive with an address that is not refused, although the cursor has
left the signed range and so is above every address. -/
def Rewinds (a : Assembler) (text : List Char) : Prop :=
  2 ^ 63 ≤ a.cursor ∧ ∃ kind operand v, Statement.ofLine a.current text = .enter kind [operand] ∧
    Literal.value? operand = some v ∧ (a.cursor : Int) - 2 ^ 64 ≤ v

theorem lt_cursor_iff {cursor : Nat} {operand : List Char} {v : Int}
    (hv : Literal.value? operand = some v) (hc : cursor < 2 ^ 64) :
    Int64.ofInt v < Int64.ofNat cursor ↔
      if cursor < 2 ^ 63 then v < cursor else v < (cursor : Int) - 2 ^ 64 := by
  rw [Int64.lt_iff_toInt_lt, toInt_ofInt_of_value? hv, toInt_ofNat_of_lt hc]
  split <;> rfl

/-- A section directive that does not rewind is refused below the cursor. -/
theorem feed_backward {a : Assembler} {line : List Char × Nat} {kind : SectionKind}
    {operand : List Char} {v : Int} (hc : a.cursor < 2 ^ 64) (hr : ¬ a.Rewinds line.1)
    (hs : Statement.ofLine a.current line.1 = .enter kind [operand])
    (hv : Literal.value? operand = some v) (hlt : v < a.cursor) :
    a.feed line.2 line.1 = (a, .error (.backward a.cursor (Int64.ofInt v))) := by
  rw [feed_enter line.2 hs hv, if_pos]
  rw [lt_cursor_iff hv hc]
  split
  · exact hlt
  next h =>
    exact Int.not_le.1 fun hn => hr ⟨Nat.not_lt.1 h, kind, operand, v, hs, hv, hn⟩

theorem cursor_feed_enter {a : Assembler} {line : List Char × Nat} {kind : SectionKind}
    {operands : List (List Char)}
    (hs : Statement.ofLine a.current line.1 = .enter kind operands) :
    (a.feed line.2 line.1).1.cursor = a.cursor ∨
      ∃ operand v, operands = [operand] ∧ Literal.value? operand = some v ∧
        ¬ Int64.ofInt v < Int64.ofNat a.cursor ∧ Int64.ofInt v % 4 = 0 ∧
        (a.feed line.2 line.1).1.cursor = (Int64.ofInt v).toUInt64.toNat := by
  match operands with
  | [] => exact .inl (by rw [feed_enter_nil line.2 hs])
  | [operand] =>
    cases hv : Literal.value? operand with
    | none => exact .inl (by rw [feed_enter_notAddress line.2 hs hv])
    | some v =>
      rw [feed_enter line.2 hs hv]
      split
      · exact .inl rfl
      next hlt =>
        split
        · exact .inl rfl
        next h4 => exact .inr ⟨operand, v, rfl, hv, hlt, Decidable.not_not.1 h4, rfl⟩
  | _ :: _ :: _ => exact .inl (by rw [feed_enter_many line.2 hs])

theorem toNat_toUInt64_of_value? {operand : List Char} {v : Int}
    (hv : Literal.value? operand = some v) :
    ((Int64.ofInt v).toUInt64.toNat : Int) = if v < 0 then v + 2 ^ 64 else v := by
  have hp := toInt_eq_toNat_toUInt64 (Int64.ofInt v)
  rw [toInt_ofInt_of_value? hv] at hp
  have := (Int64.ofInt v).toUInt64.toNat_lt
  split at hp <;> split <;> omega

theorem cursor_feed_lt_iff {a : Assembler} {line : List Char × Nat} (hc : a.cursor < 2 ^ 64) :
    (a.feed line.2 line.1).1.cursor < a.cursor ↔
      2 ^ 63 ≤ a.cursor ∧ ∃ kind operand v,
        Statement.ofLine a.current line.1 = .enter kind [operand] ∧
        Literal.value? operand = some v ∧ 0 ≤ v ∧ v % 4 = 0 := by
  constructor
  · intro hlt
    by_cases hs : ∃ kind operands, Statement.ofLine a.current line.1 = .enter kind operands
    · obtain ⟨kind, operands, hs⟩ := hs
      rcases cursor_feed_enter hs with h | ⟨operand, v, rfl, hv, hge, h4, h⟩
      · omega
      · have address := toNat_toUInt64_of_value? hv
        rw [lt_cursor_iff hv hc] at hge
        rw [mod_four_eq_zero_iff, toInt_ofInt_of_value? hv] at h4
        rw [h] at hlt
        refine ⟨?_, kind, operand, v, hs, hv, ?_, h4⟩
        all_goals split at hge <;> split at address <;> omega
    · have := cursor_feed fun kind operands h => hs ⟨kind, operands, h⟩
      omega
  · rintro ⟨hge, kind, operand, v, hs, hv, h0, h4⟩
    have small := Literal.natAbs_lt_of_value? hv
    have address := toNat_toUInt64_of_value? hv
    rw [if_neg (by omega)] at address
    rw [feed_enter line.2 hs hv, if_neg, if_neg]
    · dsimp only
      omega
    · rw [Decidable.not_not, mod_four_eq_zero_iff, toInt_ofInt_of_value? hv]
      exact h4
    · rw [lt_cursor_iff hv hc]
      split <;> omega

theorem not_cursor_feed_lt {a : Assembler} {line : List Char × Nat} (hc : a.cursor < 2 ^ 64)
    (hr : ¬ a.Rewinds line.1) : a.cursor ≤ (a.feed line.2 line.1).1.cursor := by
  refine Nat.not_lt.1 fun h => ?_
  obtain ⟨hge, kind, operand, v, hs, hv, h0, -⟩ := (cursor_feed_lt_iff hc).1 h
  exact hr ⟨hge, kind, operand, v, hs, hv, by omega⟩

theorem mod_four_cursor_feed {a : Assembler} (line : List Char × Nat) (h : a.cursor % 4 = 0) :
    (a.feed line.2 line.1).1.cursor % 4 = 0 := by
  by_cases hs : ∃ kind operands, Statement.ofLine a.current line.1 = .enter kind operands
  · obtain ⟨kind, operands, hs⟩ := hs
    rcases cursor_feed_enter hs with he | ⟨operand, v, -, hv, hge, h4, he⟩
    · rw [he, h]
    · rw [he]
      exact SectionStart.mod_four (.inr ⟨Int64.ofInt v, hge, h4, rfl⟩) h
  · rw [cursor_feed fun kind operands he => hs ⟨kind, operands, he⟩]
    omega

/-- A line that does not rewind keeps the rows in order. -/
theorem ordered_feed {a : Assembler} {line : List Char × Nat} (ha : a.Ordered)
    (hc : a.cursor < 2 ^ 64) (hr : ¬ a.Rewinds line.1) : (a.feed line.2 line.1).1.Ordered := by
  have le := not_cursor_feed_lt hc hr
  have rows := congrArg (List.map Row.addr) (run_feed a line).rows_eq
  rw [List.map_append, map_addr_rowsFrom, emissions, map_addr_place] at rows
  have bound : ∀ r ∈ List.range' a.cursor (a.contents line.1).length 4,
      a.cursor ≤ r ∧ r < (a.feed line.2 line.1).1.cursor := by
    intro r hr
    obtain ⟨i, hi, rfl⟩ := List.mem_range'.1 hr
    by_cases hs : ∃ kind operands, Statement.ofLine a.current line.1 = .enter kind operands
    · obtain ⟨kind, operands, hs⟩ := hs
      simp [contents_of_enter hs] at hi
    · have := cursor_feed fun kind operands he => hs ⟨kind, operands, he⟩
      omega
  refine ⟨mod_four_cursor_feed line ha.aligned, ?_, ?_⟩
  · rw [← List.pairwise_map (R := (· < ·)), rows, List.pairwise_append]
    refine ⟨List.pairwise_map.2 ha.increasing, List.pairwise_lt_range' _ (by omega), ?_⟩
    intro x hx y hy
    obtain ⟨r, hr, rfl⟩ := List.mem_map.1 hx
    exact Nat.lt_of_lt_of_le (ha.below r hr) (bound y hy).1
  · intro r hr
    have hm : r.addr ∈ (a.feed line.2 line.1).1.rows.toList.map Row.addr :=
      List.mem_map_of_mem hr
    rw [rows] at hm
    rcases List.mem_append.1 hm with hx | hx
    · obtain ⟨s, hs, he⟩ := List.mem_map.1 hx
      rw [← he]
      exact Nat.lt_of_lt_of_le (ha.below s hs) le
    · exact (bound _ hx).2

theorem ordered_empty : Ordered {} := ⟨rfl, .nil, fun _ h => by simp at h⟩

/-- The state in front of each line is in order as long as no line rewinds. -/
theorem ordered_feedAll_take {lines : List (List Char × Nat)}
    (hc : ∀ k ≤ lines.length, (feedAll {} (lines.take k)).cursor < 2 ^ 64)
    (hr : ∀ k line, lines[k]? = some line → ¬ (feedAll {} (lines.take k)).Rewinds line.1) :
    ∀ k ≤ lines.length, (feedAll {} (lines.take k)).Ordered
  | 0, _ => ordered_empty
  | k + 1, hk => by
    have hl := List.getElem?_eq_getElem (Nat.lt_of_succ_le hk)
    rw [List.take_add_one, hl, Option.toList_some, feedAll_concat]
    have before := ordered_feedAll_take hc hr k (Nat.le_of_succ_le hk)
    exact ordered_feed before (hc k (Nat.le_of_succ_le hk)) (hr k _ hl)

/-- The law of the cursor holds along lines exactly when none of them rewinds the cursor.  The lines
that move the cursor back are the section directives with an address, whatever it is, in front of
which the cursor has reached `2 ^ 63`. -/
theorem advances_iff_not_rewinds (lines : List (List Char × Nat))
    (hc : ∀ k ≤ lines.length, (feedAll {} (lines.take k)).cursor < 2 ^ 64) :
    ((∀ k line, lines[k]? = some line → (feedAll {} (lines.take k)).Advances line) ↔
      ∀ k line, lines[k]? = some line → ¬ (feedAll {} (lines.take k)).Rewinds line.1) ∧
    ∀ k line, lines[k]? = some line →
      let a := feedAll {} (lines.take k)
      ((a.feed line.2 line.1).1.cursor < a.cursor ↔
        2 ^ 63 ≤ a.cursor ∧ ∃ kind operand v,
          Statement.ofLine a.current line.1 = .enter kind [operand] ∧
          Literal.value? operand = some v ∧ 0 ≤ v ∧ v % 4 = 0) := by
  have inRange {k : Nat} {line : List Char × Nat} (hl : lines[k]? = some line) :
      k ≤ lines.length ∧ (feedAll {} (lines.take k)).cursor < 2 ^ 64 := by
    have hk := (List.getElem?_eq_some_iff.1 hl).1
    exact ⟨Nat.le_of_lt hk, hc k (Nat.le_of_lt hk)⟩
  refine ⟨⟨fun h k line hl hr => ?_, fun hr k line hl => ?_⟩, fun k line hl => ?_⟩
  · obtain ⟨hge, kind, operand, v, hs, hv, hle⟩ := hr
    have small := Literal.natAbs_lt_of_value? hv
    have refused := (h k line hl).refused kind operand v hs hv (by omega)
    rw [feed_enter line.2 hs hv, if_neg] at refused
    · split at refused <;> simp at refused
    · rw [lt_cursor_iff hv (inRange hl).2]
      split <;> omega
  · have before := ordered_feedAll_take hc hr k (inRange hl).1
    have after := ordered_feed before (inRange hl).2 (hr k line hl)
    exact ⟨after.aligned, not_cursor_feed_lt (inRange hl).2 (hr k line hl),
      fun kind operand v hs hv => feed_backward (inRange hl).2 (hr k line hl) hs hv,
      after.increasing⟩
  · exact cursor_feed_lt_iff (inRange hl).2

/-- Three lines of which the last moves the cursor from `2 ^ 63` back to 0. -/
def rewindingLines : List (List Char × Nat) :=
  [(".code 0x7ffffffffffffffc".toList, 1), ("Sync".toList, 2), (".code 0".toList, 3)]

theorem advances_iff_rewindingLines :
    (∀ k ≤ rewindingLines.length, (feedAll {} (rewindingLines.take k)).cursor < 2 ^ 64) ∧
      ¬ ∀ k line, rewindingLines[k]? = some line →
        (feedAll {} (rewindingLines.take k)).Advances line := by
  have hc : ∀ k ≤ rewindingLines.length, (feedAll {} (rewindingLines.take k)).cursor < 2 ^ 64 := by
    decide +kernel
  refine ⟨hc, fun h => (advances_iff_not_rewinds rewindingLines hc).1.1 h 2 _ rfl ?_⟩
  exact ⟨by decide +kernel, .code, "0".toList, 0, by decide +kernel, by decide +kernel,
    by decide +kernel⟩

/-- Not all lines obey the law of the cursor. -/
theorem not_forall_advances :
    ¬ ∀ lines : List (List Char × Nat),
      (∀ k ≤ lines.length, (feedAll {} (lines.take k)).cursor < 2 ^ 64) →
        ∀ k line, lines[k]? = some line → (feedAll {} (lines.take k)).Advances line := by
  intro h
  have le := (h rewindingLines (by decide +kernel) 2 _ rfl).le
  exact absurd le (by decide +kernel)

end Assembler

end Macc
