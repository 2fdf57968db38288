import Mathlib.Data.Nat.Digits.Defs
import Macc.Machine.Region
import Macc.Proofs.Image.WordAccess
import Macc.Proofs.Text.Words

/-!
# Dumps of memory

The rows of a dump are text, and their cells are found in it again: they are the words behind the
address and the colon (`rowCells`).  Cells are numbered through all rows, so that a row begins where
the one in front of it ends and the last one is cut off with the region (`flatMap_cellOffsets`).
Each of them describes the memory at its address (`Image.Describes`), and no two cells have a byte
in common, although addresses wrap around (`Region.existsUnique_cell`).  `Image.cells_regionLines`
says all of this of the printed text.
-/

namespace Macc

open Text

/-! ### Digits -/

namespace Text

/-- Hexadecimal digits of a number, as many as the width. -/
structure IsHex (width n : Nat) (text : String) : Prop where
  length : text.length = width
  value : readNat? 16 text.toList = some n

theorem isHex_hex {width n : Nat} (hw : 0 < width) (h : n < 16 ^ width) :
    IsHex width n (hex width n) where
  length := by
    rw [← String.length_toList, toList_hex, hexDigits, List.length_leftpad]
    exact Nat.max_eq_left (Nat.toDigits_length 16 n width hw h)
  value := by rw [toList_hex, readNat?_hexDigits]

theorem not_mem_hex (width n : Nat) {c : Char} (h : ¬ c.isAlphanum) :
    c ∉ (hex width n).toList := by
  rw [toList_hex]
  exact (isToken_hexDigits width n).not_mem h

theorem isWord_hex (width n : Nat) : IsWord (hex width n).toList := by
  rw [toList_hex]
  exact (isToken_hexDigits width n).isWord

end Text

/-! ### Cells -/

theorem Style.isWord_paint (s : Style) {text : String} (h : IsWord text.toList) :
    IsWord (s.paint text).toList := by
  rw [paint, String.toList_append, String.toList_append]
  refine ⟨by simp [h.ne_nil], ?_⟩
  simp only [List.forall_mem_append]
  refine ⟨⟨?on, h.nonblank⟩, ?off⟩
  case on => cases s <;> simp [on, onCode, isAsciiBlank]
  case off => cases s <;> simp [off, offCode, isAsciiBlank]

namespace Image

variable (m : Image) (a : Address)

/-- What a cell says about a byte: its two digits, or dashes if it is not defined. -/
structure DescribesByte (cell : String) : Prop where
  dashes_iff : cell = "--" ↔ m.isDefined a = false
  digits : m.isDefined a → IsHex 2 (m.byte a).toNat cell

/-- What a cell says about a word: its eight digits, dimmed if its first byte is not defined. -/
structure DescribesWord (cell : String) : Prop where
  dimmed_iff : (∃ text, cell = Style.dim.paint text) ↔ m.isDefined a = false
  digits : ∃ text, IsHex 8 (m.littleEndian a 4) text ∧
    cell = if m.isDefined a then text else Style.dim.paint text

/-- What a cell says about an address, word by word or byte by byte. -/
def Describes (words : Bool) (cell : String) : Prop :=
  if words then m.DescribesWord a cell else m.DescribesByte a cell

theorem describesByte_byteCell : m.DescribesByte a (m.byteCell a) := by
  unfold byteCell
  cases defined : m.isDefined a with
  | false => exact ⟨iff_of_true rfl defined, fun h => absurd (defined.symm.trans h) (by decide)⟩
  | true =>
    have notDashes : hex 2 (m.byte a).toNat ≠ "--" := fun h =>
      not_mem_hex 2 (m.byte a).toNat (c := '-') (by decide) (h ▸ by decide)
    refine ⟨iff_of_false notDashes (by simp [defined]), fun _ => ?_⟩
    exact isHex_hex (by decide) (m.byte a).isLt

theorem describesWord_wordCell : m.DescribesWord a (m.wordCell a) := by
  have digits : IsHex 8 (m.littleEndian a 4) (hex 8 (m.word a).toNat) := by
    rw [← toNat_word]
    exact isHex_hex (by decide) (m.word a).isLt
  unfold wordCell
  dsimp only
  cases defined : m.isDefined a with
  | false =>
    refine ⟨iff_of_true ⟨_, rfl⟩ defined, _, digits, ?_⟩
    rw [defined]
  | true =>
    have plain : ¬ ∃ text, hex 8 (m.word a).toNat = Style.dim.paint text := fun ⟨text, h⟩ =>
      not_mem_hex 8 (m.word a).toNat (c := '\x1b') (by decide)
        (h ▸ by simp [Style.paint, Style.on])
    refine ⟨iff_of_false plain (by simp [defined]), _, digits, ?_⟩
    rw [defined]

/-- The cell of a region at an offset. -/
def cell (r : Region) (offset : Nat) : String :=
  if r.words then m.wordCell (r.address offset) else m.byteCell (r.address offset)

theorem describes_cell (r : Region) (offset : Nat) :
    m.Describes (r.address offset) r.words (m.cell r offset) := by
  unfold Describes cell
  cases r.words with
  | false => exact m.describesByte_byteCell _
  | true => exact m.describesWord_wordCell _

theorem isWord_cell (r : Region) (offset : Nat) : IsWord (m.cell r offset).toList := by
  unfold cell wordCell byteCell
  dsimp only
  split <;> split
  · exact isWord_hex _ _
  · exact Style.dim.isWord_paint (isWord_hex _ _)
  · exact isWord_hex _ _
  · exact ⟨by simp, by simp [isAsciiBlank]⟩

end Image

/-! ### Offsets -/

/-- Numbers row by row, with `b` of them in each. -/
theorem flatMap_range_row (b q : Nat) :
    (List.range q).flatMap (fun j => (List.range b).map (b * j + ·)) = List.range (b * q) := by
  induction q with
  | zero => rfl
  | succ q ih =>
    rw [List.range_succ, List.flatMap_append, List.flatMap_singleton, ih, Nat.mul_succ,
      List.range_add]

theorem filter_lt_range {c n : Nat} (h : c ≤ n) :
    (List.range n).filter (· < c) = List.range c := by
  obtain ⟨d, rfl⟩ := Nat.exists_eq_add_of_le h
  have low : (List.range c).filter (· < c) = List.range c :=
    List.filter_eq_self.2 fun k hk => decide_eq_true (List.mem_range.1 hk)
  have high : ((List.range d).map (c + ·)).filter (· < c) = [] := by
    simp
  rw [List.range_add, List.filter_append, low, high, List.append_nil]

namespace Region

variable (r : Region)

/-- The number of cells. -/
def cellCount : Nat := (r.size + r.stride - 1) / r.stride

/-- The number of cells in a row that is not cut off. -/
def rowLength : Nat := 16 / r.stride

theorem stride_cases : r.stride = 1 ∨ r.stride = 4 := by
  unfold stride
  cases r.words with
  | false => exact .inl rfl
  | true => exact .inr rfl

theorem rowLength_mul_stride : r.rowLength * r.stride = 16 := by
  rcases r.stride_cases with h | h <;> rw [rowLength, h]

theorem mul_stride_lt_size_iff (k : Nat) : k * r.stride < r.size ↔ k < r.cellCount := by
  rcases r.stride_cases with h | h <;> rw [cellCount, h] <;> omega

/-- The cells of a row, numbered through all rows. -/
theorem cellOffsets_row (j : Nat) :
    r.cellOffsets (16 * j) =
      (((List.range r.rowLength).map (r.rowLength * j + ·)).filter (· < r.cellCount)).map
        (· * r.stride) := by
  have offset (i : Nat) : 16 * j + r.stride * i = (r.rowLength * j + i) * r.stride := by
    rw [Nat.add_mul, Nat.mul_right_comm, rowLength_mul_stride, Nat.mul_comm i]
  simp only [cellOffsets, offset, List.filter_map, List.map_map, Function.comp_def,
    mul_stride_lt_size_iff]
  rfl

/-- The rows have all cells, each of them once and in order. -/
theorem flatMap_cellOffsets :
    r.rowOffsets.flatMap r.cellOffsets = (List.range r.cellCount).map (· * r.stride) := by
  have enough : r.cellCount ≤ r.rowLength * ((r.size + 15) / 16) := by
    rcases r.stride_cases with h | h <;> rw [cellCount, rowLength, h] <;> omega
  simp only [rowOffsets, List.flatMap_map, cellOffsets_row]
  rw [← List.map_flatMap, ← List.filter_flatMap, flatMap_range_row, filter_lt_range enough]

theorem length_cellOffsets_le (j : Nat) : (r.cellOffsets (16 * j)).length ≤ r.rowLength := by
  rw [cellOffsets_row, List.length_map]
  exact (List.length_filter_le _ _).trans_eq (by simp)

/-- Only the last row is cut off. -/
theorem length_cellOffsets_of_lt {j : Nat} (h : j + 1 < (r.size + 15) / 16) :
    (r.cellOffsets (16 * j)).length = r.rowLength := by
  have full (i : Nat) (hi : i < r.rowLength) : r.rowLength * j + i < r.cellCount := by
    rcases r.stride_cases with hs | hs <;> rw [rowLength, hs] at hi ⊢ <;> rw [cellCount, hs] <;>
      omega
  rw [cellOffsets_row, List.length_map, List.filter_eq_self.2]
  · simp
  · simpa using full

theorem size_le : r.size ≤ memorySize := Nat.min_le_right _ _

/-- How far an address lies behind an offset, around the end of memory. -/
theorem toNat_sub_address (x : Address) {offset : Nat} (h : offset < memorySize) :
    (x - r.address offset).toNat =
      ((x - r.address 0).toNat + (memorySize - offset)) % memorySize := by
  have split : x - r.address offset = x - r.address 0 - .ofNat 17 offset := by
    rw [address, address, Nat.add_zero, BitVec.ofNat_add, BitVec.sub_sub]
  rw [memorySize] at h ⊢
  rw [split, BitVec.toNat_sub, BitVec.toNat_ofNat, Nat.mod_eq_of_lt h, Nat.add_comm]

/-- Each byte of a region is in one of its cells, and in no other. -/
theorem existsUnique_cell {x : Address} (h : (x - r.address 0).toNat < r.size) :
    ∃! k, k < r.cellCount ∧ (x - r.address (k * r.stride)).toNat < r.stride := by
  have size := r.size_le
  have behind {k : Nat} (hk : k * r.stride < r.size) := r.toNat_sub_address x (hk.trans_le size)
  simp only [← mul_stride_lt_size_iff]
  generalize (x - r.address 0).toNat = distance at h behind
  rw [memorySize] at size behind
  have inside : distance / r.stride * r.stride < r.size := (Nat.div_mul_le_self _ _).trans_lt h
  -- a region is no longer than memory, so the distance to a cell behind the byte is too large
  refine ⟨distance / r.stride, ⟨inside, ?_⟩, ?_⟩
  · rw [behind inside]
    rcases r.stride_cases with hs | hs <;> rw [hs] <;> omega
  · rintro k ⟨hk, near⟩
    rw [behind hk] at near
    rcases r.stride_cases with hs | hs <;> rw [hs] at near hk ⊢ <;> omega

end Region

/-! ### Rows -/

/-- The cells that a row shows: its words behind the address and the colon. -/
def rowCells (row : String) : List String :=
  ((words isAsciiBlank row.toList).drop 2).map String.ofList

theorem rowCells_row {front : String} {cells : List String} (hf : IsWord front.toList)
    (hc : ∀ c ∈ cells, IsWord c.toList) :
    rowCells (front ++ " : " ++ " ".intercalate cells) = cells := by
  have text : (front ++ " : " ++ " ".intercalate cells).toList =
      front.toList ++ ' ' :: ([':'] ++ ' ' :: [' '].intercalate (cells.map String.toList)) := by
    rw [String.toList_append, String.toList_append, String.toList_intercalate, List.append_assoc]
    rfl
  have colon : IsWord [':'] := ⟨by simp, by simp [isAsciiBlank]⟩
  rw [rowCells, text, words_append_cons (by decide), words_append_cons (by decide), hf.words_eq,
    colon.words_eq, words_intercalate_space (List.forall_mem_map.2 hc)]
  simp

namespace Image

variable (m : Image) (r : Region)

/-- The row of a region that begins at an offset. -/
def row (offset : Nat) : String :=
  hex 5 (r.address offset).toNat ++ " : " ++
    " ".intercalate ((r.cellOffsets offset).map (m.cell r))

theorem regionLines_eq :
    m.regionLines r = (List.range ((r.size + 15) / 16)).map fun j => m.row r (16 * j) :=
  List.map_map

theorem rowCells_row_eq (offset : Nat) :
    rowCells (m.row r offset) = (r.cellOffsets offset).map (m.cell r) :=
  rowCells_row (isWord_hex _ _) (List.forall_mem_map.2 fun _ _ => m.isWord_cell r _)

/-- A row begins with the address of its first cell. -/
theorem exists_row_eq (offset : Nat) :
    ∃ front, IsHex 5 ((r.addr + offset) % 2 ^ 17) front ∧
      m.row r offset = front ++ " : " ++ " ".intercalate (rowCells (m.row r offset)) := by
  refine ⟨hex 5 (r.address offset).toNat, ?_, ?_⟩
  · rw [Region.address, BitVec.toNat_ofNat]
    exact isHex_hex (by decide) (by omega)
  · rw [rowCells_row_eq, row]

/-- The cells of all rows, in order. -/
theorem flatMap_rowCells :
    (m.regionLines r).flatMap rowCells =
      (List.range r.cellCount).map fun k => m.cell r (k * r.stride) := by
  have rows : m.regionLines r = r.rowOffsets.map (m.row r) := rfl
  rw [rows, List.flatMap_map]
  simp only [rowCells_row_eq]
  rw [← List.map_flatMap, Region.flatMap_cellOffsets, List.map_map]
  rfl

/-- A region that is cut to the size of memory has a row for each sixteen bytes of it.  A row begins
with its address in five digits, and all rows but the last have as many cells as go into sixteen
bytes.  Through all rows there are as many cells as cover the region, each describes its own
address, and each byte of the region is in one cell and no other. -/
theorem cells_regionLines (m : Image) (r : Region) :
    let n := min r.len 0x20000
    let step := if r.words then 4 else 1
    let address (k : Nat) : Address := .ofNat 17 (r.addr + k * step)
    let lines := m.regionLines r
    let cells := lines.flatMap rowCells
    lines.length = (n + 15) / 16 ∧
    (∀ j line, lines[j]? = some line →
      (∃ front, IsHex 5 ((r.addr + 16 * j) % 2 ^ 17) front ∧
        line = front ++ " : " ++ " ".intercalate (rowCells line)) ∧
      (rowCells line).length ≤ 16 / step ∧
      (j + 1 < lines.length → (rowCells line).length = 16 / step)) ∧
    cells.length = (n + step - 1) / step ∧
    (∀ k cell, cells[k]? = some cell → m.Describes (address k) r.words cell) ∧
    ∀ x : Address, (x - .ofNat 17 r.addr).toNat < n →
      ∃! k, k < cells.length ∧ (x - address k).toNat < step := by
  intro n step address lines cells
  have all : cells = (List.range r.cellCount).map fun k => m.cell r (k * r.stride) :=
    m.flatMap_rowCells r
  have count : cells.length = r.cellCount := by rw [all, List.length_map, List.length_range]
  refine ⟨m.length_regionLines r, fun j line hline => ?row, count, fun k cell hcell => ?cell,
    fun x hx => ?once⟩
  case row =>
    have hj : (m.regionLines r)[j]? = some line := hline
    rw [regionLines_eq] at hj
    obtain ⟨-, rfl⟩ := List.getElem?_eq_some_iff.1 hj
    rw [List.getElem_map, List.getElem_range]
    refine ⟨m.exists_row_eq r _, ?_, fun hj => ?_⟩
    · rw [rowCells_row_eq, List.length_map]
      exact r.length_cellOffsets_le j
    · rw [m.length_regionLines r] at hj
      rw [rowCells_row_eq, List.length_map]
      exact r.length_cellOffsets_of_lt hj
  case cell =>
    rw [all] at hcell
    obtain ⟨hk, rfl⟩ := List.getElem?_eq_some_iff.1 hcell
    rw [List.getElem_map, List.getElem_range]
    exact m.describes_cell r _
  case once =>
    rw [count]
    exact r.existsUnique_cell hx

/-- Memory with a word across its end. -/
def wordAcrossTheEnd : Image := empty.setWord 0x1fffe 0xdeadbeef

theorem cells_regionLines_acrossTheEnd :
    ∃ line first second third,
      wordAcrossTheEnd.regionLines ⟨0xfffffffa, 9, true⟩ = [line] ∧
      (∃ front, IsHex 5 0x1fffa front ∧
        line = front ++ " : " ++ " ".intercalate [first, second, third]) ∧
      IsHex 8 0xdeadbeef second ∧ ∃ text, third = Style.dim.paint text := by
  obtain ⟨rows, row, count, describes, -⟩ :=
    cells_regionLines wordAcrossTheEnd ⟨0xfffffffa, 9, true⟩
  obtain ⟨line, only⟩ := List.length_eq_one_iff.1 rows
  rw [only, List.flatMap_singleton] at count describes
  obtain ⟨first, second, third, cells⟩ := List.length_eq_three.1 count
  rw [cells] at describes
  have front := (row 0 line (by rw [only]; rfl)).1
  rw [cells] at front
  have word : wordAcrossTheEnd.DescribesWord 0x1fffe second := describes 1 second rfl
  have behind : wordAcrossTheEnd.DescribesWord 2 third := describes 2 third rfl
  have defined (x : Address) : wordAcrossTheEnd.isDefined x ↔ InWord 0x1fffe x := by
    rw [wordAcrossTheEnd, (writtenAt_setWord _ _ _).isDefined, isDefined_empty]
    exact or_iff_left Bool.false_ne_true
  refine ⟨line, first, second, third, only, front, ?_, ?_⟩
  · obtain ⟨text, digits, bright⟩ := word.digits
    rw [← toNat_word, wordAcrossTheEnd, word_setWord] at digits
    rw [bright, if_pos ((defined 0x1fffe).2 (by unfold InWord; decide))]
    exact digits
  · refine behind.dimmed_iff.2 (Bool.eq_false_iff.2 ?_)
    rw [Ne, defined]
    unfold InWord
    decide

end Image

end Macc
