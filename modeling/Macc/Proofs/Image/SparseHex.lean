import Macc.Image.Hex
import Macc.Proofs.Image.Words
import Macc.Proofs.Text.ReadBack

/-!
# Sparse hex text reads back

The lines of a section say where the section begins and what its bytes are (`HexSection.items`),
however the bytes are spread over rows.  So a written text says no more than which byte is at which
listed address (`cells_sections`), and reading it puts these bytes into an empty image
(`Image.exists_ofHex_toHex`).
-/

namespace Macc

open Text

/-! ### Lines -/

namespace HexSection

/-- What the lines of a section say. -/
def items (s : HexSection) : List HexItem := .origin s.start :: s.bytes.map .byte

theorem toList_origin (start : Nat) : ("@" ++ hex 5 start).toList = '@' :: hexDigits 5 start := by
  rw [String.toList_append, toList_hex]
  rfl

theorem toList_row (row : List Byte) :
    (" ".intercalate (row.map fun b => hex 2 b.toNat)).toList =
      [' '].intercalate (row.map fun b => hexDigits 2 b.toNat) := by
  rw [String.toList_intercalate, List.map_map]
  simp only [Function.comp_def, toList_hex]
  rfl

theorem isToken_of_mem_row (row : List Byte) :
    ∀ w ∈ row.map fun b => hexDigits 2 b.toNat, IsToken w :=
  List.forall_mem_map.2 fun b _ => isToken_hexDigits 2 b.toNat

theorem ofLine_origin (number : Nat) {start : Nat} (h : start < UInt64.size) :
    HexItem.ofLine number ("@" ++ hex 5 start).toList = [.origin start] := by
  have trimmed : IsTrimmed ('@' :: hexDigits 5 start) := by
    have digits := isToken_hexDigits 5 start
    refine ⟨List.cons_ne_nil _ _, by simp [isBlank], ?_⟩
    rw [List.getLast?_cons_of_ne_nil digits.ne_nil]
    exact digits.isTrimmed.last
  rw [toList_origin, HexItem.ofLine, trimmed.trim_eq]
  dsimp only
  rw [List.head?_cons, if_pos rfl, List.tail_cons, readBounded?_hexDigits 5 h, Option.map_some,
    Option.getD_some]

theorem ofLine_row (number : Nat) (row : List Byte) :
    HexItem.ofLine number (" ".intercalate (row.map fun b => hex 2 b.toNat)).toList =
      row.map .byte := by
  rw [toList_row]
  cases row with
  | nil => rfl
  | cons b row =>
    have tokens := isToken_of_mem_row (b :: row)
    have trimmed := isTrimmed_intercalate (by simp) [' '] tokens
    have unmarked : ([' '].intercalate ((b :: row).map fun b => hexDigits 2 b.toNat)).head? ≠
        some '@' := by
      intro hc
      refine forall_mem_intercalate (P := (· ≠ '@')) (by simp) ?_ _ (List.mem_of_head? hc) rfl
      rintro w hw _ hm rfl
      exact (tokens w hw).not_mem (by decide) hm
    rw [HexItem.ofLine, trimmed.trim_eq]
    dsimp only
    rw [if_neg unmarked, words_intercalate tokens, List.map_map]
    refine List.map_congr_left fun b _ => ?_
    rw [Function.comp_apply, readBounded?_hexDigits 2 b.isLt, Option.map_some, Option.getD_some,
      BitVec.ofNat_toNat, BitVec.setWidth_eq]

theorem isLine_of_mem_lines {style : HexStyle} {s : HexSection} :
    ∀ l ∈ s.lines style, IsLine l.toList := by
  refine List.forall_mem_cons.2 ⟨?_, List.forall_mem_map.2 fun row _ => ?_⟩
  · rw [toList_origin]
    exact List.forall_mem_cons.2 ⟨by decide, (isToken_hexDigits 5 _).isLine⟩
  · rw [toList_row]
    exact isLine_intercalate (by simp [IsLine]) fun w hw => (isToken_of_mem_row row w hw).isLine

/-- The lines of a section are well-formed, whatever their numbers. -/
theorem ofLine_eq_of_mem_lines {style : HexStyle} {s : HexSection} (h : s.start < UInt64.size) :
    ∀ l ∈ s.lines style, ∀ number,
      HexItem.ofLine number l.toList = HexItem.ofLine 0 l.toList := by
  refine List.forall_mem_cons.2 ⟨fun number => ?_, List.forall_mem_map.2 fun row _ number => ?_⟩
  · rw [ofLine_origin number h, ofLine_origin 0 h]
  · rw [ofLine_row number row, ofLine_row 0 row]

theorem rowLength_ne_zero (style : HexStyle) : style.rowLength ≠ 0 := by
  cases style <;> decide

/-- The rows of a section say no more than its bytes. -/
theorem flatMap_ofLine_lines (style : HexStyle) {s : HexSection} (h : s.start < UInt64.size) :
    (s.lines style).flatMap (fun l => HexItem.ofLine 0 l.toList) = s.items := by
  have rows : (rows style.rowLength s.bytes).flatMap (fun row => row.map HexItem.byte) =
      s.bytes.map .byte := by
    rw [List.flatMap_def, ← List.map_flatten, flatten_rows (rowLength_ne_zero style)]
  rw [lines, List.flatMap_cons, ofLine_origin 0 h, List.flatMap_map, items, ← rows]
  simp only [ofLine_row, List.singleton_append]

end HexSection

theorem HexItem.ofText_of_forall_ofLine_eq {text : List Char}
    (h : ∀ l ∈ Text.lines text, ∀ number, ofLine number l = ofLine 0 l) :
    ofText text = (Text.lines text).flatMap (ofLine 0) := by
  have unnumbered : ∀ l ∈ (Text.lines text).zipIdx 1, ofLine l.2 l.1 = ofLine 0 l.1 :=
    fun l hl => h l.1 (List.fst_mem_of_mem_zipIdx hl) l.2
  calc ofText text
      = ((Text.lines text).zipIdx 1).flatMap (fun l => ofLine l.2 l.1) := rfl
    _ = ((Text.lines text).zipIdx 1).flatMap (fun l => ofLine 0 l.1) := by
        rw [List.flatMap_def, List.flatMap_def, List.map_congr_left unnumbered]
    _ = (((Text.lines text).zipIdx 1).map Prod.fst).flatMap (ofLine 0) := by
        rw [List.flatMap_map]
    _ = (Text.lines text).flatMap (ofLine 0) := by rw [List.zipIdx_map_fst]

/-- The text of sections says what the sections say. -/
theorem HexItem.ofText_unlines {style : HexStyle} {ss : List HexSection}
    (h : ∀ s ∈ ss, s.start < UInt64.size) :
    ofText (unlines (ss.flatMap (HexSection.lines style))).toList =
      ss.flatMap HexSection.items := by
  have unbroken : ∀ l ∈ ss.flatMap (HexSection.lines style), IsUnbroken l.toList := by
    intro l hl
    obtain ⟨s, -, hl⟩ := List.mem_flatMap.1 hl
    exact (HexSection.isLine_of_mem_lines l hl).isUnbroken
  have numberless : ∀ l ∈ (ss.flatMap (HexSection.lines style)).map String.toList, ∀ number,
      ofLine number l = ofLine 0 l := by
    refine List.forall_mem_map.2 fun l hl => ?_
    obtain ⟨s, hs, hl⟩ := List.mem_flatMap.1 hl
    exact HexSection.ofLine_eq_of_mem_lines (h s hs) l hl
  have read := lines_unlines unbroken
  rw [ofText_of_forall_ofLine_eq (read ▸ numberless), read, List.flatMap_map, List.flatMap_assoc,
    List.flatMap_def, List.flatMap_def,
    List.map_congr_left fun s hs => HexSection.flatMap_ofLine_lines style (h s hs)]

/-! ### Sections -/

/-- Bytes with their addresses, from an address on. -/
def cellsFrom (addr : Nat) : List Byte → List (Nat × Byte)
  | [] => []
  | b :: bs => (addr, b) :: cellsFrom (addr + 1) bs

namespace HexSection

/-- The bytes of a section with their addresses. -/
def cells (s : HexSection) : List (Nat × Byte) := cellsFrom s.start s.bytes

theorem cells_cons (n : Nat) (b : Byte) (ss : List HexSection) :
    (cons n b ss).flatMap cells = (n, b) :: ss.flatMap cells := by
  cases ss with
  | nil => rfl
  | cons s ss =>
    rw [cons]
    split
    next h => rw [List.flatMap_cons, List.flatMap_cons, cells, cells, h]; rfl
    next => rfl

theorem start_of_mem_cons {n : Nat} {b : Byte} {ss : List HexSection} :
    ∀ s ∈ cons n b ss, s.start = n ∨ ∃ t ∈ ss, t.start = s.start := by
  cases ss with
  | nil => simp [cons]
  | cons t ss =>
    rw [cons]
    split
    · exact List.forall_mem_cons.2 ⟨.inl rfl, fun s hs => .inr ⟨s, .tail _ hs, rfl⟩⟩
    · exact List.forall_mem_cons.2 ⟨.inl rfl, fun s hs => .inr ⟨s, hs, rfl⟩⟩

end HexSection

namespace Image

/-- The addresses that a style lists, in order. -/
def listed (m : Image) (style : HexStyle) : List Nat :=
  (List.range memorySize).filter (m.lists style)

theorem mem_listed_iff {m : Image} {style : HexStyle} {n : Nat} :
    n ∈ m.listed style ↔ n < memorySize ∧ m.lists style n := by
  rw [listed, List.mem_filter, List.mem_range]

/-- The sections hold the bytes at the listed addresses, each once and in order. -/
theorem cells_sections (m : Image) (style : HexStyle) :
    (m.sections style).flatMap HexSection.cells =
      (m.listed style).map fun n => (n, m.byte (.ofNat 17 n)) := by
  rw [sections, listed]
  induction List.range memorySize with
  | nil => rfl
  | cons n ns ih =>
    rw [List.foldr_cons, List.filter_cons]
    split
    next => rw [HexSection.cells_cons, ih, List.map_cons]
    next => exact ih

theorem start_lt_of_mem_sections {m : Image} {style : HexStyle} :
    ∀ s ∈ m.sections style, s.start < memorySize := by
  have within (ns : List Nat) (h : ∀ n ∈ ns, n < memorySize) :
      ∀ s ∈ ns.foldr (fun n rest =>
        if m.lists style n then HexSection.cons n (m.byte (.ofNat 17 n)) rest else rest) [],
        s.start < memorySize := by
    induction ns with
    | nil => exact fun s hs => by cases hs
    | cons n ns ih =>
      rw [List.forall_mem_cons] at h
      rw [List.foldr_cons]
      split
      next =>
        intro s hs
        rcases HexSection.start_of_mem_cons s hs with e | ⟨t, ht, e⟩
        · exact e ▸ h.1
        · exact e ▸ ih h.2 t ht
      next => exact ih h.2
  exact within _ fun n hn => List.mem_range.1 hn

/-! ### Placing bytes -/

/-- Put bytes at their addresses, one after another. -/
def setCells (m : Image) (cells : List (Nat × Byte)) : Image :=
  cells.foldl (fun m c => m.setByte (.ofNat 17 c.1) c.2) m

theorem setCells_append (m : Image) (cs ds : List (Nat × Byte)) :
    m.setCells (cs ++ ds) = (m.setCells cs).setCells ds := List.foldl_append

theorem foldlM_place_bytes (m : Image) (addr : Nat) {bs : List Byte}
    (h : ∀ c ∈ cellsFrom addr bs, c.1 < memorySize) :
    (bs.map HexItem.byte).foldlM place (m, addr) =
      .ok (m.setCells (cellsFrom addr bs), addr + bs.length) := by
  induction bs generalizing m addr with
  | nil => rfl
  | cons b bs ih =>
    obtain ⟨here, behind⟩ := List.forall_mem_cons.1 h
    rw [List.map_cons, List.foldlM_cons, place, if_neg (Nat.not_le.2 here)]
    exact (ih _ _ behind).trans (by rw [List.length_cons, Nat.add_assoc, Nat.add_comm 1]; rfl)

/-- Reading sections puts their bytes into the image. -/
theorem foldlM_place_sections (m : Image) (addr : Nat) {ss : List HexSection}
    (h : ∀ c ∈ ss.flatMap HexSection.cells, c.1 < memorySize) :
    ((ss.flatMap HexSection.items).foldlM place (m, addr)).map (·.1) =
      .ok (m.setCells (ss.flatMap HexSection.cells)) := by
  induction ss generalizing m addr with
  | nil => rfl
  | cons s ss ih =>
    rw [List.flatMap_cons, List.forall_mem_append] at h
    -- a section begins with its address, so where the one before it ended does not matter
    have here : s.items.foldlM place (m, addr) =
        .ok (m.setCells s.cells, s.start + s.bytes.length) :=
      foldlM_place_bytes m s.start h.1
    rw [List.flatMap_cons, List.flatMap_cons, List.foldlM_append, here, setCells_append]
    exact ih _ _ h.2

theorem isDefined_setCells_iff (m : Image) (f : Nat → Byte) {ns : List Nat} (x : Address)
    (h : ∀ n ∈ ns, n < memorySize) :
    (m.setCells (ns.map fun n => (n, f n))).isDefined x ↔ x.toNat ∈ ns ∨ m.isDefined x := by
  induction ns generalizing m with
  | nil => simp [setCells]
  | cons n ns ih =>
    rw [List.forall_mem_cons] at h
    have rest := ih (m.setByte (.ofNat 17 n) (f n)) h.2
    rw [isDefined_setByte, eq_ofNat_iff h.1] at rest
    rw [List.mem_cons, or_comm (a := x.toNat = n), or_assoc]
    exact rest

theorem byte_setCells (m : Image) (f : Nat → Byte) {ns : List Nat} (x : Address)
    (h : ∀ n ∈ ns, n < memorySize) :
    (m.setCells (ns.map fun n => (n, f n))).byte x =
      if x.toNat ∈ ns then f x.toNat else m.byte x := by
  induction ns generalizing m with
  | nil => simp [setCells]
  | cons n ns ih =>
    rw [List.forall_mem_cons] at h
    have rest := ih (m.setByte (.ofNat 17 n) (f n)) h.2
    rw [byte_setByte] at rest
    refine rest.trans ?_
    by_cases hx : x.toNat = n
    · rw [if_pos ((eq_ofNat_iff h.1).2 hx), if_pos (List.mem_cons.2 (.inl hx)), hx, ite_self]
    · simp only [List.mem_cons, hx, false_or, eq_ofNat_iff h.1, if_false]

/-! ### Texts -/

/-- The text of an image is read as the image of the listed bytes. -/
theorem exists_ofHex_toHex (m : Image) (style : HexStyle) :
    ∃ n, ofHex (m.toHex style) = .ok n ∧ (∀ x, n.isDefined x = m.lists style x.toNat) ∧
      ∀ x, n.byte x = if m.lists style x.toNat then m.byte x else 0 := by
  have listed : ∀ n ∈ m.listed style, n < memorySize := fun n hn => (mem_listed_iff.1 hn).1
  have mem (x : Address) : x.toNat ∈ m.listed style ↔ m.lists style x.toNat :=
    mem_listed_iff.trans (and_iff_right x.isLt)
  refine ⟨empty.setCells ((m.listed style).map fun n => (n, m.byte (.ofNat 17 n))), ?_, ?_, ?_⟩
  · rw [ofHex, toHex, HexItem.ofText_unlines fun s hs =>
      Nat.lt_trans (start_lt_of_mem_sections s hs) (by decide), ← cells_sections]
    refine foldlM_place_sections empty 0 ?_
    rw [cells_sections]
    exact List.forall_mem_map.2 listed
  · intro x
    rw [Bool.eq_iff_iff, isDefined_setCells_iff _ _ x listed, isDefined_empty, mem]
    simp
  · intro x
    rw [byte_setCells _ _ x listed, byte_empty, BitVec.ofNat_toNat, BitVec.setWidth_eq]
    simp only [mem]

/-! ### Images that survive -/

/-- Bytes without defined data are zero. -/
def ZeroElsewhere (m : Image) : Prop := ∀ x, m.isDefined x = false → m.byte x = 0

/-- The defined bytes make up aligned words. -/
def Wordwise (m : Image) : Prop :=
  ∀ x y : Address, x.toNat / 4 = y.toNat / 4 → m.isDefined x = m.isDefined y

theorem lists_bytes (m : Image) (x : Address) : m.lists .bytes x.toNat = m.isDefined x := by
  rw [lists, BitVec.ofNat_toNat, BitVec.setWidth_eq]

theorem lists_words_iff (m : Image) (x : Address) :
    m.lists .words x.toNat ↔ ∃ y : Address, y.toNat / 4 = x.toNat / 4 ∧ m.isDefined y := by
  have bound := x.isLt
  rw [lists, List.any_eq_true]
  constructor
  · rintro ⟨i, hi, h⟩
    have := List.mem_range.1 hi
    refine ⟨_, ?_, h⟩
    rw [BitVec.toNat_ofNat]
    omega
  · rintro ⟨y, hy, h⟩
    refine ⟨y.toNat % 4, List.mem_range.2 (Nat.mod_lt _ (by decide)), ?_⟩
    rw [← hy, Nat.div_add_mod, BitVec.ofNat_toNat, BitVec.setWidth_eq]
    exact h

theorem wordwise_iff (m : Image) :
    m.Wordwise ↔ ∀ x, m.isDefined x = m.lists .words x.toNat := by
  constructor
  · intro h x
    rw [Bool.eq_iff_iff, lists_words_iff]
    constructor
    · exact fun hx => ⟨x, rfl, hx⟩
    · rintro ⟨y, hy, hx⟩
      rwa [h x y hy.symm]
  · intro h x y hxy
    rw [h x, h y, lists, lists, hxy]

theorem ofHex_toHex_eq_ok_iff (m : Image) (style : HexStyle) :
    ofHex (m.toHex style) = .ok m ↔
      (∀ x, m.isDefined x = m.lists style x.toNat) ∧ m.ZeroElsewhere := by
  obtain ⟨n, hn, defined, bytes⟩ := m.exists_ofHex_toHex style
  rw [hn, Except.ok.injEq]
  constructor
  · rintro rfl
    refine ⟨defined, fun x hx => ?_⟩
    rw [bytes, ← defined, hx]
    rfl
  · rintro ⟨lists, zero⟩
    refine ext_view (fun x => ?_) fun x => by rw [defined, lists]
    rw [bytes, ← lists]
    split
    next => rfl
    next hx => exact (zero x (Bool.eq_false_iff.2 hx)).symm

theorem ofHex_toHex_words_eq_ok_iff (m : Image) :
    ofHex (m.toHex .words) = .ok m ↔ m.Wordwise ∧ m.ZeroElsewhere := by
  rw [ofHex_toHex_eq_ok_iff, wordwise_iff]

/-- Listing bytes keeps the mask, listing words completes it to aligned words, and what the mask
then covers is kept and all else is zero.  So an image survives if there is nothing else to it. -/
theorem ofHex_toHex (m : Image) :
    (∃ n, ofHex (m.toHex .bytes) = .ok n ∧ (∀ x, n.isDefined x = m.isDefined x) ∧
      ∀ x, n.byte x = if m.isDefined x then m.byte x else 0) ∧
    (∃ n, ofHex (m.toHex .words) = .ok n ∧
      (∀ x, n.isDefined x ↔ ∃ y : Address, y.toNat / 4 = x.toNat / 4 ∧ m.isDefined y) ∧
      ∀ x, n.byte x = if n.isDefined x then m.byte x else 0) ∧
    (ofHex (m.toHex .bytes) = .ok m ↔ m.ZeroElsewhere) ∧
    (ofHex (m.toHex .words) = .ok m ↔ m.Wordwise ∧ m.ZeroElsewhere) := by
  refine ⟨?bytes, ?words, ?sameBytes, m.ofHex_toHex_words_eq_ok_iff⟩
  case bytes =>
    obtain ⟨n, hn, defined, bytes⟩ := m.exists_ofHex_toHex .bytes
    simp only [lists_bytes] at defined bytes
    exact ⟨n, hn, defined, bytes⟩
  case words =>
    obtain ⟨n, hn, defined, bytes⟩ := m.exists_ofHex_toHex .words
    refine ⟨n, hn, fun x => ?_, fun x => ?_⟩
    · rw [defined, lists_words_iff]
    · rw [bytes, defined]
  case sameBytes =>
    rw [ofHex_toHex_eq_ok_iff]
    exact and_iff_right fun x => (m.lists_bytes x).symm

end Image

end Macc
