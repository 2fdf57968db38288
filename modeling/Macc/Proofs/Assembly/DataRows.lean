import Macc.Proofs.Assembly.DataLines
import Macc.Proofs.Assembly.InstructionLines
import Macc.Proofs.Image.FlatImage

/-!
# Binaries as rows of data

Every sequence of words can be written as the rows of a data section, cut into rows in any way and
spelled with any literals and blanks (`Literal.IsRow`).  Taking the rows puts out their bytes one
row behind the other (`Assembler.foldlM_feedLine_rows`), so the section assembles to an image of
exactly these bytes (`Program.assemble_dataRows`).
-/

namespace Macc

open Text

/-- The text is a row of literals that stand for the bytes, which come in words. -/
structure Literal.IsRow (text : List Char) (bytes : List Byte) : Prop where
  literals : ∃ ws, Spaced ws text ∧ Literal.Bytes ws bytes
  full : bytes.length % 4 = 0

theorem Literal.IsRow.isUnbroken {text : List Char} {bytes : List Byte} (h : IsRow text bytes) :
    IsUnbroken text ∧ text ≠ [] := by
  obtain ⟨ws, spaced, literals⟩ := h.literals
  refine spaced.isUnbroken fun w hw => ?_
  obtain ⟨v, hv⟩ := exists_value?_of_forall₂ literals w hw
  exact isWord_of_value? hv

/-! ### Rows of the program -/

/-- The rows of the program for rows of bytes, from an address and a line on. -/
def dataRows (addr line : Nat) : List (List Byte) → List Row
  | [] => []
  | row :: rows =>
    (List.range' addr (row.length / 4) 4).map (fun addr => ⟨line, addr, none⟩) ++
      dataRows (addr + row.length) (line + 1) rows

section Rows

variable {rows : List (List Byte)}

theorem length_flatten_mod_four (full : ∀ row ∈ rows, row.length % 4 = 0) :
    rows.flatten.length % 4 = 0 := by
  induction rows with
  | nil => rfl
  | cons row rows ih =>
    rw [List.forall_mem_cons] at full
    have := ih full.2
    rw [List.flatten_cons, List.length_append]
    omega

theorem map_addr_dataRows (full : ∀ row ∈ rows, row.length % 4 = 0) (addr line : Nat) :
    (dataRows addr line rows).map Row.addr = List.range' addr (rows.flatten.length / 4) 4 := by
  induction rows generalizing addr line with
  | nil => rfl
  | cons row rows ih =>
    rw [List.forall_mem_cons] at full
    have count : (row ++ rows.flatten).length / 4 =
        row.length / 4 + rows.flatten.length / 4 := by
      rw [List.length_append]
      omega
    have next : addr + row.length = addr + 4 * (row.length / 4) := by omega
    rw [dataRows, List.map_append, List.map_map, ih full.2, List.flatten_cons, count, next,
      ← List.range'_append]
    exact congrArg (· ++ _) (List.map_id _)

theorem map_line_dataRows (addr line : Nat) (rows : List (List Byte)) :
    (dataRows addr line rows).map Row.line =
      (rows.zipIdx line).flatMap fun (row, line) => List.replicate (row.length / 4) line := by
  induction rows generalizing addr line with
  | nil => rfl
  | cons row rows ih =>
    rw [dataRows, List.map_append, List.map_map, ih, List.zipIdx_cons, List.flatMap_cons]
    refine congrArg (· ++ _) (List.eq_replicate_iff.2 ⟨by simp, ?_⟩)
    exact fun n hn => (List.mem_map.1 hn).elim fun _ h => h.2.symm

theorem insn_of_mem_dataRows {addr line : Nat} {r : Row} (h : r ∈ dataRows addr line rows) :
    r.insn = none := by
  induction rows generalizing addr line with
  | nil => cases h
  | cons row rows ih =>
    rcases List.mem_append.1 h with first | rest
    · obtain ⟨_, -, rfl⟩ := List.mem_map.1 first
      rfl
    · exact ih rest

end Rows

/-! ### Taking the rows -/

namespace Assembler

/-- In a data section rows that fit into the image put out their bytes one row behind the other. -/
theorem foldlM_feedLine_rows {a : Assembler} {texts : List (List Char)} {rows : List (List Byte)}
    (h : List.Forall₂ Literal.IsRow texts rows) (hc : a.current = some .data)
    (fits : a.cursor + rows.flatten.length ≤ memorySize) (line : Nat) :
    (texts.zipIdx line).foldlM Program.feedLine a = .ok
      { a with
        cursor := a.cursor + rows.flatten.length
        image := a.image.write (.ofNat 17 a.cursor) rows.flatten
        rows := a.rows ++ (dataRows a.cursor line rows).toArray } := by
  induction h generalizing a line with
  | nil =>
    simp only [List.zipIdx_nil, List.foldlM_nil, dataRows, List.flatten_nil, List.length_nil,
      Image.write, Nat.add_zero, Array.append_empty]
    rfl
  | @cons text row texts rows hrow _ ih =>
    obtain ⟨ws, spaced, literals⟩ := hrow.literals
    rw [List.flatten_cons, List.length_append] at fits
    have fed := (isDataRow_of_spaced hc literals spaced hrow.full).feed_of_fits (by omega) line
    have rest := ih (a := a.putOut line row) hc (by simp only [putOut]; omega) (line + 1)
    rw [List.zipIdx_cons, List.foldlM_cons, Program.feedLine, fed]
    dsimp only [bind, Except.bind]
    rw [rest]
    simp only [putOut, dataRows, List.flatten_cons, List.length_append, Nat.add_assoc,
      Image.write_append, BitVec.ofNat_add]
    simp

end Assembler

/-! ### The section -/

/-- An image that is defined on a whole number of words at the start is trimmed to them. -/
theorem Image.toFlat_true_eq {m : Image} {bs : List Byte} (full : bs.length % 4 = 0)
    (fits : bs.length ≤ memorySize) (defined : ∀ x, m.isDefined x ↔ x.toNat < bs.length)
    (bytes : ∀ i (hi : i < bs.length), m.byte (.ofNat 17 i) = bs[i]) : m.toFlat true = bs := by
  have toNat {i : Nat} (hi : i < bs.length) : (BitVec.ofNat 17 i).toNat = i :=
    (eq_ofNat_iff (by omega)).1 rfl
  have last : m.definedEnd = bs.length := by
    rcases m.definedEnd_cases with ⟨h, none⟩ | ⟨x, hx, h, greatest⟩
    · rw [h]
      by_contra filled
      have first : m.isDefined (.ofNat 17 0) := (defined _).2 (by rw [toNat] <;> omega)
      rw [none] at first
      cases first
    · have lt := (defined x).1 hx
      have end_ := greatest (.ofNat 17 (bs.length - 1))
        ((defined _).2 (by rw [toNat] <;> omega))
      rw [toNat (by omega)] at end_
      omega
  refine List.ext_getElem? fun i => ?_
  by_cases hi : i < bs.length
  · have entry := m.getElem?_toFlat_true (.ofNat 17 i)
    rw [toNat hi, last, if_pos hi, bytes i hi] at entry
    rw [entry, List.getElem?_eq_getElem hi]
  · rw [List.getElem?_eq_none (by rw [length_toFlat_true, last]; omega),
      List.getElem?_eq_none (by omega)]

section Section

variable {c : Nat} {rows : List (List Byte)} {operand : List Char} {directive : String}
  {texts : List String} {source : String}

/-- A data section with a row of literals for each row of bytes is assembled to the bytes. -/
theorem Program.assemble_rows (aligned : c % 4 = 0) (fits : c + rows.flatten.length ≤ memorySize)
    (hv : Literal.value? operand = some (c : Int))
    (spaced : Spaced [".data".toList, operand] directive.toList)
    (h : List.Forall₂ Literal.IsRow (texts.map String.toList) rows)
    (hs : source = unlines (directive :: texts) ∨ source = "\n".intercalate (directive :: texts)) :
    assemble source = .ok ⟨Image.empty.write (.ofNat 17 c) rows.flatten, {}, #[],
      (dataRows c 2 rows).toArray⟩ := by
  have text : ∀ l ∈ directive :: texts, IsUnbroken l.toList ∧ l.toList ≠ [] := by
    have rows := forall_mem_of_forall₂ h.flip fun _ _ hr => hr.isUnbroken
    rw [List.forall_mem_cons]
    exact ⟨spaced.isUnbroken (Assembler.isWord_of_mem_data hv), List.forall_mem_map.1 rows⟩
  have lines := lines_joined hs (fun l hl => (text l hl).1) fun l hl => (text l hl).2
  have enter := Assembler.feed_enter_of_le (a := {}) 1 (Assembler.ofLine_data hv spaced none) hv
    (Nat.zero_le c) aligned
  have fed := Assembler.foldlM_feedLine_rows (a := { current := some .data, cursor := c }) h rfl
    fits 2
  rw [assemble, lines, List.map_cons, ofLines, List.zipIdx_cons, List.foldlM_cons, feedLine, enter]
  dsimp only [bind, Except.bind]
  rw [fed]
  exact (Assembler.finish_of_symbols_eq_empty rfl (by simp)).trans (by simp [Image.setWords])

/-- Bytes that come in words, cut into rows of words in any way and spelled with any literals and
blanks, are assembled as the data section that they make up: the image has the bytes at the address
of the section, nothing else is defined, and the program has one row for each word, in the order of
the addresses.  At address zero the trimmed flat image is the bytes. -/
theorem Program.assemble_dataRows {bs : List Byte} (cut : rows.flatten = bs) (aligned : c % 4 = 0)
    (fits : c + bs.length ≤ memorySize) (hv : Literal.value? operand = some (c : Int))
    (spaced : Spaced [".data".toList, operand] directive.toList)
    (h : List.Forall₂ (fun text row => Literal.IsRow text.toList row) texts rows)
    (hs : source = unlines (directive :: texts) ∨ source = "\n".intercalate (directive :: texts)) :
    ∃ p, assemble source = .ok p ∧
      (∀ i (hi : i < bs.length), p.image.byte (.ofNat 17 (c + i)) = bs[i]) ∧
      (∀ x, p.image.isDefined x ↔ c ≤ x.toNat ∧ x.toNat < c + bs.length) ∧
      p.rows.toList.map Row.addr = List.range' c (bs.length / 4) 4 ∧
      (p.rows.toList.map Row.line =
        (rows.zipIdx 2).flatMap fun (row, line) => List.replicate (row.length / 4) line) ∧
      (∀ r ∈ p.rows.toList, r.insn = none) ∧
      (c = 0 → p.image.toFlat true = bs) := by
  subst cut
  have full : ∀ row ∈ rows, row.length % 4 = 0 :=
    forall_mem_of_forall₂ h fun _ _ hr => hr.full
  have defined (x : Address) :
      (Image.empty.write (.ofNat 17 c) rows.flatten).isDefined x ↔
        c ≤ x.toNat ∧ x.toNat < c + rows.flatten.length := by
    rw [Image.isDefined_write_iff _ fits, Image.isDefined_empty]
    simp
  refine ⟨_, assemble_rows aligned fits hv spaced (List.forall₂_map_left_iff.2 h) hs,
    fun i hi => Image.byte_write_of_lt _ fits hi, defined, map_addr_dataRows full c 2,
    map_line_dataRows c 2 rows, fun r => insn_of_mem_dataRows, ?_⟩
  rintro rfl
  rw [Nat.zero_add] at fits
  refine Image.toFlat_true_eq (length_flatten_mod_four full) fits (fun x => ?_) fun i hi => ?_
  · rw [defined, Nat.zero_add]
    exact and_iff_right (Nat.zero_le _)
  · have read := Image.empty.byte_write_of_lt (a := 0) (by omega) hi
    rwa [Nat.zero_add] at read

end Section

theorem Program.assemble_dataRows_twoRows :
    ∃ p, assemble ".data\t0x0\n-0 +5\t0x0f\r 007\n255\x0c010 0Xa0 1\n" = .ok p ∧
      p.rows.toList.map Row.addr = [0, 4] ∧
      p.image.toFlat true = [0, 5, 15, 7, 255, 8, 160, 1] := by
  have tab : IsGap ['\t'] := ⟨by simp, by simp [isAsciiBlank]⟩
  have feed : IsGap ['\x0c'] := ⟨by simp, by simp [isAsciiBlank]⟩
  have returns : IsGap ['\r', ' '] := ⟨by simp, by simp [isAsciiBlank]⟩
  have directive : Spaced [".data".toList, "0x0".toList] ".data\t0x0".toList :=
    .cons ".data".toList tab (.single "0x0".toList)
  have address : Literal.value? "0x0".toList = some ((0 : Nat) : Int) := by decide +kernel
  have first : Literal.IsRow "-0 +5\t0x0f\r 007".toList [0, 5, 15, 7] :=
    { literals := ⟨["-0".toList, "+5".toList, "0x0f".toList, "007".toList],
        .cons "-0".toList isGap_space (.cons "+5".toList tab (.cons "0x0f".toList returns
          (.single "007".toList))),
        Literal.Bytes.of_mapM_byteOf (by decide +kernel)⟩
      full := rfl }
  have second : Literal.IsRow "255\x0c010 0Xa0 1".toList [255, 8, 160, 1] :=
    { literals := ⟨["255".toList, "010".toList, "0Xa0".toList, "1".toList],
        .cons "255".toList feed (.cons "010".toList isGap_space (.cons "0Xa0".toList isGap_space
          (.single "1".toList))),
        Literal.Bytes.of_mapM_byteOf (by decide +kernel)⟩
      full := rfl }
  have rows : List.Forall₂ (fun (text : String) row => Literal.IsRow text.toList row)
      ["-0 +5\t0x0f\r 007", "255\x0c010 0Xa0 1"] [[0, 5, 15, 7], [255, 8, 160, 1]] :=
    .cons first (.cons second .nil)
  obtain ⟨p, assembles, -, -, addrs, -, -, flat⟩ :=
    assemble_dataRows rfl rfl (by decide) address directive rows (.inl rfl)
  exact ⟨p, assembles, addrs, flat rfl⟩

end Macc
