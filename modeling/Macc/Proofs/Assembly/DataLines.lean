import Macc.Proofs.Assembly.Cursor
import Macc.Proofs.Image.Words

/-!
# Lines of data

A data section is a directive with an address and rows of bytes, which are written as integer
literals (`Literal.Bytes`) with blanks between them (`Spaced`).  Such a row (`Assembler.IsDataRow`)
puts out its bytes at the cursor as far as they fit into the image (`Assembler.putOut`,
`emitWords_wordsOf`), so a section of one row writes them from its address on
(`foldlM_feedLine_data`).
-/

namespace Macc

open Text

/-! ### The text of a row -/

/-- The texts are integer literals that stand for the bytes. -/
def Literal.Bytes (ws : List (List Char)) (bs : List Byte) : Prop :=
  List.Forall₂ (fun w b => value? w = some (b.toNat : Int)) ws bs

/-- A datum is a literal that stands for a byte. -/
theorem Assembler.byteOf_eq_ok_iff {text : List Char} {b : Byte} :
    byteOf text = .ok b ↔ Literal.value? text = some (b.toNat : Int) := by
  have lt := b.isLt
  unfold byteOf
  cases hv : Literal.value? text with
  | none => exact ⟨nofun, nofun⟩
  | some v =>
    dsimp only
    constructor
    · intro h
      split at h
      next range =>
        obtain rfl := Except.ok.inj h
        obtain ⟨n, rfl⟩ := Int.eq_ofNat_of_zero_le range.1
        rw [BitVec.ofInt_natCast, BitVec.toNat_ofNat, Nat.mod_eq_of_lt (by omega)]
      next => cases h
    · intro h
      obtain rfl := Option.some.inj h
      rw [if_pos ⟨Int.natCast_nonneg _, by omega⟩, BitVec.ofInt_natCast, BitVec.ofNat_toNat,
        BitVec.setWidth_eq]

/-- A row of bytes. -/
def rowText (ws : List (List Char)) : List Char := [' '].intercalate ws

namespace Literal.Bytes

variable {ws : List (List Char)} {bs : List Byte}

theorem isText_rowText (h : Literal.Bytes ws bs) (filled : bs ≠ []) :
    IsLine (rowText ws) ∧ rowText ws ≠ [] := by
  constructor
  · refine isLine_intercalate (by simp [IsLine]) fun w hw => ?_
    obtain ⟨v, hv⟩ := exists_value?_of_forall₂ h w hw
    exact isLine_of_value? hv
  · cases h with
    | nil => exact absurd rfl filled
    | @cons w _ ws _ hv _ =>
      have word : w ≠ [] := (isWord_of_value? hv).ne_nil
      cases ws <;> simp [rowText, List.intercalate_cons_cons, word]

theorem mapM_byteOf (h : Literal.Bytes ws bs) : ws.mapM Assembler.byteOf = .ok bs := by
  induction h with
  | nil => rfl
  | cons hv _ ih =>
    rw [List.mapM_cons, Assembler.byteOf_eq_ok_iff.2 hv, ih]
    rfl

/-- What is read as bytes are literals that stand for them. -/
theorem of_mapM_byteOf (h : ws.mapM Assembler.byteOf = .ok bs) : Literal.Bytes ws bs := by
  induction ws generalizing bs with
  | nil =>
    cases h
    exact .nil
  | cons w ws ih =>
    rw [List.mapM_cons] at h
    cases hw : Assembler.byteOf w with
    | error e => rw [hw] at h; cases h
    | ok b =>
      cases hws : ws.mapM Assembler.byteOf with
      | error e => rw [hw, hws] at h; cases h
      | ok bs' =>
        rw [hw, hws] at h
        cases h
        exact .cons (Assembler.byteOf_eq_ok_iff.1 hw) (ih hws)

/-- A row in a data section is read as its literals. -/
theorem ofLine_spaced {w text : List Char} (h : Literal.Bytes (w :: ws) bs)
    (spaced : Spaced (w :: ws) text) : Statement.ofLine (some .data) text = .row w ws := by
  have literal := exists_value?_of_forall₂ h
  obtain ⟨v, hv⟩ := literal w (.head _)
  have words : ∀ u ∈ w :: ws, IsWord u := fun u hu =>
    have ⟨_, hu⟩ := literal u hu
    isWord_of_value? hu
  have dot : w.head? ≠ some '.' := fun hd =>
    not_mem_of_value? hv (by decide) (by decide) (by decide) (List.mem_of_head? hd)
  have colon : w.getLast? ≠ some ':' := fun hl =>
    not_mem_of_value? hv (by decide) (by decide) (by decide) (List.mem_of_getLast? hl)
  rw [Statement.ofLine_spaced spaced words (leads_of_value? hv) (.inl rfl),
    Statement.ofWords_eq_row dot colon]

end Literal.Bytes

/-! ### Taking a row -/

namespace Assembler

variable {a : Assembler} {ws : List (List Char)} {bs : List Byte}

/-- Bytes that begin with no word and come in words are none. -/
theorem eq_nil_of_short {bs : List Byte}
    (short : ∀ b0 b1 b2 b3 rest, bs = b0 :: b1 :: b2 :: b3 :: rest → False)
    (full : bs.length % 4 = 0) : bs = [] := by
  match bs with
  | [] => rfl
  | [_] | [_, _] | [_, _, _] => simp at full
  | b0 :: b1 :: b2 :: b3 :: rest => exact (short b0 b1 b2 b3 rest rfl).elim

/-- The bytes of the words of bytes. -/
theorem flatMap_wordBytes_wordsOf {bs : List Byte} (h : bs.length % 4 = 0) :
    (wordsOf bs).flatMap wordBytes = bs := by
  fun_induction wordsOf bs with
  | case1 b0 b1 b2 b3 rest ih =>
    simp only [List.length_cons] at h
    rw [List.flatMap_cons, Image.wordBytes_append, ih (by omega)]
    rfl
  | case2 bs short =>
    obtain rfl := eq_nil_of_short short h
    rfl

theorem length_wordsOf {bs : List Byte} (h : bs.length % 4 = 0) :
    4 * (wordsOf bs).length = bs.length := by
  have bytes := congrArg List.length (flatMap_wordBytes_wordsOf h)
  rw [List.length_flatMap] at bytes
  simpa [length_wordBytes, Nat.mul_comm] using bytes

/-- Writing bytes is setting their words. -/
theorem write_eq_setWords (m : Image) (addr : Nat) {bs : List Byte} (full : bs.length % 4 = 0) :
    m.write (.ofNat 17 addr) bs = m.setWords (Image.wordsAt addr (wordsOf bs)) := by
  fun_induction wordsOf bs generalizing m addr with
  | case1 b0 b1 b2 b3 rest ih =>
    simp only [List.length_cons] at full
    have first := m.write_append (.ofNat 17 addr) [b0, b1, b2, b3] rest
    have next : BitVec.ofNat 17 addr + .ofNat 17 [b0, b1, b2, b3].length = .ofNat 17 (addr + 4) :=
      (BitVec.ofNat_add _ _).symm
    rw [next, ih _ _ (by omega)] at first
    rw [Image.wordsAt, Image.setWords_cons, Image.setWord, Image.wordBytes_append]
    exact first
  | case2 bs short =>
    obtain rfl := eq_nil_of_short short full
    rfl

/-- The assembler with bytes put out as words of data at the cursor. -/
def putOut (a : Assembler) (line : Nat) (bytes : List Byte) : Assembler :=
  { a with
    cursor := a.cursor + bytes.length
    image := a.image.write (.ofNat 17 a.cursor) bytes
    rows := a.rows ++
      ((List.range' a.cursor (bytes.length / 4) 4).map fun addr => ⟨line, addr, none⟩).toArray }

theorem putOut_nil (a : Assembler) (line : Nat) : a.putOut line [] = a := by
  simp [putOut, Image.write]

theorem putOut_putOut (a : Assembler) (line : Nat) {xs : List Byte} (full : xs.length % 4 = 0)
    (ys : List Byte) : (a.putOut line xs).putOut line ys = a.putOut line (xs ++ ys) := by
  have count : (xs ++ ys).length / 4 = xs.length / 4 + ys.length / 4 := by
    rw [List.length_append]
    omega
  have next : a.cursor + xs.length = a.cursor + 4 * (xs.length / 4) := by omega
  have rows : List.range' a.cursor (xs.length / 4) 4 ++
      List.range' (a.cursor + 4 * (xs.length / 4)) (ys.length / 4) 4 = _ := List.range'_append
  rw [← next] at rows
  simp only [putOut, List.length_append, Nat.add_assoc, Image.write_append, BitVec.ofNat_add]
  rw [← List.length_append, count, ← rows]
  simp

theorem emitWord_append (a : Assembler) (line : Nat) (b0 b1 b2 b3 : Byte) :
    a.emitWord line (b3 ++ b2 ++ b1 ++ b0) = a.putOut line [b0, b1, b2, b3] := by
  simp [emitWord, putOut, Image.setWord, Image.wordBytes_append]

/-- The words of a row are put out as far as they fit into the image. -/
theorem emitWords_wordsOf (a : Assembler) (line : Nat) {bytes : List Byte}
    (full : bytes.length % 4 = 0) :
    emitWords line (wordsOf bytes) a =
      let room := 4 * ((memorySize - a.cursor) / 4)
      if bytes.length ≤ room then (a.putOut line bytes, .ok ())
      else (a.putOut line (bytes.take room), .error (unwritable (a.cursor + room))) := by
  fun_induction wordsOf bytes generalizing a with
  | case1 b0 b1 b2 b3 rest ih =>
    simp only [List.length_cons] at full
    dsimp only
    rw [emitWords]
    by_cases none : a.cursor + 4 > memorySize
    · have room : 4 * ((memorySize - a.cursor) / 4) = 0 := by omega
      rw [if_pos none, room, if_neg (by simp), List.take_zero, putOut_nil, Nat.add_zero]
    · have room : 4 * ((memorySize - a.cursor) / 4) =
          4 * ((memorySize - (a.cursor + 4)) / 4) + 4 := by
        omega
      have next : (a.putOut line [b0, b1, b2, b3]).cursor = a.cursor + 4 := rfl
      have fit (bytes : List Byte) :
          (a.putOut line [b0, b1, b2, b3]).putOut line bytes =
            a.putOut line (b0 :: b1 :: b2 :: b3 :: bytes) :=
        have four : [b0, b1, b2, b3].length % 4 = 0 := by simp
        putOut_putOut a line four bytes
      rw [if_neg none, emitWord_append, ih _ (by omega), room, next]
      dsimp only
      rw [fit, fit, List.length_cons, List.length_cons, List.length_cons, List.length_cons]
      simp only [Nat.add_assoc, Nat.reduceAdd, Nat.add_le_add_iff_right, List.take_succ_cons]
      rw [Nat.add_comm 4]
  | case2 bytes short =>
    obtain rfl := eq_nil_of_short short full
    dsimp only
    rw [List.length_nil, if_pos (Nat.zero_le _), putOut_nil, emitWords]

/-- The line is a row of bytes in a data section. -/
structure IsDataRow (a : Assembler) (text : List Char) (bytes : List Byte) : Prop where
  current : a.current = some .data
  row : ∃ head operands, Statement.ofLine a.current text = .row head operands ∧
    Literal.Bytes (head :: operands) bytes
  full : bytes.length % 4 = 0

theorem isDataRow_of_spaced {text : List Char} (hc : a.current = some .data)
    (h : Literal.Bytes ws bs) (spaced : Spaced ws text) (full : bs.length % 4 = 0) :
    a.IsDataRow text bs := by
  obtain ⟨w, us, rfl⟩ := List.exists_cons_of_ne_nil spaced.ne_nil
  exact ⟨hc, ⟨w, us, hc ▸ h.ofLine_spaced spaced, h⟩, full⟩

/-- A data row puts out the words of its bytes. -/
theorem IsDataRow.feed_eq {text : List Char} (h : a.IsDataRow text bs) (line : Nat) :
    a.feed line text = emitWords line (wordsOf bs) a := by
  obtain ⟨head, operands, statement, bytes⟩ := h.row
  have length : (head :: operands).length = bs.length := List.Forall₂.length_eq bytes
  have check : a.check (.ofLine a.current text) = .ok (.data (wordsOf bs)) := by
    rw [statement, Assembler.check, h.current]
    dsimp only
    rw [checkData, length, if_neg (Decidable.not_not.2 h.full), bytes.mapM_byteOf]
    rfl
  rw [feed_of_ok check, perform]

/-- A data row that fits into the image puts out all its bytes. -/
theorem IsDataRow.feed_of_fits {text : List Char} (h : a.IsDataRow text bs)
    (fits : a.cursor + bs.length ≤ memorySize) (line : Nat) :
    a.feed line text = (a.putOut line bs, .ok ()) := by
  have full := h.full
  rw [h.feed_eq, emitWords_wordsOf a line full]
  dsimp only
  rw [if_pos (by omega)]

/-! ### Sections -/

/-- A directive with an aligned address at the cursor or behind it is taken. -/
theorem feed_enter_of_le {text operand : List Char} {kind : SectionKind} {addr : Nat} (line : Nat)
    (hs : Statement.ofLine a.current text = .enter kind [operand])
    (hv : Literal.value? operand = some (addr : Int)) (le : a.cursor ≤ addr)
    (aligned : addr % 4 = 0) :
    a.feed line text = ({ a with current := some kind, cursor := addr }, .ok ()) := by
  have small := Literal.natAbs_lt_of_value? hv
  have forward : ¬ Int64.ofInt addr < Int64.ofNat a.cursor := by
    rw [lt_cursor_iff hv (by omega), if_pos (by omega)]
    omega
  have multiple : Int64.ofInt addr % 4 = 0 := by
    rw [mod_four_eq_zero_iff, toInt_ofInt_of_value? hv]
    omega
  have place := toNat_toUInt64_of_value? hv
  rw [if_neg (by omega)] at place
  rw [feed_enter line hs hv, if_neg forward, if_neg (Decidable.not_not.2 multiple),
    Int.ofNat.inj place]

theorem isText_data {operand : List Char} {v : Int} (h : Literal.value? operand = some v) :
    IsLine (".data ".toList ++ operand) ∧ ".data ".toList ++ operand ≠ [] := by
  have directive : IsLine ".data ".toList := by simp [IsLine]
  exact ⟨directive.append (Literal.isLine_of_value? h), by simp⟩

theorem isWord_of_mem_data {operand : List Char} {v : Int} (h : Literal.value? operand = some v) :
    ∀ w ∈ [".data".toList, operand], IsWord w := by
  have directive : IsWord ".data".toList := ⟨by simp, by simp [isAsciiBlank]⟩
  rw [List.forall_mem_cons, List.forall_mem_singleton]
  exact ⟨directive, Literal.isWord_of_value? h⟩

/-- The directive of a data section with an address is read as that in every section. -/
theorem ofLine_data {operand text : List Char} {v : Int} (h : Literal.value? operand = some v)
    (spaced : Spaced [".data".toList, operand] text) (current : Option SectionKind) :
    Statement.ofLine current text = .enter .data [operand] := by
  have leads : Statement.Leads ".data".toList := by
    intro c hc
    cases hc
    decide
  exact Statement.ofLine_spaced spaced (isWord_of_mem_data h) leads (.inr rfl)

/-- A data section of one row writes the words of its bytes from its address on. -/
theorem foldlM_feedLine_data {operand : List Char} {addr : Nat}
    (hv : Literal.value? operand = some (addr : Int)) (le : a.cursor ≤ addr)
    (aligned : addr % 4 = 0) (h : Literal.Bytes ws bs) (filled : bs ≠ [])
    (full : bs.length % 4 = 0) (fits : addr + bs.length ≤ memorySize) (line : Nat) :
    ∃ b, ([".data ".toList ++ operand, rowText ws].zipIdx line).foldlM Program.feedLine a = .ok b ∧
      b.cursor = addr + bs.length ∧ b.symbols = a.symbols ∧ b.insns = a.insns ∧
      b.image = a.image.setWords (Image.wordsAt addr (wordsOf bs)) := by
  have spaced : Spaced [".data".toList, operand] (".data ".toList ++ operand) :=
    Spaced.cons ".data".toList isGap_space (.single operand)
  have enter := feed_enter_of_le line (ofLine_data hv spaced a.current) hv le aligned
  have words : ws ≠ [] := by
    rintro rfl
    cases h
    exact filled rfl
  have row := (isDataRow_of_spaced (a := { a with current := some .data, cursor := addr }) rfl h
    (spaced_intercalate words) full).feed_of_fits fits (line + 1)
  refine ⟨putOut { a with current := some .data, cursor := addr } (line + 1) bs, ?_, rfl, rfl, rfl,
    write_eq_setWords a.image addr full⟩
  rw [List.zipIdx_cons, List.foldlM_cons, Program.feedLine, enter]
  dsimp only [bind, Except.bind]
  rw [List.zipIdx_cons, List.foldlM_cons, Program.feedLine, rowText, row]
  rfl

end Assembler

end Macc
