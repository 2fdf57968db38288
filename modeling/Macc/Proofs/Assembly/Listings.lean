import Macc.Proofs.Assembly.Appearance
import Macc.Proofs.Assembly.ErrorLines
import Macc.Proofs.Assembly.InstructionLines
import Macc.Proofs.Assembly.InstructionWords
import Macc.Proofs.Image.FlatImage

/-!
# Listings, line by line

A listing walks over the source lines and over the words of the program at once, and gives each line
the words in front that have its number.  Since words are put out in the order of the lines, no word
is left behind (`Program.sourceRows_eq`): every line is shown with exactly its own words
(`Program.Shows`), and every word is shown once (`flatMap_filter_line`).

No text that a listing is made of has a line feed, so its lines can be told apart again, and
`Program.lines_listing` says what they are.
-/

namespace Macc

open Text

/-! ### Rows in the order of lines -/

section Ordered

variable {rows : List Row} {n : Nat}

theorem takeWhile_line_eq (sorted : rows.Pairwise fun r s => r.line ≤ s.line)
    (from_ : ∀ r ∈ rows, n ≤ r.line) :
    rows.takeWhile (·.line = n) = rows.filter (·.line = n) ∧
      rows.dropWhile (·.line = n) = rows.filter (n < ·.line) := by
  induction rows with
  | nil => exact ⟨rfl, rfl⟩
  | cons r rows ih =>
    rw [List.pairwise_cons] at sorted
    rw [List.forall_mem_cons] at from_
    by_cases hr : r.line = n
    · obtain ⟨taken, dropped⟩ := ih sorted.2 from_.2
      simp [hr, taken, dropped]
    · -- this row and all behind it belong to later lines
      have later : ∀ s ∈ r :: rows, n < s.line := by
        rw [List.forall_mem_cons]
        refine ⟨by omega, fun s hs => ?_⟩
        have := sorted.1 s hs
        omega
      have other : ∀ s ∈ r :: rows, ¬ decide (s.line = n) = true := by
        intro s hs
        rw [decide_eq_true_eq]
        exact Nat.ne_of_gt (later s hs)
      rw [List.takeWhile_cons_of_neg (by simpa using hr), List.filter_eq_nil_iff.2 other,
        List.dropWhile_cons_of_neg (by simpa using hr),
        List.filter_eq_self.2 fun s hs => decide_eq_true (later s hs)]
      exact ⟨rfl, rfl⟩

theorem filter_line_filter_lt {m : Nat} (h : n < m) (rows : List Row) :
    (rows.filter (n < ·.line)).filter (·.line = m) = rows.filter (·.line = m) := by
  rw [List.filter_filter]
  refine List.filter_congr fun r _ => ?_
  by_cases hr : r.line = m
  · simp [hr, h]
  · simp [hr]

/-- Rows in the order of some lines are those of each line, line after line. -/
theorem flatMap_filter_line (sorted : rows.Pairwise fun r s => r.line ≤ s.line) {count : Nat}
    (range : ∀ r ∈ rows, n ≤ r.line ∧ r.line < n + count) :
    (List.range' n count).flatMap (fun m => rows.filter (·.line = m)) = rows := by
  induction count generalizing n rows with
  | zero =>
    cases rows with
    | nil => rfl
    | cons r rows => exact absurd (range r (.head _)) (by omega)
  | succ count ih =>
    obtain ⟨taken, dropped⟩ := takeWhile_line_eq sorted fun r hr => (range r hr).1
    have rest := ih (n := n + 1) (sorted.sublist (List.filter_sublist (p := (n < ·.line))))
      fun r hr => by
        have := range r (List.mem_of_mem_filter hr)
        have := of_decide_eq_true (List.mem_filter.1 hr).2
        omega
    have behind : (List.range' (n + 1) count).flatMap (fun m => rows.filter (·.line = m)) =
        (List.range' (n + 1) count).flatMap
          fun m => (rows.filter (n < ·.line)).filter (·.line = m) := by
      refine List.flatMap_congr fun m hm => (filter_line_filter_lt ?_ rows).symm
      have := List.mem_range'_1.1 hm
      omega
    rw [List.range'_succ, List.flatMap_cons, behind, rest, ← taken, ← dropped,
      List.takeWhile_append_dropWhile]

/-- Source lines are printed with all rows that have their numbers. -/
theorem Program.sourceRows_eq (p : Program) (texts : List (List Char))
    (sorted : rows.Pairwise fun r s => r.line ≤ s.line) (from_ : ∀ r ∈ rows, n ≤ r.line) :
    p.sourceRows (texts.zipIdx n) rows =
      (texts.zipIdx n).flatMap fun text =>
        p.lineRows text.2 text.1 (rows.filter (·.line = text.2)) := by
  induction texts generalizing n rows with
  | nil => rfl
  | cons text texts ih =>
    obtain ⟨taken, dropped⟩ := takeWhile_line_eq sorted from_
    have rest := ih (n := n + 1) (sorted.sublist (List.filter_sublist (p := (n < ·.line))))
      fun r hr => of_decide_eq_true (List.mem_filter.1 hr).2
    rw [List.zipIdx_cons, sourceRows, taken, dropped, rest, List.flatMap_cons]
    refine congrArg (_ ++ ·) (List.flatMap_congr fun text ht => ?_)
    rw [filter_line_filter_lt (List.le_snd_of_mem_zipIdx ht)]

end Ordered

/-! ### What a listing shows -/

/-- The text is a source line without the blanks around it, coloured or not. -/
def IsSource (source : List Char) (text : String) : Prop :=
  ∃ styles, text = Style.paintAll styles (String.ofList (trim source))

namespace Program

/-- The words of a program that come from the line with the number. -/
def rowsAt (p : Program) (n : Nat) : List Row := p.rows.toList.filter (·.line = n)

/-- The line shows a word: the address, the four bytes that the image has there, the number of the
source line and either the instruction that the word decodes to, in assembly syntax and coloured, or
some text for data. -/
structure ShowsWord (p : Program) (r : Row) (number data line : String) : Prop where
  inside : r.addr + 4 ≤ memorySize
  text : ∃ body,
    line = "[" ++ hex 5 r.addr ++ "] " ++
      " ".intercalate (((p.image.bytes.toList.drop r.addr).take 4).map fun b => hex 2 b.toNat) ++
      " | " ++ number ++ "   " ++ body ∧
    (∀ i, r.insn = some i →
      ∃ op, Op.decode (p.image.word (.ofNat 17 r.addr)) = .ok op ∧ body = op.styled ∧
        op.ShownAs body) ∧
    (r.insn = none → body = data)

/-- The lines show a source line with its number: once for each of its words, but the number on the
first line only, or once with the source if it has no words. -/
inductive Shows (p : Program) (n : Nat) (source : List Char) : List Row → List String → Prop
  | source {text : String} (h : IsSource source text) :
      Shows p n source []
        ["                    | " ++ padLeft 4 (toString n) ++ ":   " ++ text]
  | words {r : Row} {rs : List Row} {text line : String} {lines : List String}
      (h : IsSource source text)
      (first : p.ShowsWord r (padLeft 4 (toString n) ++ ":") text line)
      (rest : List.Forall₂ (fun r line => p.ShowsWord r "     " "" line) rs lines) :
      Shows p n source (r :: rs) (line :: lines)

/-- The line shows a symbol with its value and the number of its uses in instructions. -/
def ShowsSymbol (p : Program) (texts : List (List Char)) (name line : String) : Prop :=
  ∃ position, p.symbols.value? name = some position ∧
    let uses := (Assembler.allEmissions {} (texts.zipIdx 1)).flatMap (Emission.uses name)
    line = Style.green.paint (padRight 19 name) ++ " | 0x" ++ hex 5 position.toUInt64.toNat ++
      " (" ++ toString uses.length ++ " refs)"

end Program

/-! ### Printing -/

theorem isSource_styledSource (source : List Char) : IsSource source (styledSource source) := by
  have painted (s : Style) (text : String) : s.paint text = Style.paintAll [s] text := by
    simp [Style.paint, Style.paintAll, String.join]
  unfold styledSource
  dsimp only
  split
  · exact ⟨[.dim], painted _ _⟩
  · split
    · exact ⟨[.cyan], painted _ _⟩
    · split
      · exact ⟨[.green], painted _ _⟩
      · exact ⟨[], by simp [Style.paintAll]⟩

theorem Image.bytesText_eq (m : Image) {a : Nat} (h : a + 4 ≤ memorySize) :
    m.bytesText (.ofNat 17 a) =
      " ".intercalate (((m.bytes.toList.drop a).take 4).map fun b => hex 2 b.toNat) := by
  have slice : (m.bytes.toList.drop a).take 4 =
      (List.range 4).map fun i => m.byte (.ofNat 17 a + .ofNat 17 i) := by
    refine List.ext_getElem? fun i => ?_
    by_cases hi : i < 4
    · have place : (BitVec.ofNat 17 (a + i)).toNat = a + i := (eq_ofNat_iff (by omega)).1 rfl
      have entry := m.getElem?_toList_bytes (.ofNat 17 (a + i))
      rw [place] at entry
      rw [List.getElem?_take_of_lt hi, List.getElem?_drop, entry, List.getElem?_map,
        List.getElem?_range hi, Option.map_some, BitVec.ofNat_add]
    · rw [List.getElem?_eq_none, List.getElem?_eq_none]
      · simpa using hi
      · rw [List.length_take]
        omega
  rw [slice, List.map_map]
  rfl

namespace Program

variable {p : Program}

/-- What the rows of a program have to be for a listing to show them. -/
structure Decodes (p : Program) (r : Row) : Prop where
  inside : r.addr + 4 ≤ memorySize
  insn : ∀ i, r.insn = some i → ∃ op, Op.decode (p.image.word (.ofNat 17 r.addr)) = .ok op

theorem showsWord_wordRow {r : Row} (h : p.Decodes r) (source : List Char)
    (number data : String) :
    p.ShowsWord r number data (p.wordRow r number
      (if r.insn.isSome then p.insnText (.ofNat 17 r.addr) source else data)) := by
  generalize hbody : (if r.insn.isSome then p.insnText (.ofNat 17 r.addr) source else data) = body
  refine ⟨h.inside, body, ?_, fun i hi => ?_, fun hn => ?_⟩
  · rw [wordRow, Image.bytesText_eq _ h.inside]
  · obtain ⟨op, decode⟩ := h.insn i hi
    rw [hi, Option.isSome_some, if_pos rfl, insnText, decode] at hbody
    exact ⟨op, decode, hbody.symm, hbody ▸ op.shownAs_styled⟩
  · rw [hn, Option.isSome_none, if_neg Bool.false_ne_true] at hbody
    exact hbody.symm

theorem shows_lineRows {rows : List Row} (h : ∀ r ∈ rows, p.Decodes r) (n : Nat)
    (source : List Char) : p.Shows n source rows (p.lineRows n source rows) := by
  have text := isSource_styledSource source
  cases rows with
  | nil => exact .source text
  | cons r rs =>
    rw [List.forall_mem_cons] at h
    refine .words text (showsWord_wordRow h.1 source _ _) ?_
    rw [List.forall₂_map_right_iff, List.forall₂_same]
    exact fun s hs => showsWord_wordRow (h.2 s hs) source _ _

end Program

/-! ### Texts without line ends -/

theorem isLine_hex (width n : Nat) : IsLine (hex width n).toList := by
  rw [toList_hex]
  exact (isToken_hexDigits width n).isLine

theorem isLine_replicate {c : Char} (hc : c ≠ '\n' ∧ c ≠ '\r') (n : Nat) :
    IsLine (List.replicate n c) := by
  intro d hd
  rw [(List.mem_replicate.1 hd).2]
  exact hc

theorem isLine_padLeft (width : Nat) {text : String} (h : IsLine text.toList) :
    IsLine (padLeft width text).toList := by
  rw [padLeft, String.toList_ofList]
  exact (isLine_replicate (by decide) _).append h

theorem isLine_padRight (width : Nat) {text : String} (h : IsLine text.toList) :
    IsLine (padRight width text).toList := by
  rw [padRight, String.toList_ofList]
  exact h.append (isLine_replicate (by decide) _)

theorem isLine_rule (n : Nat) : IsLine (Program.rule n).toList := by
  rw [Program.rule, String.toList_ofList]
  exact isLine_replicate (by decide) n

theorem Style.isLine_on (s : Style) : IsLine s.on.toList := by
  cases s <;> simp [on, onCode, IsLine]

theorem Style.isLine_off (s : Style) : IsLine s.off.toList := by
  cases s <;> simp [off, offCode, IsLine]

theorem Op.isLine_styled (op : Op) : IsLine op.styled.toList := by
  have operands : ∀ text ∈ op.operands.map String.toList, IsLine text := by
    rw [List.forall_mem_map, operands, List.forall_mem_map]
    intro f _
    cases f with
    | maddr | caddr =>
      rw [Field.literal, String.toList_append]
      exact .append (by simp [IsLine]) (isLine_hex _ _)
  have comma : IsLine ", ".toList := by simp [IsLine]
  simp only [styled, String.toList_append, String.toList_intercalate, isLine_append_iff]
  exact ⟨⟨⟨⟨Style.isLine_on _, isLine_padRight 13 op.opcode.isToken_mnemonic.isLine⟩,
    Style.isLine_on _⟩, isLine_intercalate comma operands⟩, Style.isLine_off _⟩

theorem IsSource.isUnbroken {source : List Char} {text : String} (h : IsSource source text)
    (feed : '\n' ∉ source) : IsUnbroken text.toList := by
  obtain ⟨styles, rfl⟩ := h
  have join {f : Style → String} (hf : ∀ s, IsLine (f s).toList) (styles : List Style) :
      IsLine (String.join (styles.map f)).toList := by
    rw [String.toList_join, List.flatMap_map]
    intro c hc
    obtain ⟨s, -, hs⟩ := List.mem_flatMap.1 hc
    exact hf s c hs
  have trimmed := isUnbroken_trim feed
  simp only [Style.paintAll, String.toList_append, String.toList_ofList]
  by_cases plain : (String.join (styles.map Style.off)).toList = []
  · rw [plain, List.append_nil]
    exact (join Style.isLine_on styles).append_isUnbroken trimmed
  · refine isUnbroken_append (fun hm => ?_) (join Style.isLine_off styles).isUnbroken plain
    rcases List.mem_append.1 hm with hm | hm
    · exact (join Style.isLine_on styles _ hm).1 rfl
    · exact trimmed.feed hm

namespace Program

variable {p : Program}

theorem ShowsWord.isUnbroken {r : Row} {number data line : String}
    (h : p.ShowsWord r number data line) (hn : IsLine number.toList)
    (hd : IsUnbroken data.toList) : IsUnbroken line.toList := by
  obtain ⟨body, rfl, insn, datum⟩ := h.text
  have behind : IsUnbroken body.toList := by
    cases hi : r.insn with
    | none => rwa [datum hi]
    | some i =>
      obtain ⟨op, -, rfl, -⟩ := insn i hi
      exact op.isLine_styled.isUnbroken
  have bytes : ∀ text ∈ (((p.image.bytes.toList.drop r.addr).take 4).map
      fun b => hex 2 b.toNat).map String.toList, IsLine text := by
    rw [List.forall_mem_map, List.forall_mem_map]
    exact fun b _ => isLine_hex 2 b.toNat
  have space : IsLine " ".toList := by simp [IsLine]
  rw [String.toList_append]
  refine IsLine.append_isUnbroken ?_ behind
  simp only [String.toList_append, String.toList_intercalate, isLine_append_iff]
  exact ⟨⟨⟨⟨⟨⟨by simp [IsLine], isLine_hex 5 _⟩, by simp [IsLine]⟩, isLine_intercalate space bytes⟩,
    by simp [IsLine]⟩, hn⟩, by simp [IsLine]⟩

theorem Shows.isUnbroken {n : Nat} {source : List Char} {rows : List Row} {lines : List String}
    (h : p.Shows n source rows lines) (feed : '\n' ∉ source) :
    ∀ line ∈ lines, IsUnbroken line.toList := by
  have number := isLine_padLeft 4 (isToken_toString n).isLine
  cases h with
  | source h =>
    rw [List.forall_mem_singleton, String.toList_append]
    refine IsLine.append_isUnbroken ?_ (h.isUnbroken feed)
    simp only [String.toList_append, isLine_append_iff]
    exact ⟨⟨by simp [IsLine], number⟩, by simp [IsLine]⟩
  | words h first rest =>
    rw [List.forall_mem_cons]
    have blank : IsLine "     ".toList := by simp [IsLine]
    have empty : IsUnbroken "".toList := IsLine.isUnbroken (by simp [IsLine])
    refine ⟨first.isUnbroken ?_ (h.isUnbroken feed),
      forall_mem_of_forall₂ rest fun _ _ h => h.isUnbroken blank empty⟩
    rw [String.toList_append]
    exact number.append (by simp [IsLine])

theorem ShowsSymbol.isLine {texts : List (List Char)} {name line : String}
    (h : p.ShowsSymbol texts name line) (hn : IsLine name.toList) : IsLine line.toList := by
  obtain ⟨position, -, rfl⟩ := h
  simp only [Style.paint, String.toList_append, isLine_append_iff]
  exact ⟨⟨⟨⟨⟨⟨⟨Style.isLine_on _, isLine_padRight 19 hn⟩, Style.isLine_off _⟩, by simp [IsLine]⟩,
    isLine_hex 5 _⟩, by simp [IsLine]⟩, (isToken_toString _).isLine⟩, by simp [IsLine]⟩

/-! ### Listings of programs -/

theorem forall₂_symbolRows {R : String → String → Prop} {symbols : List Symbol}
    (h : ∀ s ∈ symbols, ∃ row, symbolRow? s = some row ∧ R s.name row) :
    List.Forall₂ R (symbols.map Symbol.name) (symbols.filterMap symbolRow?) := by
  induction symbols with
  | nil => exact .nil
  | cons s symbols ih =>
    rw [List.forall_mem_cons] at h
    obtain ⟨⟨row, hr, shown⟩, rest⟩ := h
    rw [List.map_cons, List.filterMap_cons_some hr]
    exact .cons shown (ih rest)

section Assembled

open Assembler

variable {lines : List (List Char)} (h : ofLines lines = .ok p)

include h

/-- The rows of a program are those of its lines, in order, and lie inside the image. -/
theorem rows_of_ofLines :
    p.rows.toList = rowsFrom 0 (allEmissions {} (lines.zipIdx 1)) ∧
      ∀ r ∈ p.rows.toList, p.Decodes r := by
  have finish := finish_of_ofLines h
  have made := madeOf_of_finish finish p.symbols.agrees_value?
  obtain ⟨hi, spread⟩ := made.spread
  refine ⟨made.rows, fun r hr => ⟨?_, fun i insn => ?_⟩⟩
  · rw [made.rows] at hr
    refine (forall_row_iff (P := (· + 4 ≤ memorySize)) 0 _).2 (fun e he => ?_) r hr
    exact (spread.of_mem he).2.2
  · obtain ⟨insn, get, addr, -⟩ := made.exists_insn_of_row hr insn
    rw [addr]
    exact ⟨_, Assembled.decode_insn ⟨_, finish⟩ get⟩

theorem rows_sorted :
    (p.rows.toList.Pairwise fun r s => r.line ≤ s.line) ∧
      ∀ r ∈ p.rows.toList, 1 ≤ r.line ∧ r.line < 1 + lines.length := by
  rw [(rows_of_ofLines h).1]
  constructor
  · rw [← List.pairwise_map (f := Row.line) (R := (· ≤ ·)), map_line_rowsFrom, List.pairwise_map]
    exact pairwise_line_allEmissions {} lines 1
  · exact (forall_line_rowsFrom_iff (P := fun n => 1 ≤ n ∧ n < 1 + lines.length) 0 _).2
      fun e => line_of_mem_allEmissions

/-- The rows of a line are the words that it puts out. -/
theorem map_rowsAt (k : Nat) :
    ((p.rowsAt (k + 1)).map fun r => (r.addr, r.insn.isSome)) =
      (emissionsAt lines k).map fun e => (e.addr, e.content matches .insn _ _) := by
  have words (n : Nat) (es : List Emission) :
      ((rowsFrom n es).map fun r => (r.addr, r.insn.isSome)) =
        es.map fun e => (e.addr, e.content matches .insn _ _) := by
    fun_induction rowsFrom n es with
    | case1 n => rfl
    | case2 n line addr o operands es ih => rw [List.map_cons, ih, List.map_cons]; rfl
    | case3 n line addr b0 b1 b2 b3 es ih => rw [List.map_cons, ih, List.map_cons]; rfl
  rw [rowsAt, (rows_of_ofLines h).1, filter_rowsFrom_eq, words]

/-- Every symbol of a program is shown. -/
theorem showsSymbol_symbolRows :
    List.Forall₂ (p.ShowsSymbol lines) p.symbols.names
      (p.symbols.symbols.filterMap symbolRow?) := by
  have finish := finish_of_ofLines h
  have shown : ∀ s ∈ p.symbols.symbols,
      ∃ row, symbolRow? s = some row ∧ p.ShowsSymbol lines s.name row := by
    rw [symbols_of_finish finish]
    intro s hs
    have nodup := (wellFormed_feedAll (lines.zipIdx 1)).nodup
    obtain ⟨d, hd, -⟩ := ((exists_finish_feedAll_iff (lines.zipIdx 1)).1 ⟨p, finish⟩).1 s hs
    have value := SymbolTable.value?_of_mem nodup hs hd
    have origins := congrArg List.length (origins_feedAll (lines.zipIdx 1) s.name)
    rw [SymbolTable.origins, SymbolTable.referencesTo, SymbolTable.get?_of_mem nodup hs,
      List.length_map, Array.length_toList] at origins
    refine ⟨_, by rw [symbolRow?, hd, Option.map_some], d.position, ?_, ?_⟩
    · rw [symbols_of_finish finish]
      exact value
    · dsimp only
      rw [← origins]
      simp only [String.append_assoc]
      rfl
  exact forall₂_symbolRows shown

/-- No name has a line end. -/
theorem isLine_of_mem_names : ∀ name ∈ p.symbols.names, IsLine name.toList := by
  intro name hn
  rw [names_of_ofLines h, List.mem_eraseDups, List.mem_flatMap] at hn
  obtain ⟨k, -, hk⟩ := hn
  exact isLine_of_nonblank (nonblank_of_mem_mentionsAt hk)

/-- Every source line is shown with its words. -/
theorem exists_blocks (feed : ∀ text ∈ lines, '\n' ∉ text) :
    ∃ blocks : List (List String),
      p.sourceRows (lines.zipIdx 1) p.rows.toList = blocks.flatten ∧
      List.Forall₂ (fun text block => p.Shows text.2 text.1 (p.rowsAt text.2) block)
        (lines.zipIdx 1) blocks ∧
      ∀ line ∈ blocks.flatten, IsUnbroken line.toList := by
  obtain ⟨sorted, range⟩ := rows_sorted h
  have shown (text : List Char × Nat) : p.Shows text.2 text.1 (p.rowsAt text.2)
      (p.lineRows text.2 text.1 (p.rowsAt text.2)) :=
    shows_lineRows (fun r hr => (rows_of_ofLines h).2 r (List.mem_of_mem_filter hr)) _ _
  refine ⟨(lines.zipIdx 1).map fun text => p.lineRows text.2 text.1 (p.rowsAt text.2), ?_, ?_, ?_⟩
  · exact p.sourceRows_eq lines sorted fun r hr => (range r hr).1
  · rw [List.forall₂_map_right_iff, List.forall₂_same]
    exact fun text _ => shown text
  · intro line hl
    obtain ⟨block, hb, hl⟩ := List.mem_flatten.1 hl
    obtain ⟨text, ht, rfl⟩ := List.mem_map.1 hb
    exact (shown text).isUnbroken (feed _ (List.fst_mem_of_mem_zipIdx ht)) line hl

end Assembled

theorem isUnbroken_header {file : String} (hf : '\n' ∉ file.toList) (n : Nat) :
    IsUnbroken (rule 20 ++ "+------[" ++ file ++ "]" ++ rule n).toList := by
  have front : IsLine (rule 20 ++ "+------[").toList := by
    rw [String.toList_append]
    exact (isLine_rule 20).append (by simp [IsLine])
  have behind : IsLine ("]" ++ rule n).toList := by
    rw [String.toList_append]
    exact .append (by simp [IsLine]) (isLine_rule n)
  rw [String.append_assoc, String.toList_append, String.toList_append]
  refine isUnbroken_append (fun hm => ?_) behind.isUnbroken (by simp)
  rcases List.mem_append.1 hm with hm | hm
  · exact (front _ hm).1 rfl
  · exact hf hm

/-- A listing reads back as its header, the lines for each source line, a separator and a line for
each symbol.  Each source line is shown with the words that it puts out, and all of them together
are the words of the program, each once and in order.  The symbols are in order of their first
appearance. -/
theorem lines_listing {source file : String} (h : assemble source = .ok p)
    (hf : '\n' ∉ file.toList) :
    let texts := Text.lines source.toList
    ∃ (blocks : List (List String)) (symbols : List String),
      Text.lines (p.listing file source).toList =
        ((rule 20 ++ "+------[" ++ file ++ "]" ++ rule (45 - file.utf8ByteSize)) ::
          (blocks.flatten ++ (rule 20 ++ "+" ++ rule 53) :: symbols)).map String.toList ∧
      List.Forall₂ (fun text block => p.Shows text.2 text.1 (p.rowsAt text.2) block)
        (texts.zipIdx 1) blocks ∧
      (∀ k, ((p.rowsAt (k + 1)).map fun r => (r.addr, r.insn.isSome)) =
        (Assembler.emissionsAt texts k).map fun e => (e.addr, e.content matches .insn _ _)) ∧
      (List.range' 1 texts.length).flatMap p.rowsAt = p.rows.toList ∧
      List.Forall₂ (p.ShowsSymbol texts) p.symbols.names symbols ∧
      p.symbols.names =
        ((List.range texts.length).flatMap (Assembler.mentionsAt texts)).eraseDups := by
  intro texts
  obtain ⟨sorted, range⟩ := rows_sorted h
  obtain ⟨blocks, rows, shown, sources⟩ := exists_blocks h fun text => feed_not_mem_of_mem_lines
  have symbols := showsSymbol_symbolRows h
  have printed : p.listing file source = unlines
      ((rule 20 ++ "+------[" ++ file ++ "]" ++ rule (45 - file.utf8ByteSize)) ::
        (blocks.flatten ++ (rule 20 ++ "+" ++ rule 53) ::
          p.symbols.symbols.filterMap symbolRow?)) := by
    rw [listing, listingLines, rows]
    simp only [List.append_assoc, List.cons_append, List.nil_append]
  refine ⟨blocks, _, ?_, shown, map_rowsAt h, flatMap_filter_line sorted range, symbols,
    names_of_ofLines h⟩
  rw [printed]
  refine lines_unlines ?_
  rw [List.forall_mem_cons, List.forall_mem_append, List.forall_mem_cons]
  refine ⟨isUnbroken_header hf _, sources, ?separator, ?symbols⟩
  case separator =>
    simp only [String.toList_append]
    exact (((isLine_rule 20).append (by simp [IsLine])).append (isLine_rule 53)).isUnbroken
  case symbols =>
    exact forall_mem_of_forall₂ ((List.forall₂_and_left _ _).2 ⟨isLine_of_mem_names h, symbols⟩)
      fun _ _ h => (h.2.isLine h.1).isUnbroken

/-- A call of a label further on, with two words of data in between. -/
def forwardSource : String :=
  "# forward\n.code\n  Call sub\n.data\n1 2 3 4 5 6 7 8\n.code\nsub:\nReturn\n"

theorem lines_listing_forwardSource :
    ∃ p call symbol, assemble forwardSource = .ok p ∧
      ((p.rowsAt 5).map fun r => (r.addr, r.insn.isSome)) = [(4, false), (8, false)] ∧
      (∃ front body, call = front ++ body ∧
        words isAsciiBlank (Style.plain body.toList) = ["Call".toList, "0x0000c".toList]) ∧
      p.symbols.names = ["sub"] ∧ p.ShowsSymbol (Text.lines forwardSource.toList) "sub" symbol ∧
      ∀ line ∈ [call, symbol],
        line.toList ∈ Text.lines (p.listing "forward.s" forwardSource).toList := by
  obtain ⟨p, hp⟩ := (exists_ofLines_iff (Text.lines forwardSource.toList)).2
    ⟨by decide +kernel, by decide +kernel, by decide +kernel⟩
  have file : '\n' ∉ "forward.s".toList := by decide +kernel
  obtain ⟨blocks, symbols, lines, sources, words, -, shown, names⟩ := lines_listing hp file
  have only : p.symbols.names = ["sub"] := names.trans (by decide +kernel)
  -- the word of the third line is the call of the label behind the data
  have finish := finish_of_ofLines hp
  have agrees : p.symbols.Agrees fun name =>
      ((Assembler.feedAll {} ((Text.lines forwardSource.toList).zipIdx 1)).symbols.value?
        name).getD 0 := by
    rw [Assembler.symbols_of_finish finish]
    exact SymbolTable.agrees_value? _
  have insns : p.insns.toList = [⟨0, .call, 12, 0, 3⟩, ⟨12, .ret, 0, 0, 8⟩] :=
    (madeOf_of_finish finish agrees).insns.trans (by decide +kernel)
  have first : p.insns[0]? = some ⟨0, .call, 12, 0, 3⟩ := by
    rw [← Array.getElem?_toList, insns]
    rfl
  have decode := Assembled.decode_insn ⟨_, finish⟩ first
  obtain ⟨call, hcall, disassembled⟩ : ∃ call ∈ blocks.flatten, ∃ front body,
      call = front ++ body ∧
        Text.words isAsciiBlank (Style.plain body.toList) =
          ["Call".toList, "0x0000c".toList] := by
    have row : (p.rowsAt 3).map (fun r => (r.addr, r.insn.isSome)) = [(0, true)] :=
      (words 2).trans (by decide +kernel)
    obtain ⟨r, only, place⟩ := List.map_eq_singleton_iff.1 row
    obtain ⟨addr, insn⟩ : r.addr = 0 ∧ r.insn.isSome := by simpa using place
    have count : 2 < ((Text.lines forwardSource.toList).zipIdx 1).length := by decide +kernel
    have third := sources.get count (sources.length_eq ▸ count)
    have text : ((Text.lines forwardSource.toList).zipIdx 1).get ⟨2, count⟩ =
        ("  Call sub".toList, 3) := by
      refine Option.some.inj ((List.getElem?_eq_getElem count).symm.trans ?_)
      decide +kernel
    have inside := List.get_mem blocks ⟨2, sources.length_eq ▸ count⟩
    rw [text] at third
    dsimp only at third
    rw [only] at third
    generalize blocks.get ⟨2, _⟩ = block at third inside
    cases third with
    | words _ shown _ =>
      obtain ⟨body, line, decodes, -⟩ := shown.text
      obtain ⟨i, hi⟩ := Option.isSome_iff_exists.1 insn
      obtain ⟨op, hop, -, reads⟩ := decodes i hi
      rw [addr] at hop
      obtain rfl := Except.ok.inj (hop.symm.trans decode)
      exact ⟨_, List.mem_flatten_of_mem inside (.head _), _, body, line,
        reads.trans (by decide +kernel)⟩
  rw [only] at shown
  cases shown with
  | @cons _ symbol _ _ hsymbol _ =>
    refine ⟨p, call, symbol, hp, (words 4).trans (by decide +kernel), disassembled, only, hsymbol,
      ?_⟩
    rw [lines, List.forall_mem_cons, List.forall_mem_singleton]
    exact ⟨List.mem_map_of_mem (.tail _ (List.mem_append_left _ hcall)),
      List.mem_map_of_mem (.tail _ (List.mem_append_right _ (.tail _ (.head _))))⟩

end Program

end Macc
