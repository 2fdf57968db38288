import Macc.Instruction.Printing
import Macc.Proofs.Assembly.InstructionLines

/-!
# Printed instructions assemble again

The text of an instruction is a mnemonic and hexadecimal literals, each of which is read as its
number (`Field.value?_literal`).  So it is a line of the instruction (`Op.writtenAs_text`), and a code
section of printed instructions assembles to their words from address zero on
(`assemble_disassembly`).
-/

namespace Macc

open Text

/-! ### Printed operands -/

theorem Literal.value?_hexDigits {n : Nat} (width : Nat) (h : n < 0x8000000000000000) :
    value? ('0' :: 'x' :: hexDigits width n) = some (n : Int) := by
  have unsigned : value? ('0' :: 'x' :: hexDigits width n) =
      (magnitude? ('0' :: 'x' :: hexDigits width n)).map Int.ofNat := rfl
  have hexadecimal : radixed ('0' :: 'x' :: hexDigits width n) = (16, hexDigits width n) := rfl
  rw [unsigned, magnitude?, hexadecimal, readNat?_hexDigits, Option.filter_some,
    if_pos (decide_eq_true h)]
  rfl

theorem Field.toList_literal (f : Field) (value : Word) :
    ∃ width, (f.literal value).toList = '0' :: 'x' :: hexDigits width value.toNat := by
  cases f with
  | maddr => exact ⟨5, by simp [literal, toList_hex]⟩
  | caddr => exact ⟨3, by simp [literal, toList_hex]⟩

theorem Field.value?_literal (f : Field) (value : Word) :
    Literal.value? (f.literal value).toList = some (value.toNat : Int) := by
  obtain ⟨width, h⟩ := f.toList_literal value
  have := value.isLt
  rw [h, Literal.value?_hexDigits width (by omega)]

/-- A printed instruction is the line of the instruction. -/
theorem Op.writtenAs_text (op : Op) : op.WrittenAs op.text.toList := by
  refine ⟨op.operands.map String.toList, ?_, ?_⟩
  · rw [Spelled, operands, List.map_map, List.forall₂_map_left_iff, List.forall₂_same]
    exact fun f _ => f.value?_literal _
  · rw [text, line]
    by_cases h : op.operands = []
    · simp [h]
    · simp [h, String.toList_intercalate]

/-! ### Programs of printed instructions -/

/-- The lines of a code section that lists instructions. -/
def disassembly (ops : List Op) : List String := ".code" :: ops.map Op.text

/-- Both ways to join the lines of a disassembly read back. -/
theorem lines_disassembly {ops : List Op} {source : String}
    (h : source = unlines (disassembly ops) ∨ source = "\n".intercalate (disassembly ops)) :
    lines source.toList = ".code".toList :: ops.map fun op => op.text.toList := by
  have directive : IsLine ".code".toList := by simp [IsLine]
  have unbroken : ∀ l ∈ disassembly ops, IsUnbroken l.toList :=
    List.forall_mem_cons.2 ⟨directive.isUnbroken,
      List.forall_mem_map.2 fun op _ => op.writtenAs_text.isLine.isUnbroken⟩
  have filled : ∀ l ∈ disassembly ops, l.toList ≠ [] :=
    List.forall_mem_cons.2 ⟨by simp, List.forall_mem_map.2 fun op _ => op.writtenAs_text.ne_nil⟩
  rw [lines_joined h unbroken filled, disassembly, List.map_cons, List.map_map]
  rfl

/-- Printed instructions that fit into memory assemble to their words from address zero on. -/
theorem assemble_disassembly {ops : List Op} (fits : 4 * ops.length ≤ memorySize)
    {source : String}
    (hs : source = unlines (disassembly ops) ∨ source = "\n".intercalate (disassembly ops)) :
    ∃ p, Program.assemble source = .ok p ∧
      (∀ i op, ops[i]? = some op → p.image.word (.ofNat 17 (4 * i)) = op.encode) ∧
      (∀ x, p.image.isDefined x ↔ x.toNat < 4 * ops.length) ∧ p.symbols = {} := by
  have enter : Assembler.feed {} 1 ".code".toList = ({ current := some .code }, .ok ()) :=
    Assembler.feed_enter_nil 1 (by decide)
  have written : List.Forall₂ Op.WrittenAs ops (ops.map fun op => op.text.toList) := by
    rw [List.forall₂_map_right_iff, List.forall₂_same]
    exact fun op _ => op.writtenAs_text
  have room : 0 + 4 * ops.length < UInt64.size := by
    rw [Nat.zero_add]
    exact Nat.lt_of_le_of_lt fits (by decide)
  obtain ⟨b, fed, -, -, symbols, image, insns⟩ :=
    foldlM_feedLine_written written (a := { current := some .code }) rfl room 2
  have words : (b.insns.toList.map fun i => (i.position, i.encode)) = wordsFrom 0 ops := by
    rw [insns]
    exact map_insnsFrom 2 0 ops
  have inside := fits_wordsFrom fits
  have finish := b.finish_of_symbols_eq_empty symbols
    (fun i hi => inside _ (words ▸ List.mem_map_of_mem hi))
  have fresh : b.image = Image.empty := image
  rw [words, fresh] at finish
  refine ⟨⟨Image.empty.setWords (wordsFrom 0 ops), {}, b.insns, b.rows⟩, ?program,
    fun i op hi => ?word, fun x => ?defined, rfl⟩
  case program =>
    rw [Program.assemble, lines_disassembly hs, Program.ofLines, List.zipIdx_cons,
      List.foldlM_cons, Program.feedLine, enter]
    dsimp only [bind, Except.bind]
    rw [fed]
    exact finish
  case word =>
    have mem : (4 * i, op.encode) ∈ wordsFrom 0 ops :=
      mem_wordsFrom_iff.2 ⟨i, op, hi, by rw [Nat.zero_add]⟩
    have word := Image.word_setWords Image.empty inside (pairwise_wordsFrom 0 ops) mem
    exact word
  case defined =>
    rw [Image.isDefined_setWords_iff _ x inside, exists_covers_wordsFrom_iff]
    simp [Image.isDefined_empty]

/-- Instructions with operands that are wider than their fields. -/
def wideOps : List Op :=
  [.execute 0x203 0xffffffff, .macc (.max .min) 0x20004 0x1ff, .ret]

theorem assemble_wideOps :
    4 * wideOps.length ≤ memorySize ∧
      ∃ p, Program.assemble ".code\nExecute 0x203, 0xffffffff\nMMAXN 0x20004, 0x1ff\nReturn\n" =
          .ok p ∧
        p.image.word 0 = 0xffff80c3 ∧ p.image.word 8 = 2 ∧ p.image.isDefined 11 ∧
        p.image.isDefined 12 = false := by
  have fits : 4 * wideOps.length ≤ memorySize := by decide
  obtain ⟨p, hp, words, defined, -⟩ := assemble_disassembly fits (.inl rfl)
  have source : unlines (disassembly wideOps) =
      ".code\nExecute 0x203, 0xffffffff\nMMAXN 0x20004, 0x1ff\nReturn\n" := by
    decide +kernel
  refine ⟨fits, p, source ▸ hp, ?_, ?_, ?_, ?_⟩
  · exact (words 0 _ rfl).trans (by decide)
  · exact (words 2 _ rfl).trans (by decide)
  · exact (defined 11).2 (by decide)
  · exact Bool.eq_false_iff.2 fun h => absurd ((defined 12).1 h) (by decide)

end Macc
