import Macc.Instruction.Printing
import Macc.Proofs.Text.Words

/-!
# Styled instructions

`Style.plain` takes the control sequences out of a text.  What is left of a styled instruction are
the two columns of its text (`Op.plain_styled`), so its words are those of the instruction in
assembly syntax (`Op.shownAs_styled`).
-/

namespace Macc

open Text

namespace Style

/-- What is left of a text, or of a text that begins within a control sequence, when its control
sequences are taken out.  Each goes from an escape character to the next letter m. -/
def plainFrom : Bool → List Char → List Char
  | _, [] => []
  | true, c :: cs => plainFrom (c ≠ 'm') cs
  | false, c :: cs => if c = '\x1b' then plainFrom true cs else c :: plainFrom false cs

def plain (text : List Char) : List Char := plainFrom false text

theorem plain_append {text : List Char} (h : '\x1b' ∉ text) (rest : List Char) :
    plain (text ++ rest) = text ++ plain rest := by
  induction text with
  | nil => rfl
  | cons c text ih =>
    rw [List.mem_cons, not_or] at h
    rw [plain, List.cons_append, plainFrom, if_neg (Ne.symm h.1)]
    exact congrArg (c :: ·) (ih h.2)

theorem plain_on_append (s : Style) (rest : List Char) :
    plain (s.on.toList ++ rest) = plain rest := by
  cases s <;> simp [plain, on, onCode, plainFrom]

theorem plain_off (s : Style) : plain s.off.toList = [] := by
  cases s <;> simp [plain, off, offCode, plainFrom]

end Style

theorem Opcode.isToken_mnemonic (o : Opcode) : IsToken o.mnemonic.toList := by
  constructor
  · cases o <;> decide
  · refine List.all_eq_true.1 ?_
    cases o <;> decide

/-- The first column of a styled instruction has room for a blank behind every mnemonic. -/
theorem Opcode.length_mnemonic_lt (o : Opcode) : o.mnemonic.toList.length < 13 := by
  cases o <;> decide

/-- An operand is written in letters and digits. -/
theorem Field.isToken_literal (f : Field) (value : Word) : IsToken (f.literal value).toList := by
  have zero : '0'.isAlphanum := by decide
  have radix : 'x'.isAlphanum := by decide
  cases f <;>
  · rw [literal, String.toList_append, toList_hex]
    exact .cons zero (.cons radix (isToken_hexDigits _ _))

namespace Op

variable (op : Op)

theorem isToken_of_mem_operands : ∀ text ∈ op.operands, IsToken text.toList := by
  rw [operands, List.forall_mem_map]
  exact fun f _ => f.isToken_literal _

theorem escape_notMem_operands : '\x1b' ∉ (", ".intercalate op.operands).toList := by
  rw [String.toList_intercalate]
  refine fun escape => forall_mem_intercalate (P := (· ≠ '\x1b')) ?_ ?_ _ escape rfl
  · simp
  · rw [List.forall_mem_map]
    intro text ht c hc e
    exact absurd ((op.isToken_of_mem_operands text ht).isAlphanum c hc) (e ▸ by decide)

/-- Without its colours a styled instruction has the mnemonic and the operands in columns. -/
theorem plain_styled :
    Style.plain op.styled.toList =
      (padRight 13 op.opcode.mnemonic).toList ++ (", ".intercalate op.operands).toList := by
  have column : '\x1b' ∉ (padRight 13 op.opcode.mnemonic).toList := by
    rw [padRight, String.toList_ofList, List.rightpad, List.mem_append, List.mem_replicate]
    rintro (escape | ⟨-, blank⟩)
    · exact op.opcode.isToken_mnemonic.not_mem (by decide) escape
    · cases blank
  simp only [styled, String.toList_append, List.append_assoc]
  rw [Style.plain_on_append, Style.plain_append column, Style.plain_on_append,
    Style.plain_append op.escape_notMem_operands, Style.plain_off, List.append_nil]

/-- The text is the instruction in assembly syntax, but for colours and the width of gaps. -/
def ShownAs (text : String) : Prop :=
  words isAsciiBlank (Style.plain text.toList) = words isAsciiBlank op.text.toList

theorem shownAs_styled : op.ShownAs op.styled := by
  have blank : isAsciiBlank ' ' := by decide
  have length := op.opcode.length_mnemonic_lt
  -- at least one blank stands behind the mnemonic
  obtain ⟨k, width⟩ := Nat.exists_eq_add_one_of_ne_zero (Nat.sub_ne_zero_of_lt length)
  rw [ShownAs, plain_styled, padRight, String.toList_ofList, List.rightpad, width,
    List.replicate_succ, List.append_assoc, List.cons_append, words_append_cons blank,
    words_append_of_blank fun c hc => (List.mem_replicate.1 hc).2 ▸ blank, text]
  split
  next none => rw [none]; simp [words]
  next =>
    rw [String.toList_append, String.toList_append, List.append_assoc]
    exact (words_append_cons blank _ _).symm

end Op

end Macc
