import Macc.Proofs.Assembly.Cursor
import Macc.Proofs.Assembly.Relocation
import Macc.Proofs.Image.Words
import Macc.Proofs.Instruction.Styling

/-!
# Lines of instructions

The line of an instruction is its mnemonic and its operands, here written as integer literals
(`Op.WrittenAs`).  In a code section each literal counts as its number (`Op.terms_of_spelled`), so
the line appends the instruction and nothing else (`Op.WrittenAs.feed`), and several such lines
append their instructions one behind the other (`foldlM_feedLine_written`).
-/

namespace Macc

open Text

/-! ### The line of an instruction -/

namespace Op

/-- The texts are integer literals that stand for the operands. -/
def Spelled (op : Op) (ws : List (List Char)) : Prop :=
  List.Forall₂ (fun w f => Literal.value? w = some ((op.field f).toNat : Int)) ws
    op.opcode.format.fields

/-- The mnemonic and given operands. -/
def line (op : Op) (ws : List (List Char)) : List Char :=
  op.opcode.mnemonic.toList ++ if ws = [] then [] else ' ' :: [',', ' '].intercalate ws

/-- The text is the instruction with its operands written as integer literals. -/
def WrittenAs (op : Op) (text : List Char) : Prop := ∃ ws, op.Spelled ws ∧ text = op.line ws

theorem ofLine_line {op : Op} {ws : List (List Char)} (h : op.Spelled ws) :
    Statement.ofLine (some .code) (op.line ws) = .row op.opcode.mnemonic.toList ws := by
  have token := op.opcode.isToken_mnemonic
  have literal := Literal.exists_value?_of_forall₂ h
  have words : ∀ w ∈ ws, IsWord w := fun w hw =>
    have ⟨_, hv⟩ := literal w hw
    Literal.isWord_of_value? hv
  have commas : ∀ w ∈ ws, ',' ∉ w := fun w hw =>
    have ⟨_, hv⟩ := literal w hw
    Literal.not_mem_of_value? hv (by decide) (by decide) (by decide)
  rw [line]
  split
  next hn =>
    subst hn
    rw [Statement.ofLine_of_isToken token (by simp)]
    rfl
  next =>
    rw [Statement.ofLine_of_isToken token (by simp [isAsciiBlank]), List.drop_one, List.tail_cons,
      Statement.operandsOf_commas words commas]

/-- The operands as terms, each with the field that it is added into. -/
def terms (op : Op) : List (Field × Term) :=
  op.opcode.format.fields.map fun f => (f, .literal (.ofInt (op.field f).toNat))

theorem terms_of_spelled {op : Op} {ws : List (List Char)} (h : op.Spelled ws) :
    op.opcode.terms ws = op.terms := by
  unfold Spelled at h
  rw [Opcode.terms, Op.terms]
  generalize op.opcode.format.fields = fields at h ⊢
  induction h with
  | nil => rfl
  | cons hv _ ih =>
    rw [List.zip_cons_cons, List.flatMap_cons, ih, List.map_cons]
    dsimp only
    rw [Literal.ofOperand_of_value? hv]
    rfl

theorem checkInsn_of_spelled {op : Op} {ws : List (List Char)} (h : op.Spelled ws) :
    Assembler.checkInsn op.opcode.mnemonic.toList ws = .ok (.emit op.opcode op.terms) := by
  have arity : op.opcode.format.arity = ws.length := h.length_eq.symm
  rw [Assembler.checkInsn, String.ofList_toList, Opcode.ofMnemonic?_mnemonic]
  dsimp only
  rw [if_neg (Decidable.not_not.2 arity), ← terms_of_spelled h]

namespace WrittenAs

variable {op : Op} {text : List Char}

theorem isLine (h : op.WrittenAs text) : IsLine text := by
  obtain ⟨ws, spelled, rfl⟩ := h
  have operands : IsLine ([',', ' '].intercalate ws) := by
    refine isLine_intercalate (by simp [IsLine]) fun w hw => ?_
    obtain ⟨v, hv⟩ := Literal.exists_value?_of_forall₂ spelled w hw
    exact Literal.isLine_of_value? hv
  rw [line]
  refine op.opcode.isToken_mnemonic.isLine.append ?_
  split
  · exact fun c hc => by cases hc
  · exact List.forall_mem_cons.2 ⟨by decide, operands⟩

theorem ne_nil (h : op.WrittenAs text) : text ≠ [] := by
  obtain ⟨ws, -, rfl⟩ := h
  exact List.append_ne_nil_of_left_ne_nil op.opcode.isToken_mnemonic.ne_nil _

/-- In a code section the line of an instruction appends it. -/
theorem feed (h : op.WrittenAs text) {a : Assembler} (hc : a.current = some .code)
    (room : a.cursor + 4 < UInt64.size) (line : Nat) :
    a.feed line text = (a.emitInsn line op.opcode op.terms, .ok ()) := by
  obtain ⟨ws, spelled, rfl⟩ := h
  have check : a.check (.ofLine a.current (op.line ws)) = .ok (.emit op.opcode op.terms) := by
    rw [hc, ofLine_line spelled, Assembler.check, hc]
    exact checkInsn_of_spelled spelled
  rw [Assembler.feed_of_ok check, Assembler.perform, if_pos room]

end WrittenAs

theorem isText_of_writtenAs {ops : List Op} {texts : List (List Char)}
    (h : List.Forall₂ WrittenAs ops texts) : ∀ t ∈ texts, IsLine t ∧ t ≠ [] := by
  induction h with
  | nil => simp
  | cons written _ ih => exact List.forall_mem_cons.2 ⟨⟨written.isLine, written.ne_nil⟩, ih⟩

/-! ### The appended instruction -/

/-- The instruction as the assembler keeps it. -/
def insn (op : Op) (line position : Nat) : Insn :=
  ⟨position, op.opcode, .ofInt op.maddr.toNat, .ofInt op.caddr.toNat, line⟩

theorem addLiterals_terms (op : Op) (line position : Nat) :
    (⟨position, op.opcode, 0, 0, line⟩ : Insn).addLiterals op.terms = op.insn line position := by
  have unused {f : Field} (hf : f ∉ op.opcode.format.fields) :
      Int64.ofInt (op.field f).toNat = 0 := by
    rw [field_eq_zero hf]
    rfl
  have sums (format : Format) (value : Field → Int64)
      (hv : ∀ f, f ∉ format.fields → value f = 0) :
      (⟨position, op.opcode, 0, 0, line⟩ : Insn).addLiterals
        (format.fields.map fun f => (f, .literal (value f))) =
      ⟨position, op.opcode, value .maddr, value .caddr, line⟩ := by
    cases format <;> simp_all [Format.fields, Insn.addLiterals, Insn.add]
  exact sums op.opcode.format (fun f => .ofInt (op.field f).toNat) fun f => unused

theorem addTerms_terms (op : Op) (t : SymbolTable) (insn line : Nat) :
    t.addTerms insn line op.terms = t := by
  rw [terms]
  induction op.opcode.format.fields with
  | nil => rfl
  | cons f fs ih => exact ih

theorem setWidth_ofInt (n : Nat) (value : Word) :
    (Int64.ofInt value.toNat).toBitVec.setWidth n = value.setWidth n := by
  refine BitVec.eq_of_toNat_eq ?_
  simp

theorem encode_insn (op : Op) (line position : Nat) :
    (op.insn line position).encode = op.encode := by
  rw [Insn.encode, insn, encode]
  dsimp only
  rw [setWidth_ofInt, setWidth_ofInt]

end Op

/-! ### Consecutive instructions -/

/-- Instructions at consecutive lines and addresses. -/
def insnsFrom (line addr : Nat) : List Op → List Insn
  | [] => []
  | op :: ops => op.insn line addr :: insnsFrom (line + 1) (addr + 4) ops

/-- The words of instructions at consecutive addresses. -/
def wordsFrom (addr : Nat) : List Op → List (Nat × Word)
  | [] => []
  | op :: ops => (addr, op.encode) :: wordsFrom (addr + 4) ops

theorem map_insnsFrom (line addr : Nat) (ops : List Op) :
    (insnsFrom line addr ops).map (fun i => (i.position, i.encode)) = wordsFrom addr ops := by
  induction ops generalizing line addr with
  | nil => rfl
  | cons op ops ih => rw [insnsFrom, List.map_cons, ih, op.encode_insn, wordsFrom]; rfl

theorem wordsFrom_eq_wordsAt (addr : Nat) (ops : List Op) :
    wordsFrom addr ops = Image.wordsAt addr (ops.map Op.encode) := by
  induction ops generalizing addr with
  | nil => rfl
  | cons op ops ih => rw [wordsFrom, ih, List.map_cons, Image.wordsAt]

theorem mem_wordsFrom_iff {addr : Nat} {ops : List Op} {w : Nat × Word} :
    w ∈ wordsFrom addr ops ↔ ∃ i op, ops[i]? = some op ∧ w = (addr + 4 * i, op.encode) := by
  simp [wordsFrom_eq_wordsAt, Image.mem_wordsAt_iff]

theorem pairwise_wordsFrom (addr : Nat) (ops : List Op) :
    (wordsFrom addr ops).Pairwise Image.Apart := by
  rw [wordsFrom_eq_wordsAt]
  exact Image.pairwise_wordsAt _ _

theorem fits_wordsFrom {ops : List Op} (h : 4 * ops.length ≤ memorySize) :
    ∀ w ∈ wordsFrom 0 ops, w.1 + 4 ≤ memorySize := by
  intro w hw
  rw [wordsFrom_eq_wordsAt] at hw
  have := (Image.bounds_of_mem_wordsAt hw).2
  rw [List.length_map] at this
  omega

theorem exists_covers_wordsFrom_iff (ops : List Op) (x : Address) :
    (∃ w ∈ wordsFrom 0 ops, Image.Covers w.1 x) ↔ x.toNat < 4 * ops.length := by
  constructor
  · rintro ⟨w, hw, hx⟩
    obtain ⟨i, op, hi, rfl⟩ := mem_wordsFrom_iff.1 hw
    have := (List.getElem?_eq_some_iff.1 hi).1
    rw [Image.Covers] at hx
    dsimp only at hx
    omega
  · intro hx
    have hi : x.toNat / 4 < ops.length := by omega
    have found : ops[x.toNat / 4]? = some ops[x.toNat / 4] := List.getElem?_eq_getElem hi
    refine ⟨_, mem_wordsFrom_iff.2 ⟨_, _, found, rfl⟩, ?_⟩
    rw [Image.Covers]
    dsimp only
    omega

/-- In a code section, lines of instructions append the instructions and nothing else. -/
theorem foldlM_feedLine_written {ops : List Op} {texts : List (List Char)}
    (h : List.Forall₂ Op.WrittenAs ops texts) {a : Assembler} (hc : a.current = some .code)
    (room : a.cursor + 4 * ops.length < UInt64.size) (line : Nat) :
    ∃ b, (texts.zipIdx line).foldlM Program.feedLine a = .ok b ∧ b.current = some .code ∧
      b.cursor = a.cursor + 4 * ops.length ∧ b.symbols = a.symbols ∧ b.image = a.image ∧
      b.insns.toList = a.insns.toList ++ insnsFrom line a.cursor ops := by
  induction h generalizing a line with
  | nil => exact ⟨a, rfl, hc, rfl, rfl, rfl, (List.append_nil _).symm⟩
  | @cons op text ops texts written _ ih =>
    have next : (a.emitInsn line op.opcode op.terms).cursor = a.cursor + 4 := rfl
    rw [List.length_cons] at room
    obtain ⟨b, fed, current, cursor, symbols, image, insns⟩ :=
      ih (a := a.emitInsn line op.opcode op.terms) hc (by omega) (line + 1)
    refine ⟨b, ?_, current, ?_, ?_, ?_, ?_⟩
    · rw [List.zipIdx_cons, List.foldlM_cons, Program.feedLine, written.feed hc (by omega)]
      exact fed
    · rw [cursor, List.length_cons, next]
      omega
    · rw [symbols, Assembler.emitInsn]
      exact op.addTerms_terms _ _ _
    · rw [image, Assembler.emitInsn]
    · rw [insns, Assembler.emitInsn]
      simp [op.addLiterals_terms, insnsFrom]

theorem Assembler.finish_of_symbols_eq_empty {a : Assembler} (hs : a.symbols = {})
    (hf : ∀ i ∈ a.insns.toList, i.position + 4 ≤ memorySize) :
    a.finish = .ok ⟨a.image.setWords (a.insns.toList.map fun i => (i.position, i.encode)), {},
      a.insns, a.rows⟩ := by
  have none : a.symbols.relocations = .ok [] := by
    rw [hs]
    rfl
  rw [finish, none]
  dsimp only
  rw [show relocate a.insns [] = a.insns from rfl, foldlM_writeInsn_eq_ok a.image hf, hs]
  rfl

end Macc
