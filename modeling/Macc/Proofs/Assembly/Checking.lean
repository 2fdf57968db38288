import Macc.Proofs.Assembly.Emission
import Macc.Proofs.Assembly.Relocation

/-!
# What statements are answered with

`Assembler.Checked` lists what `check` can answer, with what is known of each answer, and
`Assembler.checked` says that there are no others.  So a law of what lines ask for has a case for
each action and one for all refusals.
-/

namespace Macc

/-- The error has nothing to do with the room in the image or behind the cursor. -/
def AssemblyError.IsRefusal (e : AssemblyError) : Prop := (∀ i, e ≠ .image i) ∧ e ≠ .overflow

theorem AssemblyError.IsRefusal.aborts {e : AssemblyError} (h : e.IsRefusal) :
    e.aborts = false := by
  cases e with
  | image i => exact absurd rfl (h.1 i)
  | overflow => exact absurd rfl h.2
  | _ => rfl

namespace Assembler

variable {a : Assembler}

/-- What a statement is answered with: a refusal, or an action that the state of the assembler
allows. -/
inductive Checked (a : Assembler) : Statement → Except AssemblyError Action → Prop
  | refused {s : Statement} {e : AssemblyError} (h : e.IsRefusal) : Checked a s (.error e)
  | blank : Checked a .blank (.ok .nothing)
  | label {name : List Char} (new : a.symbols.definition? (String.ofList name) = none) :
      Checked a (.label name) (.ok (.define (String.ofList name) (.ofNat a.cursor)))
  | symbol {name text : List Char} {v : Int} (hv : Literal.value? text = some v)
      (new : a.symbols.definition? (String.ofList name) = none) :
      Checked a (.symbol [name, text]) (.ok (.define (String.ofList name) (.ofInt v)))
  | enter {kind : SectionKind} {operands : List (List Char)} {addr : Nat}
      (start : SectionStart a.cursor addr) :
      Checked a (.enter kind operands) (.ok (.enter kind addr))
  | insn {head : List Char} {operands : List (List Char)} {o : Opcode}
      (current : a.current = some .code) (ho : Opcode.ofMnemonic? (String.ofList head) = some o)
      (arity : o.format.arity = operands.length) :
      Checked a (.row head operands) (.ok (.emit o (o.terms operands)))
  | data {head : List Char} {operands : List (List Char)} {bytes : List Byte}
      (current : a.current = some .data) (full : (head :: operands).length % 4 = 0)
      (hb : (head :: operands).mapM byteOf = .ok bytes) :
      Checked a (.row head operands) (.ok (.data (wordsOf bytes)))

theorem checkDefine_cases (a : Assembler) (name : List Char) (position : Int64) :
    (∃ e, e.IsRefusal ∧ a.checkDefine name position = .error e) ∨
      a.symbols.definition? (String.ofList name) = none ∧
        a.checkDefine name position = .ok (.define (String.ofList name) position) := by
  unfold checkDefine
  dsimp only
  split
  next previous _ => exact .inl ⟨.redefined _ previous.line, by simp [AssemblyError.IsRefusal], rfl⟩
  next new => exact .inr ⟨new, rfl⟩

theorem checked_enter (a : Assembler) (kind : SectionKind) (operands : List (List Char)) :
    a.Checked (.enter kind operands) (a.checkEnter kind operands) := by
  unfold checkEnter
  split
  · exact .enter (.inl rfl)
  · split
    · exact .refused (by simp [AssemblyError.IsRefusal])
    next v _ =>
      dsimp only
      split
      · exact .refused (by simp [AssemblyError.IsRefusal])
      next forward =>
        split
        · exact .refused (by simp [AssemblyError.IsRefusal])
        next aligned =>
          exact .enter (.inr ⟨.ofInt v, forward, Decidable.not_not.1 aligned, rfl⟩)
  · exact .refused (by simp [AssemblyError.IsRefusal])

theorem checked_insn (hc : a.current = some .code) (head : List Char)
    (operands : List (List Char)) :
    a.Checked (.row head operands) (checkInsn head operands) := by
  unfold checkInsn
  split
  · exact .refused (by simp [AssemblyError.IsRefusal])
  next ho =>
    split
    · exact .refused (by simp [AssemblyError.IsRefusal])
    next arity => exact .insn hc ho (Decidable.not_not.1 arity)

theorem isRefusal_of_byteOf {text : List Char} {e : AssemblyError} (h : byteOf text = .error e) :
    e.IsRefusal := by
  unfold byteOf at h
  split at h
  · split at h <;> cases h
    simp [AssemblyError.IsRefusal]
  · cases h
    simp [AssemblyError.IsRefusal]

theorem checked_data (hc : a.current = some .data) (head : List Char)
    (operands : List (List Char)) :
    a.Checked (.row head operands) (checkData (head :: operands)) := by
  unfold checkData
  split
  · exact .refused (by simp [AssemblyError.IsRefusal])
  next full =>
    cases hb : (head :: operands).mapM byteOf with
    | error e =>
      obtain ⟨w, -, hw⟩ := exists_error_of_mapM hb
      exact .refused (isRefusal_of_byteOf hw)
    | ok bytes => exact .data hc (Decidable.not_not.1 full) hb

/-- A statement is answered with one of these. -/
theorem checked (a : Assembler) (s : Statement) : a.Checked s (a.check s) := by
  cases s with
  | blank => exact .blank
  | unknownDirective name => exact .refused (by simp [AssemblyError.IsRefusal])
  | label name =>
    rw [check]
    rcases a.checkDefine_cases name (.ofNat a.cursor) with ⟨e, refusal, refused⟩ | ⟨new, taken⟩
    · rw [refused]
      exact .refused refusal
    · rw [taken]
      exact .label new
  | enter kind operands => exact a.checked_enter kind operands
  | symbol operands =>
    rcases operands with _ | ⟨name, _ | ⟨text, _ | ⟨third, more⟩⟩⟩
    · exact .refused (by simp [AssemblyError.IsRefusal])
    · exact .refused (by simp [AssemblyError.IsRefusal])
    · rw [check]
      split
      · exact .refused (by simp [AssemblyError.IsRefusal])
      next v hv =>
        rcases a.checkDefine_cases name (.ofInt v) with ⟨e, refusal, refused⟩ | ⟨new, taken⟩
        · rw [refused]
          exact .refused refusal
        · rw [taken]
          exact .symbol hv new
    · exact .refused (by simp [AssemblyError.IsRefusal])
  | row head operands =>
    unfold check
    dsimp only
    split
    next hc => exact checked_insn hc head operands
    next hc => exact checked_data hc head operands
    next => exact .refused (by simp [AssemblyError.IsRefusal])

/-- An action is asked for by a statement that has it for an answer. -/
theorem checked_of_ok {s : Statement} {action : Action} (h : a.check s = .ok action) :
    a.Checked s (.ok action) := h ▸ a.checked s

/-! ### Lines that stop the program -/

/-- The line puts out words, apart from the question where they fit, and the end of the next word
has no address of 64 bits. -/
def Overflows (a : Assembler) (text : List Char) : Prop :=
  UInt64.size ≤ a.cursor + 4 ∧ ({ a with cursor := 0 }).contents text ≠ []

theorem contents_of_error {text : List Char} {e : AssemblyError}
    (h : a.check (.ofLine a.current text) = .error e) (addr : Nat) :
    ({ a with cursor := addr }).contents text = [] := by
  unfold contents
  dsimp only
  generalize Statement.ofLine a.current text = s at h
  cases s with
  | row head operands =>
    unfold check at h
    cases hc : a.current with
    | none => rfl
    | some kind =>
      rw [hc] at h
      cases kind with
      | code =>
        dsimp only at h ⊢
        unfold checkInsn at h
        unfold insnContents
        split at h
        next ho => rw [ho]
        next o ho =>
          split at h
          next arity =>
            rw [ho]
            exact if_neg arity
          next => cases h
      | data =>
        dsimp only at h ⊢
        unfold checkData at h
        unfold dataContents
        cases hb : (head :: operands).mapM byteOf with
        | error e => rfl
        | ok bytes =>
          rw [hb] at h
          split at h
          next short => exact if_neg short
          next => cases h
  | _ => rfl

/-- Words are put out until one does not fit, and the program stops if that is the first one and the
cursor has reached the end of the addresses. -/
theorem aborts_emitWords_iff (line : Nat) (words : List Word) (a : Assembler) :
    (∃ e, (emitWords line words a).2 = .error e ∧ e.aborts) ↔
      words ≠ [] ∧ UInt64.size ≤ a.cursor + 4 := by
  have small : memorySize + 4 < UInt64.size := by decide
  induction words generalizing a with
  | nil => simp [emitWords]
  | cons w words ih =>
    rw [emitWords]
    split
    next outside =>
      simp only [unwritable, Except.error.injEq, exists_eq_left']
      split <;> simp_all [AssemblyError.aborts]
    next inside =>
      refine (ih (a.emitWord line w)).trans ?_
      simp only [emitWord]
      constructor
      · rintro ⟨-, h⟩
        omega
      · rintro ⟨-, h⟩
        omega

/-- Bytes fill no word exactly if they give no contents. -/
theorem wordsOf_eq_nil_iff (bytes : List Byte) :
    wordsOf bytes = [] ↔ (quads bytes).take (memorySize / 4) = [] := by
  fun_cases wordsOf bytes with
  | case1 b0 b1 b2 b3 rest => simp [quads, memorySize]
  | case2 bytes short =>
    rw [quads]
    · simp
    · exact short

/-- A line stops the program exactly if it asks for a word and the cursor has no room to move behind
it. -/
theorem aborts_feed_iff (a : Assembler) (line : Nat) (text : List Char) :
    (∃ e, (a.feed line text).2 = .error e ∧ e.aborts) ↔ a.Overflows text := by
  have answer := a.checked (.ofLine a.current text)
  cases hk : a.check (.ofLine a.current text) with
  | error e =>
    rw [hk] at answer
    rw [feed_of_error hk, Overflows, contents_of_error hk]
    generalize Statement.ofLine a.current text = s at answer
    cases answer with
    | refused refusal => simp [refusal.aborts]
  | ok action =>
    rw [hk] at answer
    rw [feed_of_ok hk]
    unfold Overflows contents
    dsimp only
    generalize Statement.ofLine a.current text = s at answer
    cases answer with
    | blank | label _ | symbol _ _ | enter _ => simp [perform]
    | @insn head operands o current ho arity =>
      simp only [current, perform, insnContents, ho, if_pos arity]
      by_cases room : a.cursor + 4 < UInt64.size
      · simp [if_pos room, Nat.not_le.2 room]
      · simp [if_neg room, Nat.not_lt.1 room, AssemblyError.aborts]
    | @data head operands bytes current full hb =>
      simp only [current, perform, dataContents, hb, if_pos full, Nat.sub_zero]
      rw [aborts_emitWords_iff, Ne, wordsOf_eq_nil_iff, and_comm]

end Assembler

end Macc
