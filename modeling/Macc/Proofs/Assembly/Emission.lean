import Macc.Assembly.Program
import Macc.Proofs.Assembly.Actions

/-!
# What source lines put out

`Assembler.emissions` reads off a source line, in the state in which it is taken, the words that it
puts out: at most one instruction, or the words of a data row that fit into the image.
`Assembler.feedAll` takes numbered lines one after another, whether they fail or not, and
`Assembler.allEmissions` lists what all of them put out.

A line works on the assembler by a few kinds of changes (`Change`), and lines taken one after
another are a `Run` of changes (`run_feed`, `run_feedAll`).  Laws of all sequences of lines are
inductions on runs.
-/

namespace Macc

/-! ### Emissions -/

/-- What a source line puts out in one word: an instruction with the texts of its operands, or
four bytes of data. -/
inductive Content
  | insn (opcode : Opcode) (operands : List (List Char))
  | data (b0 b1 b2 b3 : Byte)
  deriving DecidableEq, Repr

/-- A word put out, with the number of its line and its address. -/
structure Emission where
  line : Nat
  addr : Nat
  content : Content
  deriving DecidableEq, Repr

namespace Assembler

/-- The contents of an instruction line: one instruction, if its name is known and it has as many
operands as its layout says. -/
def insnContents (head : List Char) (operands : List (List Char)) : List Content :=
  match Opcode.ofMnemonic? (String.ofList head) with
  | some o => if o.format.arity = operands.length then [.insn o operands] else []
  | none => []

/-- Bytes by fours.  Bytes that are left over are left out. -/
def quads : List Byte → List Content
  | b0 :: b1 :: b2 :: b3 :: rest => .data b0 b1 b2 b3 :: quads rest
  | _ => []

/-- The contents of a data row at a cursor: its bytes, as far as they fit into the image. -/
def dataContents (cursor : Nat) (data : List (List Char)) : List Content :=
  match data.mapM byteOf with
  | .ok bytes =>
    if data.length % 4 = 0 then (quads bytes).take ((memorySize - cursor) / 4) else []
  | .error _ => []

/-- The contents of the words that a source line puts out. -/
def contents (a : Assembler) (text : List Char) : List Content :=
  match Statement.ofLine a.current text, a.current with
  | .row head operands, some .code => insnContents head operands
  | .row head operands, some .data => dataContents a.cursor (head :: operands)
  | _, _ => []

/-- Contents placed one behind the other from an address on. -/
def place (line : Nat) : Nat → List Content → List Emission
  | _, [] => []
  | addr, c :: cs => ⟨line, addr, c⟩ :: place line (addr + 4) cs

/-- The words that a numbered source line puts out. -/
def emissions (a : Assembler) (line : List Char × Nat) : List Emission :=
  place line.2 a.cursor (a.contents line.1)

/-- The assembler after numbered lines, whether they fail or not. -/
def feedAll (a : Assembler) (lines : List (List Char × Nat)) : Assembler :=
  lines.foldl (fun a line => (a.feed line.2 line.1).1) a

/-- The words that numbered lines put out, in order. -/
def allEmissions (a : Assembler) : List (List Char × Nat) → List Emission
  | [] => []
  | line :: lines => a.emissions line ++ (a.feed line.2 line.1).1.allEmissions lines

theorem length_place (line addr : Nat) (cs : List Content) :
    (place line addr cs).length = cs.length := by
  induction cs generalizing addr with
  | nil => rfl
  | cons c cs ih => rw [place, List.length_cons, ih, List.length_cons]

theorem map_addr_place (line addr : Nat) (cs : List Content) :
    (place line addr cs).map Emission.addr = List.range' addr cs.length 4 := by
  induction cs generalizing addr with
  | nil => rfl
  | cons c cs ih => rw [place, List.map_cons, ih, List.length_cons, List.range'_succ]

theorem feedAll_cons (a : Assembler) (line : List Char × Nat) (lines : List (List Char × Nat)) :
    a.feedAll (line :: lines) = (a.feed line.2 line.1).1.feedAll lines := rfl

theorem feedAll_append (a : Assembler) (before after : List (List Char × Nat)) :
    a.feedAll (before ++ after) = (a.feedAll before).feedAll after := List.foldl_append

theorem feedAll_concat (a : Assembler) (lines : List (List Char × Nat)) (line : List Char × Nat) :
    a.feedAll (lines ++ [line]) = ((a.feedAll lines).feed line.2 line.1).1 :=
  feedAll_append a lines [line]

theorem allEmissions_append (a : Assembler) (before after : List (List Char × Nat)) :
    a.allEmissions (before ++ after) =
      a.allEmissions before ++ (a.feedAll before).allEmissions after := by
  induction before generalizing a with
  | nil => rfl
  | cons line before ih =>
    rw [List.cons_append, allEmissions, ih, ← List.append_assoc, feedAll_cons, allEmissions]

/-! ### Changes -/

/-- An address at which a section may begin when the next word has the address `cursor`. -/
def SectionStart (cursor addr : Nat) : Prop :=
  addr = cursor ∨ ∃ p : Int64, ¬ p < Int64.ofNat cursor ∧ p % 4 = 0 ∧ addr = p.toUInt64.toNat

/-- A change of the assembler by a line, with the words put out. -/
inductive Change (line : Nat) : Assembler → List Emission → Assembler → Prop
  | define {a : Assembler} {name : String} (position : Int64)
      (h : a.symbols.definition? name = none) :
      Change line a [] { a with symbols := a.symbols.define name ⟨position, line⟩ }
  | enter {a : Assembler} (kind : SectionKind) {addr : Nat} (h : SectionStart a.cursor addr) :
      Change line a [] { a with current := some kind, cursor := addr }
  | insn (a : Assembler) {o : Opcode} {operands : List (List Char)}
      (h : o.format.arity = operands.length) :
      Change line a [⟨line, a.cursor, .insn o operands⟩] (a.emitInsn line o (o.terms operands))
  | word {a : Assembler} (b0 b1 b2 b3 : Byte) (h : a.cursor + 4 ≤ memorySize) :
      Change line a [⟨line, a.cursor, .data b0 b1 b2 b3⟩] (a.emitWord line (b3 ++ b2 ++ b1 ++ b0))

/-- Changes one after another, with the words put out. -/
inductive Run : Assembler → List Emission → Assembler → Prop
  | nil (a : Assembler) : Run a [] a
  | cons {a b c : Assembler} {line : Nat} {es fs : List Emission} (h : Change line a es b)
      (rest : Run b fs c) : Run a (es ++ fs) c

theorem Change.run {line : Nat} {a b : Assembler} {es : List Emission} (h : Change line a es b) :
    Run a es b := by
  simpa using Run.cons h (.nil b)

theorem Run.append {a b c : Assembler} {es fs : List Emission} (h : Run a es b) (k : Run b fs c) :
    Run a (es ++ fs) c := by
  induction h with
  | nil => exact k
  | cons step _ ih =>
    rw [List.append_assoc]
    exact .cons step (ih k)

/-! ### Lines are runs -/

/-- The words of a data row are written until one does not fit. -/
theorem run_emitWords (line : Nat) (bytes : List Byte) (a : Assembler) :
    Run a (place line a.cursor ((quads bytes).take ((memorySize - a.cursor) / 4)))
      (emitWords line (wordsOf bytes) a).1 := by
  fun_induction quads bytes generalizing a with
  | case1 b0 b1 b2 b3 rest ih =>
    rw [wordsOf, emitWords]
    split
    next h =>
      -- the first word does not fit, so no word is written
      have : (memorySize - a.cursor) / 4 = 0 := by omega
      rw [this]
      exact .nil a
    next h =>
      have : (memorySize - a.cursor) / 4 = (memorySize - (a.cursor + 4)) / 4 + 1 := by omega
      rw [this]
      exact .cons (.word b0 b1 b2 b3 (by omega)) (ih (a.emitWord line (b3 ++ b2 ++ b1 ++ b0)))
  | case2 bytes short =>
    have : wordsOf bytes = [] := by
      rw [wordsOf]
      exact short
    rw [List.take_nil, this]
    exact .nil a

theorem run_insnLine {a : Assembler} {n : Nat} {head text : List Char}
    {operands : List (List Char)} (hs : Statement.ofLine a.current text = .row head operands)
    (hc : a.current = some .code) :
    Run a (place n a.cursor (insnContents head operands)) (a.feed n text).1 := by
  have hk : a.check (.ofLine a.current text) = checkInsn head operands := by
    rw [hs, check, hc]
  unfold checkInsn at hk
  unfold insnContents
  split at hk
  next ho =>
    rw [ho, feed_of_error hk]
    exact .nil a
  next o ho =>
    rw [ho]
    dsimp only
    split at hk
    next h =>
      rw [feed_of_error hk, if_neg h]
      exact .nil a
    next h =>
      have arity := Decidable.not_not.1 h
      rw [feed_of_ok hk, if_pos arity]
      exact (Change.insn a arity).run

theorem run_dataLine {a : Assembler} {n : Nat} {head text : List Char}
    {operands : List (List Char)} (hs : Statement.ofLine a.current text = .row head operands)
    (hc : a.current = some .data) :
    Run a (place n a.cursor (dataContents a.cursor (head :: operands))) (a.feed n text).1 := by
  have hk : a.check (.ofLine a.current text) = checkData (head :: operands) := by
    rw [hs, check, hc]
  unfold checkData at hk
  unfold dataContents
  cases hb : (head :: operands).mapM byteOf with
  | error e =>
    rw [hb] at hk
    -- the length is checked in front of the bytes, so either may be the reason
    have : ∃ e, a.check (.ofLine a.current text) = .error e := by
      rw [hk]
      split
      · exact ⟨_, rfl⟩
      · exact ⟨e, rfl⟩
    obtain ⟨e, he⟩ := this
    rw [feed_of_error he]
    exact .nil a
  | ok bytes =>
    rw [hb] at hk
    split at hk
    next h =>
      rw [feed_of_error hk]
      simp only [if_neg h]
      exact .nil a
    next h =>
      rw [feed_of_ok (hk.trans rfl)]
      dsimp only
      rw [if_pos (Decidable.not_not.1 h)]
      exact run_emitWords n bytes a

theorem run_defineLine {a : Assembler} {n : Nat} {text name : List Char} {position : Int64}
    (hk : a.check (.ofLine a.current text) = a.checkDefine name position) :
    Run a [] (a.feed n text).1 := by
  unfold checkDefine at hk
  dsimp only at hk
  split at hk
  next => rw [feed_of_error hk]; exact .nil a
  next h => rw [feed_of_ok hk]; exact (Change.define position h).run

/-- A symbol directive is refused in every state, or comes to the same definition in every state. -/
theorem check_symbol (operands : List (List Char)) :
    (∃ e, ∀ a : Assembler, a.check (.symbol operands) = .error e) ∨
      ∃ name position, ∀ a : Assembler,
        a.check (.symbol operands) = a.checkDefine name position := by
  match operands with
  | [name, text] =>
    cases hv : Literal.value? text with
    | none => exact .inl ⟨.notInteger (String.ofList text), fun a => by rw [check, hv]⟩
    | some v => exact .inr ⟨name, Int64.ofInt v, fun a => by rw [check, hv]⟩
  | [] => exact .inl ⟨.symbolOperands, fun _ => rfl⟩
  | [_] => exact .inl ⟨.symbolOperands, fun _ => rfl⟩
  | _ :: _ :: _ :: _ => exact .inl ⟨.symbolOperands, fun _ => rfl⟩

theorem run_enterLine {a : Assembler} {n : Nat} {text : List Char} {kind : SectionKind}
    {operands : List (List Char)}
    (hk : a.check (.ofLine a.current text) = a.checkEnter kind operands) :
    Run a [] (a.feed n text).1 := by
  unfold checkEnter at hk
  split at hk
  next => rw [feed_of_ok hk]; exact (Change.enter kind (.inl rfl) : Change n a _ _).run
  next =>
    split at hk
    next => rw [feed_of_error hk]; exact .nil a
    next v _ =>
      dsimp only at hk
      split at hk
      next => rw [feed_of_error hk]; exact .nil a
      next hlt =>
        split at hk
        next => rw [feed_of_error hk]; exact .nil a
        next h4 =>
          rw [feed_of_ok hk]
          have start : SectionStart a.cursor (Int64.ofInt v).toUInt64.toNat :=
            .inr ⟨Int64.ofInt v, hlt, Decidable.not_not.1 h4, rfl⟩
          exact (Change.enter kind start : Change n a _ _).run
  next => rw [feed_of_error hk]; exact .nil a

/-- A line changes the assembler by a run, which puts out the words of the line. -/
theorem run_feed (a : Assembler) (line : List Char × Nat) :
    Run a (a.emissions line) (a.feed line.2 line.1).1 := by
  obtain ⟨text, n⟩ := line
  unfold emissions contents
  cases hs : Statement.ofLine a.current text with
  | row head operands =>
    cases hc : a.current with
    | none =>
      have hk : a.check (.ofLine a.current text) =
          .error (.outsideSection (String.ofList head)) := by
        rw [hs, check, hc]
      rw [feed_of_error hk]
      exact .nil a
    | some kind =>
      cases kind with
      | code => exact run_insnLine hs hc
      | data => exact run_dataLine hs hc
  | blank =>
    have hk : a.check (.ofLine a.current text) = .ok .nothing := by rw [hs, check]
    rw [feed_of_ok hk]
    exact .nil a
  | unknownDirective name =>
    have hk : a.check (.ofLine a.current text) =
        .error (.unknownDirective (String.ofList name)) := by
      rw [hs, check]
    rw [feed_of_error hk]
    exact .nil a
  | label name => exact run_defineLine (by rw [hs, check])
  | enter kind operands => exact run_enterLine (by rw [hs, check])
  | symbol operands =>
    rcases check_symbol operands with ⟨e, he⟩ | ⟨name, position, hd⟩
    · rw [feed_of_error (by rw [hs, he a])]
      exact .nil a
    · exact run_defineLine (by rw [hs, hd a])

theorem run_feedAll (a : Assembler) (lines : List (List Char × Nat)) :
    Run a (a.allEmissions lines) (a.feedAll lines) := by
  induction lines generalizing a with
  | nil => exact .nil a
  | cons line lines ih => exact (run_feed a line).append (ih _)

/-! ### Rows -/

/-- The number of instructions among emissions. -/
def insnCount (es : List Emission) : Nat :=
  es.countP fun e => e.content matches .insn _ _

/-- The rows of emissions, whose instructions are numbered from `n` on. -/
def rowsFrom : Nat → List Emission → List Row
  | _, [] => []
  | n, ⟨line, addr, .insn _ _⟩ :: es => ⟨line, addr, some n⟩ :: rowsFrom (n + 1) es
  | n, ⟨line, addr, .data ..⟩ :: es => ⟨line, addr, none⟩ :: rowsFrom n es

theorem map_addr_rowsFrom (n : Nat) (es : List Emission) :
    (rowsFrom n es).map Row.addr = es.map Emission.addr := by
  fun_induction rowsFrom n es with
  | case1 n => rfl
  | case2 n line addr o operands es ih => rw [List.map_cons, ih, List.map_cons]
  | case3 n line addr b0 b1 b2 b3 es ih => rw [List.map_cons, ih, List.map_cons]

theorem length_rowsFrom (n : Nat) (es : List Emission) : (rowsFrom n es).length = es.length := by
  simpa using congrArg List.length (map_addr_rowsFrom n es)

theorem rowsFrom_append (n : Nat) (es fs : List Emission) :
    rowsFrom n (es ++ fs) = rowsFrom n es ++ rowsFrom (n + insnCount es) fs := by
  fun_induction rowsFrom n es with
  | case1 n => simp [insnCount]
  | case2 n line addr o operands es ih =>
    simp only [List.cons_append, rowsFrom, ih, insnCount, List.countP_cons]
    simp only [if_true, Nat.add_assoc, Nat.add_comm 1]
  | case3 n line addr b0 b1 b2 b3 es ih =>
    simp only [List.cons_append, rowsFrom, ih, insnCount, List.countP_cons]
    simp

theorem Change.size_insns {line : Nat} {a b : Assembler} {es : List Emission}
    (h : Change line a es b) : b.insns.size = a.insns.size + insnCount es := by
  cases h <;> simp [emitInsn, emitWord, insnCount]

theorem Change.rows_eq {line : Nat} {a b : Assembler} {es : List Emission}
    (h : Change line a es b) : b.rows.toList = a.rows.toList ++ rowsFrom a.insns.size es := by
  cases h <;> simp [emitInsn, emitWord, rowsFrom]

theorem Run.rows_eq {a b : Assembler} {es : List Emission} (h : Run a es b) :
    b.rows.toList = a.rows.toList ++ rowsFrom a.insns.size es := by
  induction h with
  | nil => simp [rowsFrom]
  | cons step _ ih =>
    rw [ih, step.rows_eq, step.size_insns, rowsFrom_append, List.append_assoc]

end Assembler

/-! ### Programs -/

/-- The program is assembled from some lines, of which those that fail are passed over. -/
def Program.Assembled (p : Program) : Prop :=
  ∃ lines, (Assembler.feedAll {} lines).finish = .ok p

theorem feedAll_of_foldlM_feedLine {lines : List (List Char × Nat)} {a b : Assembler}
    (h : lines.foldlM Program.feedLine a = .ok b) : a.feedAll lines = b := by
  induction lines generalizing a with
  | nil => exact Except.ok.inj h
  | cons line lines ih =>
    rw [List.foldlM_cons] at h
    cases hf : a.feed line.2 line.1 with
    | mk c outcome =>
      cases outcome with
      | error e => simp [Program.feedLine, hf, bind, Except.bind] at h
      | ok u =>
        rw [Assembler.feedAll_cons, hf]
        refine ih ?_
        simpa [Program.feedLine, hf, bind, Except.bind] using h

theorem Program.finish_of_ofLines {lines : List (List Char)} {p : Program}
    (h : Program.ofLines lines = .ok p) :
    (Assembler.feedAll {} (lines.zipIdx 1)).finish = .ok p := by
  unfold Program.ofLines at h
  split at h
  · cases h
  next a ha =>
    rw [feedAll_of_foldlM_feedLine ha]
    exact h

/-- What assembles without a failing line is assembled from these lines. -/
theorem Program.assembled_of_assemble {source : String} {p : Program}
    (h : Program.assemble source = .ok p) : p.Assembled :=
  ⟨_, Program.finish_of_ofLines h⟩

end Macc
