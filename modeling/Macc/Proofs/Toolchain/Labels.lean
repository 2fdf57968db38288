import Macc.Proofs.Assembly.Continuation
import Macc.Proofs.Assembly.InstructionLines
import Macc.Proofs.Assembly.InstructionWords
import Macc.Proofs.Assembly.SourceLines
import Macc.Proofs.Machine.Runs

/-!
# Labels

A label stands for the word behind it: the next word that the lines put out, if no section directive
with an address stands in between, is placed where the label says (`addr_eq_cursor`).  So a call of
the label goes to that word (`call_label`).

The way from one to the other leads through the whole toolchain.  The label has the address of the
cursor as its value, the value is added to the instruction at the end of the assembly, the
instruction is cut to its fields, and the machine decodes the word it fetches.  The cut loses
nothing, because the word behind the label lies in the image.
-/

namespace Macc

open Text

/-! ### The word behind a label -/

namespace Assembler

variable {lines : List (List Char)} {k : Nat}

/-- Some lines that are taken after others. -/
theorem before_add (lines : List (List Char)) (n j : Nat) (h : n ≤ lines.length) :
    before lines (n + j) = (before lines n).feedAll (((lines.drop n).take j).zipIdx (n + 1)) := by
  rw [before, List.take_add, List.zipIdx_append, feedAll_append, List.length_take,
    Nat.min_eq_left h, Nat.add_comm 1 n]
  rfl

/-- Where a line neither puts out a word nor is a section directive with an address, the cursor
stays. -/
theorem cursor_feed_of_emissions_eq_nil {a : Assembler} {line : List Char × Nat}
    (h : a.emissions line = [])
    (straight : ∀ kind operands, Statement.ofLine a.current line.1 = .enter kind operands →
      operands = []) :
    (a.feed line.2 line.1).1.cursor = a.cursor := by
  by_cases hs : ∃ kind operands, Statement.ofLine a.current line.1 = .enter kind operands
  · obtain ⟨kind, operands, hs⟩ := hs
    obtain rfl := straight kind operands hs
    rw [feed_enter_nil line.2 hs]
  · have none : (a.contents line.1).length = 0 := by
      rw [← length_place line.2 a.cursor, ← emissions, h]
      rfl
    rw [cursor_feed fun kind operands hs' => hs ⟨kind, operands, hs'⟩, none, Nat.mul_zero,
      Nat.add_zero]

/-- The first word that lines put out is placed at the cursor, as long as no section directive with
an address stands in front of it. -/
theorem addr_eq_cursor {a : Assembler} {texts : List (List Char)} {n : Nat} {e : Emission}
    {es : List Emission} (h : a.allEmissions (texts.zipIdx n) = e :: es)
    (straight : ∀ j text, texts[j]? = some text → n + j < e.line → ∀ kind operands,
      Statement.ofLine (a.feedAll ((texts.take j).zipIdx n)).current text = .enter kind operands →
        operands = []) :
    e.addr = a.cursor := by
  induction texts generalizing a n with
  | nil => cases h
  | cons text texts ih =>
    rw [List.zipIdx_cons, allEmissions] at h
    cases here : a.emissions (text, n) with
    | cons e' rest =>
      rw [here] at h
      obtain rfl := (List.cons.inj h).1
      unfold emissions at here
      cases hc : a.contents text with
      | nil => simp [hc, place] at here
      | cons c cs =>
        simp only [hc, place, List.cons.injEq] at here
        rw [← here.1]
    | nil =>
      rw [here, List.nil_append] at h
      have later : n + 1 ≤ e.line :=
        (line_of_mem_allEmissions (h ▸ List.mem_cons_self)).1
      have same := cursor_feed_of_emissions_eq_nil here fun kind operands =>
        straight 0 text rfl (by omega) kind operands
      rw [← same]
      refine ih h fun j text' hj hlt kind operands => ?_
      exact straight (j + 1) text' hj (by omega) kind operands

/-- A label has the address of the cursor as its value. -/
theorem value?_of_label {name : List Char} (hs : statementAt lines k = some (.label name))
    (hf : failure? lines k = none) :
    (before lines (k + 1)).symbols.value? (String.ofList name) =
        some (.ofNat (before lines k).cursor) ∧
      (before lines (k + 1)).cursor = (before lines k).cursor := by
  obtain ⟨text, hl, hs⟩ := Option.map_eq_some_iff.1 hs
  have check : (before lines k).check (.ofLine (before lines k).current text) =
      (before lines k).checkDefine name (.ofNat (before lines k).cursor) := by
    rw [hs, check]
  have fine := (failure?_eq_none_iff hl).1 hf
  rw [before_succ hl]
  rcases feed_define_cases check (k + 1) with ⟨-, feed⟩ | ⟨-, e, feed⟩
  · rw [feed]
    exact ⟨(SymbolTable.value?_define ..).trans (if_pos rfl), rfl⟩
  · rw [feed] at fine
    cases fine

/-- The word that a line with a call puts out. -/
theorem emissionsAt_of_call {operand : List Char}
    (hs : statementAt lines k = some (.row "Call".toList [operand]))
    (hf : failure? lines k = none) :
    emissionsAt lines k = [⟨k + 1, (before lines k).cursor, .insn .call [operand]⟩] := by
  obtain ⟨text, hl, hs⟩ := Option.map_eq_some_iff.1 hs
  have fine := (failure?_eq_none_iff hl).1 hf
  simp only [emissionsAt, hl, emissions, contents, hs]
  cases hc : (before lines k).current with
  | some kind =>
    cases kind with
    | code =>
      have call : Opcode.ofMnemonic? (String.ofList "Call".toList) = some .call := by decide
      simp only [insnContents, call]
      rfl
    | data =>
      -- two words are no data row
      rw [feed_of_error (by rw [hs, check, hc]; rfl)] at fine
      cases fine
  | none =>
    rw [feed_of_error (by rw [hs, check, hc])] at fine
    cases fine

/-! ### Rows of lines -/

/-- The first row behind a line is the first word that the lines behind it put out. -/
theorem exists_of_find?_row {n : Nat} {r : Row}
    (h : (rowsFrom 0 (allEmissions {} (lines.zipIdx 1))).find? (n < ·.line) = some r) :
    ∃ e es, (before lines n).allEmissions ((lines.drop n).zipIdx (n + 1)) = e :: es ∧
      e.line = r.line ∧ e.addr = r.addr := by
  have front : (rowsFrom 0 (allEmissions {} ((lines.take n).zipIdx 1))).find? (n < ·.line) =
      none := by
    rw [List.find?_eq_none]
    intro r hr
    rw [decide_eq_true_eq]
    refine (forall_line_rowsFrom_iff (P := fun line => ¬ n < line) 0 _).2 (fun e he => ?_) r hr
    have := line_of_mem_allEmissions he
    have := List.length_take_le n lines
    omega
  rw [allEmissions_eq lines n, rowsFrom_append, List.find?_append, front, Option.none_or] at h
  cases back : (before lines n).allEmissions ((lines.drop n).zipIdx (n + 1)) with
  | nil =>
    rw [back] at h
    cases h
  | cons e es =>
    refine ⟨e, es, rfl, ?_⟩
    have later : n < e.line := (line_of_mem_allEmissions (back ▸ List.mem_cons_self)).1
    obtain ⟨insn, m, rows⟩ := exists_rowsFrom_cons
      (0 + insnCount (allEmissions {} ((lines.take n).zipIdx 1))) e es
    rw [back, rows, List.find?_cons_of_pos (by simpa using later)] at h
    cases h
    exact ⟨rfl, rfl⟩

/-- A line that puts out one word has one row. -/
theorem exists_filter_row {e : Emission} (h : emissionsAt lines k = [e]) :
    ∃ c, (rowsFrom 0 (allEmissions {} (lines.zipIdx 1))).filter (·.line = k + 1) = [c] ∧
      c.addr = e.addr := by
  rw [filter_rowsFrom_eq, h]
  obtain ⟨insn, m, rows⟩ := exists_rowsFrom_cons
    (insnCount (allEmissions {} ((lines.take k).zipIdx 1))) e []
  exact ⟨⟨e.line, e.addr, insn⟩, rows, rfl⟩

end Assembler

/-! ### Calls -/

/-- A line that calls a name is read as that in every section. -/
theorem Statement.ofLine_call {name : List Char} (h : IsWord name) (comma : ',' ∉ name)
    (current : Option SectionKind) :
    ofLine current ("Call ".toList ++ name) = .row "Call".toList [name] := by
  have token : IsToken "Call".toList := Opcode.call.isToken_mnemonic
  have line : ofLine current ("Call".toList ++ ' ' :: name) = _ :=
    ofLine_append token.isWord (leads_of_isToken token) (by simp [isAsciiBlank]) current
  rw [List.drop_one, List.tail_cons, operandsOf_word h comma, ofWords_of_isToken token] at line
  exact line

/-- What stands in front of the colon of a label is a word. -/
theorem Statement.isWord_of_ofLine_eq_label {current : Option SectionKind} {line name : List Char}
    (h : ofLine current line = .label name) : IsWord name :=
  isWord_of_mem_texts (h ▸ List.mem_singleton_self name : name ∈ (ofLine current line).texts)

/-- The instruction of a call of a name. -/
theorem Emission.evaluate_call {values : String → Int64} {name : List Char}
    (plain : Term.ofOperand name = [.symbol (String.ofList name) 1 1]) (line addr : Nat) :
    (⟨line, addr, .insn .call [name]⟩ : Emission).evaluate values =
      some ⟨addr, .call, values (String.ofList name), 0, line⟩ := by
  have target : Opcode.call.fieldValue values [name] .maddr = values (String.ofList name) := by
    have terms : Opcode.call.fieldTerms [name] .maddr = Term.ofOperand name ++ [] := rfl
    rw [Opcode.fieldValue, terms, plain]
    simp [Term.value, Int64.div_one]
  have other : Opcode.call.fieldValue values [name] .caddr = 0 := rfl
  unfold evaluate
  dsimp only
  rw [target, other]

theorem Insn.decode_call {q : Nat} (h : q < memorySize) (addr line : Nat) :
    ∃ target : Word, Op.decode (⟨addr, .call, .ofNat q, 0, line⟩ : Insn).encode =
      .ok (.call target) ∧ target.toNat = q := by
  refine ⟨_, decode_encode fun f hf => ?_, ?_⟩
  · cases f with
    | maddr => exact absurd (show .maddr ∈ Opcode.call.format.fields by decide) hf
    | caddr => rfl
  · rw [memorySize] at h
    simp
    omega

namespace Session

/-- An untraced call that the call stack has room for. -/
theorem step_call {s : Session} {limits : Limits} {target : Word} (untraced : s.trace = none)
    (fetch : s.machine.fetch = .ok (.call target)) (room : s.machine.depth < limits.maxDepth) :
    s.step limits =
      ({ s with machine :=
        { s.machine.pushReturn (s.machine.pc + 4) with pc := target.toNat } }, .ok .next) := by
  have untraced' : s.pushReturn.trace = none := untraced
  rw [step_of_fetch_eq_ok fetch, perform_call_of_lt room, record_of_trace_eq_none untraced']
  rfl

end Session

/-! ### Linking -/

open Assembler

/-- The label of a program has the address of the word behind it as its value. -/
theorem Program.value?_of_label {lines : List (List Char)} {program : Program}
    (assembles : Program.ofLines lines = .ok program) {name : List Char} {n : Nat}
    (label : statementAt lines n = some (.label name)) {r : Row}
    (next : program.rows.toList.find? (n + 1 < ·.line) = some r)
    (straight : ∀ k, n < k → k + 1 < r.line → ∀ kind operands,
      statementAt lines k = some (.enter kind operands) → operands = []) :
    program.symbols.value? (String.ofList name) = some (.ofNat r.addr) ∧
      r.addr < memorySize := by
  have finish := finish_of_ofLines assembles
  have made := madeOf_of_finish finish program.symbols.agrees_value?
  have inside : n < lines.length := by
    obtain ⟨text, hl, -⟩ := Option.map_eq_some_iff.1 label
    exact (List.getElem?_eq_some_iff.1 hl).1
  obtain ⟨value, same⟩ := Assembler.value?_of_label label (failure?_of_ofLines assembles n)
  rw [made.rows] at next
  obtain ⟨e, es, words, line, addr⟩ := exists_of_find?_row next
  have place : e.addr = (before lines (n + 1)).cursor := by
    refine addr_eq_cursor words fun j text hj hlt kind operands hs => ?_
    rw [List.getElem?_drop] at hj
    rw [← before_add lines (n + 1) j inside] at hs
    refine straight (n + 1 + j) (by omega) (by omega) kind operands ?_
    rw [statementAt, hj, Option.map_some, hs]
  have mem : e ∈ allEmissions {} (lines.zipIdx 1) := by
    rw [allEmissions_eq lines (n + 1), words]
    exact List.mem_append_right _ List.mem_cons_self
  constructor
  · -- the value stays until the end
    have all := before_add lines (n + 1) (lines.length - (n + 1)) inside
    rw [Nat.add_sub_cancel' inside, before_length] at all
    rw [symbols_of_finish finish, all, ← addr, place, same]
    exact value?_feedAll _ _ value
  · obtain ⟨hi, spread⟩ := made.spread
    have := (spread.of_mem mem).2.2
    omega

/-- A call of a label goes to the word behind the label. -/
theorem call_label {lines : List (List Char)} {program : Program}
    (assembles : Program.ofLines lines = .ok program) {name : List Char}
    (plain : Term.ofOperand name = [.symbol (String.ofList name) 1 1]) {n m : Nat}
    (label : statementAt lines n = some (.label name)) {r : Row}
    (next : program.rows.toList.find? (n + 1 < ·.line) = some r)
    (straight : ∀ k, n < k → k + 1 < r.line → ∀ kind operands,
      statementAt lines k = some (.enter kind operands) → operands = [])
    (call : statementAt lines m = some (.row "Call".toList [name])) :
    (',' ∉ name → ∀ current,
      Statement.ofLine current ("Call ".toList ++ name) = .row "Call".toList [name]) ∧
    ∃ c, program.rows.toList.filter (·.line = m + 1) = [c] ∧
      ∀ (limits : Limits) (s : Session), s.trace = none → s.machine.pc = c.addr →
        s.machine.mem.word (.ofNat 17 c.addr) = program.image.word (.ofNat 17 c.addr) →
        s.machine.depth < limits.maxDepth →
          s.step limits = ({ s with machine :=
            { s.machine.pushReturn (c.addr + 4) with pc := r.addr } }, .ok .next) := by
  constructor
  · obtain ⟨text, -, reads⟩ := Option.map_eq_some_iff.1 label
    exact Statement.ofLine_call (Statement.isWord_of_ofLine_eq_label reads)
  have made := madeOf_of_finish (Program.finish_of_ofLines assembles) program.symbols.agrees_value?
  obtain ⟨value, inside⟩ := Program.value?_of_label assembles label next straight
  have words := emissionsAt_of_call call (failure?_of_ofLines assembles m)
  have mem := mem_allEmissions_iff.2 ⟨m, words ▸ List.mem_cons_self⟩
  obtain ⟨c, row, addr⟩ := exists_filter_row words
  refine ⟨c, made.rows ▸ row, fun limits s untraced pc word room => ?_⟩
  obtain ⟨-, aligned, fits⟩ := made.spread.choose_spec.of_mem mem
  obtain ⟨target, decode, goal⟩ :=
    Insn.decode_call inside (before lines m).cursor (m + 1)
  have evaluated : Emission.evaluate (fun name => (program.symbols.value? name).getD 0) _ = _ :=
    Emission.evaluate_call plain (m + 1) (before lines m).cursor
  rw [value] at evaluated
  have fetch : s.machine.fetch = .ok (.call target) := by
    rw [Machine.fetch_eq_ok_iff, pcFault?_eq_none_iff, pc, addr]
    refine ⟨⟨by omega, aligned⟩, ?_⟩
    rw [← addr, word, addr, made.word_image mem, (Emission.of_evaluate evaluated).2.2]
    exact decode
  rw [Session.step_call untraced fetch room, goal, pc]

/-- A subroutine that is called in front of its label.  An empty line and a section directive stand
behind the label. -/
def subroutineLines : List (List Char) :=
  [".code".toList, "Call kernel".toList, "Return".toList, "kernel:".toList, "".toList,
    ".code".toList, "Sync".toList, "Return".toList]

theorem call_label_subroutineLines :
    ∃ program, Program.ofLines subroutineLines = .ok program ∧
      ∀ s : Session, s.trace = none → s.machine.pc = 0 → s.machine.mem = program.image →
        s.machine.stack = #[] → ∃ t, s.step {} = (t, .ok .next) ∧ t.machine.pc = 8 ∧
          t.machine.stack = #[4] := by
  obtain ⟨program, assembles⟩ := (Program.exists_ofLines_iff subroutineLines).2
    ⟨by decide +kernel, by decide +kernel, by decide +kernel⟩
  have rows : program.rows.toList =
      [⟨2, 0, some 0⟩, ⟨3, 4, some 1⟩, ⟨7, 8, some 2⟩, ⟨8, 12, some 3⟩] := by
    rw [(madeOf_of_finish (Program.finish_of_ofLines assembles)
      program.symbols.agrees_value?).rows]
    decide +kernel
  have plain : Term.ofOperand "kernel".toList = [.symbol (String.ofList "kernel".toList) 1 1] := by
    decide +kernel
  have label : statementAt subroutineLines 3 = some (.label "kernel".toList) := by decide +kernel
  have call : statementAt subroutineLines 1 = some (.row "Call".toList ["kernel".toList]) := by
    decide +kernel
  have next : program.rows.toList.find? (3 + 1 < ·.line) = some ⟨7, 8, some 2⟩ := by
    rw [rows]
    decide
  have straight : ∀ k, 3 < k → k + 1 < 7 → ∀ kind operands,
      statementAt subroutineLines k = some (.enter kind operands) → operands = [] := by
    intro k hk hlt kind operands hs
    have between : ∀ k < 6, 3 < k → statementAt subroutineLines k = some .blank ∨
        statementAt subroutineLines k = some (.enter .code []) := by decide +kernel
    rcases between k (by omega) hk with h | h
    · cases h.symm.trans hs
    · cases h.symm.trans hs
      rfl
  obtain ⟨-, c, row, calls⟩ := call_label assembles plain label next straight call
  rw [rows] at row
  obtain rfl : c = ⟨2, 0, some 0⟩ := by simpa using row.symm
  refine ⟨program, assembles, fun s untraced pc mem stack => ?_⟩
  have room : s.machine.depth < ({} : Limits).maxDepth := by
    rw [Machine.depth, stack]
    decide
  refine ⟨_, calls {} s untraced pc (by rw [mem]) room, rfl, ?_⟩
  simp [Machine.pushReturn, stack]

end Macc
