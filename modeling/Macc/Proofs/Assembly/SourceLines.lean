import Macc.Proofs.Assembly.Evaluation

/-!
# The lines of a source text

`Assembler.before lines k` is the assembler in front of the line with the index `k`, which has the
number `k + 1`.  With it a line of a text has a statement (`statementAt`), may fail (`failure?`) and
puts out words (`emissionsAt`), whatever is made of the other lines.

A text is read up to its first line that fails (`foldlM_feedLine`), and its words are those of its
lines in order (`mem_allEmissions_iff`, `allEmissions_eq`).
-/

namespace Macc

namespace Assembler

variable {lines : List (List Char)} {k : Nat}

/-- The assembler in front of a line, whether the lines before it fail or not. -/
def before (lines : List (List Char)) (k : Nat) : Assembler :=
  feedAll {} ((lines.take k).zipIdx 1)

/-- The statement of a line. -/
def statementAt (lines : List (List Char)) (k : Nat) : Option Statement :=
  lines[k]?.map (Statement.ofLine (before lines k).current)

/-- The reason why a line fails, if it does. -/
def failure? (lines : List (List Char)) (k : Nat) : Option AssemblyError :=
  lines[k]?.bind fun text =>
    match ((before lines k).feed (k + 1) text).2 with
    | .ok () => none
    | .error e => some e

/-- The words that a line puts out. -/
def emissionsAt (lines : List (List Char)) (k : Nat) : List Emission :=
  match lines[k]? with
  | some text => (before lines k).emissions (text, k + 1)
  | none => []

/-! ### One line -/

theorem numbered_concat {text : List Char} (h : lines[k]? = some text) :
    (lines.take (k + 1)).zipIdx 1 = (lines.take k).zipIdx 1 ++ [(text, k + 1)] := by
  have hk := (List.getElem?_eq_some_iff.1 h).1
  rw [List.take_add_one, h, Option.toList_some, List.zipIdx_append, List.length_take,
    Nat.min_eq_left (Nat.le_of_lt hk), Nat.add_comm 1 k]
  rfl

theorem before_succ {text : List Char} (h : lines[k]? = some text) :
    before lines (k + 1) = ((before lines k).feed (k + 1) text).1 := by
  rw [before, numbered_concat h, feedAll_concat]
  rfl

/-- Behind the last line nothing is taken any more. -/
theorem before_succ_of_length_le (h : lines.length ≤ k) :
    before lines (k + 1) = before lines k := by
  rw [before, before, List.take_of_length_le h, List.take_of_length_le (Nat.le_succ_of_le h)]

theorem before_length (lines : List (List Char)) :
    before lines lines.length = feedAll {} (lines.zipIdx 1) := by
  rw [before, List.take_length]

theorem failure?_eq_none_iff {text : List Char} (h : lines[k]? = some text) :
    failure? lines k = none ↔ ((before lines k).feed (k + 1) text).2 = .ok () := by
  simp only [failure?, h, Option.bind_some]
  split <;> simp_all

theorem failure?_of_length_le (h : lines.length ≤ k) : failure? lines k = none := by
  simp [failure?, List.getElem?_eq_none h]

/-- Taking the next line of a text. -/
theorem feedLine_eq {text : List Char} (h : lines[k]? = some text) :
    Program.feedLine (before lines k) (text, k + 1) =
      match failure? lines k with
      | none => .ok (before lines (k + 1))
      | some e => .error ⟨k + 1, e⟩ := by
  rw [failure?, h, Option.bind_some, before_succ h, Program.feedLine]
  obtain ⟨b, result⟩ := (before lines k).feed (k + 1) text
  cases result <;> rfl

/-! ### The first line that fails -/

/-- Lines are read up to the first that fails. -/
theorem foldlM_feedLine (lines : List (List Char)) (k : Nat) :
    ((lines.take k).zipIdx 1).foldlM Program.feedLine {} = .ok (before lines k) ∧
        (∀ j < k, failure? lines j = none) ∨
      ∃ j < k, ∃ e, failure? lines j = some e ∧ (∀ i < j, failure? lines i = none) ∧
        ((lines.take k).zipIdx 1).foldlM Program.feedLine {} = .error ⟨j + 1, e⟩ := by
  induction k with
  | zero => exact .inl ⟨rfl, fun j hj => absurd hj (Nat.not_lt_zero j)⟩
  | succ k ih =>
    cases hl : lines[k]? with
    | none =>
      -- no line is left
      have hk := List.getElem?_eq_none_iff.1 hl
      have same : lines.take (k + 1) = lines.take k := by
        rw [List.take_of_length_le hk, List.take_of_length_le (Nat.le_succ_of_le hk)]
      rw [same, before_succ_of_length_le hk]
      rcases ih with ⟨run, fine⟩ | ⟨j, hj, e, rest⟩
      · refine .inl ⟨run, fun j hj => ?_⟩
        rcases Nat.lt_succ_iff_lt_or_eq.1 hj with hj | rfl
        · exact fine j hj
        · exact failure?_of_length_le hk
      · exact .inr ⟨j, Nat.lt_succ_of_lt hj, e, rest⟩
    | some text =>
      rw [numbered_concat hl, List.foldlM_append]
      rcases ih with ⟨run, fine⟩ | ⟨j, hj, e, failed, first, run⟩
      · have step := feedLine_eq hl
        rw [run]
        cases hf : failure? lines k with
        | none =>
          rw [hf] at step
          refine .inl ⟨by simp [bind, Except.bind, step, pure, Except.pure], fun j hj => ?_⟩
          rcases Nat.lt_succ_iff_lt_or_eq.1 hj with hj | rfl
          · exact fine j hj
          · exact hf
        | some e =>
          rw [hf] at step
          refine .inr ⟨k, Nat.lt_succ_self k, e, hf, fine, ?_⟩
          simp [bind, Except.bind, step]
      · rw [run]
        exact .inr ⟨j, Nat.lt_succ_of_lt hj, e, failed, first, rfl⟩

theorem failure?_of_ofLines {p : Program} (h : Program.ofLines lines = .ok p) (k : Nat) :
    failure? lines k = none := by
  rcases foldlM_feedLine lines lines.length with ⟨-, fine⟩ | ⟨j, -, e, -, -, run⟩
  · rcases Nat.lt_or_ge k lines.length with hk | hk
    · exact fine k hk
    · exact failure?_of_length_le hk
  · rw [List.take_length] at run
    rw [Program.ofLines, run] at h
    cases h

/-! ### The words of the lines -/

theorem line_of_mem_emissions {a : Assembler} {line : List Char × Nat} {e : Emission}
    (h : e ∈ a.emissions line) : e.line = line.2 := by
  have placed (addr : Nat) (cs : List Content) : ∀ e ∈ place line.2 addr cs, e.line = line.2 := by
    induction cs generalizing addr with
    | nil => simp [place]
    | cons c cs ih => simpa [place] using ih (addr + 4)
  exact placed _ _ e h

/-- Words have the numbers of the lines that put them out. -/
theorem line_of_mem_allEmissions {a : Assembler} {texts : List (List Char)} {n : Nat} {e : Emission}
    (h : e ∈ a.allEmissions (texts.zipIdx n)) : n ≤ e.line ∧ e.line < n + texts.length := by
  induction texts generalizing a n with
  | nil => cases h
  | cons text texts ih =>
    rw [List.zipIdx_cons, allEmissions] at h
    rw [List.length_cons]
    rcases List.mem_append.1 h with h | h
    · have := line_of_mem_emissions h
      dsimp only at this
      omega
    · have := ih h
      omega

/-- The words of a text are those of its first lines, and what the rest of the lines put out behind
them. -/
theorem allEmissions_eq (lines : List (List Char)) (k : Nat) :
    allEmissions {} (lines.zipIdx 1) = allEmissions {} ((lines.take k).zipIdx 1) ++
      (before lines k).allEmissions ((lines.drop k).zipIdx (k + 1)) := by
  rcases Nat.lt_or_ge lines.length k with hk | hk
  · rw [List.take_of_length_le (Nat.le_of_lt hk), List.drop_of_length_le (Nat.le_of_lt hk)]
    exact (List.append_nil _).symm
  · have cut := congrArg (fun l => allEmissions {} (l.zipIdx 1)) (List.take_append_drop k lines)
    rw [← cut, List.zipIdx_append, allEmissions_append, List.length_take, Nat.min_eq_left hk,
      Nat.add_comm 1 k]
    rfl

theorem lt_length_of_mem_emissionsAt {e : Emission} (h : e ∈ emissionsAt lines k) :
    k < lines.length := by
  refine Nat.not_le.1 fun hk => ?_
  simp [emissionsAt, List.getElem?_eq_none hk] at h

theorem line_of_mem_emissionsAt {e : Emission} (h : e ∈ emissionsAt lines k) : e.line = k + 1 := by
  unfold emissionsAt at h
  split at h
  · exact line_of_mem_emissions h
  · cases h

theorem allEmissions_succ (lines : List (List Char)) (k : Nat) :
    allEmissions {} ((lines.take (k + 1)).zipIdx 1) =
      allEmissions {} ((lines.take k).zipIdx 1) ++ emissionsAt lines k := by
  cases hl : lines[k]? with
  | none =>
    have hk := List.getElem?_eq_none_iff.1 hl
    simp [emissionsAt, hl, List.take_of_length_le hk, List.take_of_length_le (Nat.le_succ_of_le hk)]
  | some text =>
    rw [numbered_concat hl, allEmissions_append, emissionsAt, hl]
    exact congrArg _ (List.append_nil _)

theorem mem_allEmissions_take_iff {e : Emission} :
    e ∈ allEmissions {} ((lines.take k).zipIdx 1) ↔ ∃ j < k, e ∈ emissionsAt lines j := by
  induction k with
  | zero => simp [allEmissions]
  | succ k ih => simp only [allEmissions_succ, List.mem_append, ih, Nat.exists_lt_succ_right]

theorem mem_allEmissions_iff {e : Emission} :
    e ∈ allEmissions {} (lines.zipIdx 1) ↔ ∃ k, e ∈ emissionsAt lines k := by
  have taken : e ∈ allEmissions {} ((lines.take lines.length).zipIdx 1) ↔ _ :=
    mem_allEmissions_take_iff
  rw [List.take_length] at taken
  rw [taken]
  constructor
  · rintro ⟨k, -, h⟩
    exact ⟨k, h⟩
  · rintro ⟨k, h⟩
    exact ⟨k, lt_length_of_mem_emissionsAt h, h⟩

/-! ### The rows of the lines -/

theorem map_line_rowsFrom (n : Nat) (es : List Emission) :
    (rowsFrom n es).map Row.line = es.map Emission.line := by
  fun_induction rowsFrom n es with
  | case1 n => rfl
  | case2 n line addr o operands es ih => rw [List.map_cons, ih, List.map_cons]
  | case3 n line addr b0 b1 b2 b3 es ih => rw [List.map_cons, ih, List.map_cons]

theorem forall_line_rowsFrom_iff {P : Nat → Prop} (n : Nat) (es : List Emission) :
    (∀ r ∈ rowsFrom n es, P r.line) ↔ ∀ e ∈ es, P e.line := by
  rw [← List.forall_mem_map (f := Row.line), map_line_rowsFrom, List.forall_mem_map]

theorem exists_rowsFrom_cons (n : Nat) (e : Emission) (es : List Emission) :
    ∃ insn m, rowsFrom n (e :: es) = ⟨e.line, e.addr, insn⟩ :: rowsFrom m es := by
  obtain ⟨line, addr, content⟩ := e
  cases content with
  | insn o operands => exact ⟨some n, n + 1, rfl⟩
  | data b0 b1 b2 b3 => exact ⟨none, n, rfl⟩

theorem filter_line_rowsFrom {n l : Nat} {es : List Emission} (h : ∀ e ∈ es, e.line ≠ l) :
    (rowsFrom n es).filter (·.line = l) = [] := by
  rw [List.filter_eq_nil_iff]
  intro r hr
  rw [decide_eq_true_eq]
  exact (forall_line_rowsFrom_iff (P := (· ≠ l)) n es).2 h r hr

/-- The rows of a line are those of the words that it puts out. -/
theorem filter_rowsFrom_eq (lines : List (List Char)) (k : Nat) :
    (rowsFrom 0 (allEmissions {} (lines.zipIdx 1))).filter (·.line = k + 1) =
      rowsFrom (insnCount (allEmissions {} ((lines.take k).zipIdx 1))) (emissionsAt lines k) := by
  have front : ∀ e ∈ allEmissions {} ((lines.take k).zipIdx 1), e.line ≠ k + 1 := by
    intro e he
    have := line_of_mem_allEmissions he
    have := List.length_take_le k lines
    omega
  have back : ∀ e ∈ (before lines (k + 1)).allEmissions ((lines.drop (k + 1)).zipIdx (k + 2)),
      e.line ≠ k + 1 := by
    intro e he
    have := line_of_mem_allEmissions he
    omega
  have here (n : Nat) : ∀ r ∈ rowsFrom n (emissionsAt lines k), decide (r.line = k + 1) = true := by
    simp only [decide_eq_true_eq]
    exact (forall_line_rowsFrom_iff (P := (· = k + 1)) n _).2 fun e => line_of_mem_emissionsAt
  rw [allEmissions_eq lines (k + 1), allEmissions_succ, rowsFrom_append, rowsFrom_append,
    List.filter_append, List.filter_append, filter_line_rowsFrom front, filter_line_rowsFrom back,
    List.filter_eq_self.2 (here _), List.nil_append, List.append_nil, Nat.zero_add]

/-- Words are put out in the order of the lines. -/
theorem pairwise_line_allEmissions (a : Assembler) (texts : List (List Char)) (n : Nat) :
    (a.allEmissions (texts.zipIdx n)).Pairwise fun e f => e.line ≤ f.line := by
  induction texts generalizing a n with
  | nil => exact .nil
  | cons text texts ih =>
    rw [List.zipIdx_cons, allEmissions, List.pairwise_append]
    have here : ∀ e ∈ a.emissions (text, n), e.line = n := fun e => line_of_mem_emissions
    refine ⟨List.pairwise_of_forall_mem_list fun e he f hf => ?_, ih _ _, fun e he f hf => ?_⟩
    · exact Nat.le_of_eq ((here e he).trans (here f hf).symm)
    · rw [here e he]
      exact Nat.le_of_succ_le (line_of_mem_allEmissions hf).1

end Assembler

end Macc
