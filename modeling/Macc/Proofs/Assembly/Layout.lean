import Macc.Proofs.Assembly.Cursor
import Macc.Proofs.Assembly.Evaluation

/-!
# The layout of programs

Data words go into the image when their line is taken, instruction words at the end.  Still the
words of a program never meet: as long as all instructions fit into the image, what lines put out is
`Spread`, that is, at increasing multiples of 4 inside the image.

`Program.MadeOf` describes a program by the emissions of its lines, and `madeOf_of_finish` shows
that every program is made that way.  `layout_of_finish` puts it in terms of rows and bytes.
-/

namespace Macc

/-! ### Spread emissions -/

/-- Emissions at increasing multiples of 4 inside the image, from an address on up to another. -/
inductive Spread : Nat → List Emission → Nat → Prop
  | nil {lo hi : Nat} (h : lo ≤ hi) : Spread lo [] hi
  | cons {lo hi : Nat} {e : Emission} {es : List Emission} (le : lo ≤ e.addr)
      (aligned : e.addr % 4 = 0) (fits : e.addr + 4 ≤ memorySize)
      (rest : Spread (e.addr + 4) es hi) : Spread lo (e :: es) hi

namespace Spread

theorem mono {lo lo' hi : Nat} {es : List Emission} (h : Spread lo es hi) (hlo : lo' ≤ lo) :
    Spread lo' es hi := by
  cases h with
  | nil h => exact .nil (Nat.le_trans hlo h)
  | cons le aligned fits rest => exact .cons (Nat.le_trans hlo le) aligned fits rest

theorem append {lo mid hi : Nat} {es fs : List Emission} (h : Spread lo es mid)
    (k : Spread mid fs hi) : Spread lo (es ++ fs) hi := by
  induction h with
  | nil h => exact k.mono h
  | cons le aligned fits _ ih => exact .cons le aligned fits (ih k)

theorem of_mem {lo hi : Nat} {es : List Emission} (h : Spread lo es hi) {e : Emission}
    (he : e ∈ es) : lo ≤ e.addr ∧ e.addr % 4 = 0 ∧ e.addr + 4 ≤ memorySize := by
  induction h with
  | nil => cases he
  | cons le aligned fits _ ih =>
    rcases List.mem_cons.1 he with rfl | he
    · exact ⟨le, aligned, fits⟩
    · obtain ⟨le', rest⟩ := ih he
      exact ⟨by omega, rest⟩

theorem pairwise {lo hi : Nat} {es : List Emission} (h : Spread lo es hi) :
    es.Pairwise fun e f => e.addr + 4 ≤ f.addr := by
  induction h with
  | nil => exact .nil
  | cons _ _ _ rest ih => exact .cons (fun f hf => (rest.of_mem hf).1) ih

end Spread

/-! ### Words of emissions -/

/-- The data put out, if it is data, with its address. -/
def Emission.datum? (e : Emission) : Option (Nat × Word) :=
  match e.content with
  | .data b0 b1 b2 b3 => some (e.addr, b3 ++ b2 ++ b1 ++ b0)
  | .insn _ _ => none

/-- The word put out when symbols have given values. -/
def Emission.word (values : String → Int64) (e : Emission) : Word :=
  match e.content with
  | .data b0 b1 b2 b3 => b3 ++ b2 ++ b1 ++ b0
  | .insn o operands =>
    Insn.encode ⟨e.addr, o, o.fieldValue values operands .maddr,
      o.fieldValue values operands .caddr, e.line⟩

theorem Emission.of_evaluate {values : String → Int64} {e : Emission} {i : Insn}
    (h : e.evaluate values = some i) :
    i.position = e.addr ∧ i.line = e.line ∧ e.word values = i.encode := by
  obtain ⟨line, addr, content⟩ := e
  cases content with
  | data => cases h
  | insn o operands =>
    obtain rfl := Option.some.inj h
    exact ⟨rfl, rfl, rfl⟩

/-- The words of emissions with their addresses in the order in which they are written: the data
first, then the instructions. -/
def writes (values : String → Int64) (es : List Emission) : List (Nat × Word) :=
  es.filterMap Emission.datum? ++
    (es.filterMap (Emission.evaluate values)).map fun i => (i.position, i.encode)

/-- Every word is written once. -/
theorem perm_writes (values : String → Int64) (es : List Emission) :
    (writes values es).Perm (es.map fun e => (e.addr, e.word values)) := by
  induction es with
  | nil => exact .nil
  | cons e es ih =>
    obtain ⟨line, addr, content⟩ := e
    cases content with
    | data b0 b1 b2 b3 => exact ih.cons (addr, b3 ++ b2 ++ b1 ++ b0)
    -- an instruction word is written behind all data, those of later lines included
    | insn o operands => exact List.perm_middle.trans (ih.cons _)

/-! ### Runs -/

namespace Assembler

theorem Change.spread {line : Nat} {a b : Assembler} {es : List Emission}
    {values : String → Int64} (step : Change line a es b) (h4 : a.cursor % 4 = 0)
    (hc : a.cursor < 2 ^ 63)
    (hf : ∀ i ∈ es.filterMap (Emission.evaluate values), i.position + 4 ≤ memorySize) :
    Spread a.cursor es b.cursor ∧ b.cursor % 4 = 0 ∧ b.cursor < 2 ^ 63 := by
  -- the cursor leaves the signed range only behind a word that is far outside of the image
  have one {content : Content} (h : a.cursor + 4 ≤ memorySize) :
      Spread a.cursor [⟨line, a.cursor, content⟩] (a.cursor + 4) ∧
        (a.cursor + 4) % 4 = 0 ∧ a.cursor + 4 < 2 ^ 63 := by
    refine ⟨.cons (Nat.le_refl _) h4 h (.nil (Nat.le_refl _)), by omega, ?_⟩
    rw [memorySize] at h
    omega
  cases step with
  | define => exact ⟨.nil (Nat.le_refl _), h4, hc⟩
  | enter kind start =>
    obtain ⟨le, lt⟩ := start.le hc
    exact ⟨.nil le, start.mod_four h4, lt⟩
  | insn _ => exact one (hf _ (.head _))
  | word b0 b1 b2 b3 h => exact one h

/-- As long as all instructions fit, what a run puts out is spread. -/
theorem Run.spread {a b : Assembler} {es : List Emission} {values : String → Int64}
    (run : Run a es b) (h4 : a.cursor % 4 = 0) (hc : a.cursor < 2 ^ 63)
    (hf : ∀ i ∈ es.filterMap (Emission.evaluate values), i.position + 4 ≤ memorySize) :
    Spread a.cursor es b.cursor := by
  induction run with
  | nil => exact .nil (Nat.le_refl _)
  | cons step _ ih =>
    rw [List.filterMap_append, List.forall_mem_append] at hf
    obtain ⟨here, h4, hc⟩ := step.spread h4 hc hf.1
    exact here.append (ih h4 hc hf.2)

theorem Change.image_eq {line : Nat} {a b : Assembler} {es : List Emission}
    (step : Change line a es b) : b.image = a.image.setWords (es.filterMap Emission.datum?) := by
  cases step <;> rfl

theorem Run.image_eq {a b : Assembler} {es : List Emission} (run : Run a es b) :
    b.image = a.image.setWords (es.filterMap Emission.datum?) := by
  induction run with
  | nil => rfl
  | cons step _ ih => rw [ih, step.image_eq, List.filterMap_append, Image.setWords_append]

end Assembler

/-! ### What programs are made of -/

/-- The program consists of the words of emissions when symbols have given values. -/
structure Program.MadeOf (p : Program) (values : String → Int64) (es : List Emission) : Prop where
  spread : ∃ hi, Spread 0 es hi
  insns : p.insns.toList = es.filterMap (Emission.evaluate values)
  rows : p.rows.toList = Assembler.rowsFrom 0 es
  image : p.image = Image.empty.setWords (writes values es)

/-- Every program is made of what its lines put out. -/
theorem madeOf_of_finish {lines : List (List Char × Nat)} {p : Program}
    {values : String → Int64} (h : (Assembler.feedAll {} lines).finish = .ok p)
    (agrees : p.symbols.Agrees values) : p.MadeOf values (Assembler.allEmissions {} lines) := by
  have run := Assembler.run_feedAll {} lines
  have fits := Assembler.fits_of_finish values h
  obtain rfl := Assembler.program_of_finish h agrees
  constructor
  case spread => exact ⟨_, run.spread rfl (by decide) fits⟩
  case insns => rfl
  case rows => exact run.rows_eq
  case image =>
    dsimp only
    rw [run.image_eq, writes, Image.setWords_append]

namespace Program.MadeOf

variable {p : Program} {values : String → Int64} {es : List Emission}

theorem fits (h : p.MadeOf values es) : ∀ w ∈ writes values es, w.1 + 4 ≤ memorySize := by
  obtain ⟨hi, spread⟩ := h.spread
  intro w hw
  obtain ⟨e, he, rfl⟩ := List.mem_map.1 ((perm_writes values es).mem_iff.1 hw)
  exact (spread.of_mem he).2.2

theorem apart (h : p.MadeOf values es) : (writes values es).Pairwise Image.Apart := by
  obtain ⟨hi, spread⟩ := h.spread
  rw [(perm_writes values es).pairwise_iff fun h => h.symm, List.pairwise_map]
  exact spread.pairwise.imp .inl

/-- Every word put out is in the image. -/
theorem word_image (h : p.MadeOf values es) {e : Emission} (he : e ∈ es) :
    p.image.word (.ofNat 17 e.addr) = e.word values := by
  have hw : (e.addr, e.word values) ∈ writes values es :=
    (perm_writes values es).mem_iff.2 (List.mem_map_of_mem he)
  have word := Image.word_setWords Image.empty h.fits h.apart hw
  rw [h.image]
  exact word

theorem isDefined_image_iff (h : p.MadeOf values es) (x : Address) :
    p.image.isDefined x ↔ ∃ e ∈ es, Image.Covers e.addr x := by
  have perm := perm_writes values es
  rw [h.image, Image.isDefined_setWords_iff _ x h.fits, Image.isDefined_empty]
  constructor
  · rintro (⟨w, hw, hx⟩ | hx)
    · obtain ⟨e, he, rfl⟩ := List.mem_map.1 (perm.mem_iff.1 hw)
      exact ⟨e, he, hx⟩
    · cases hx
  · rintro ⟨e, he, hx⟩
    exact .inl ⟨_, perm.mem_iff.2 (List.mem_map_of_mem he), hx⟩

theorem byte_image_eq_zero (h : p.MadeOf values es) {x : Address}
    (hx : ¬ ∃ e ∈ es, Image.Covers e.addr x) : p.image.byte x = 0 := by
  rw [h.image, Image.byte_setWords_of_not_covers _ h.fits, Image.byte_empty]
  intro w hw hc
  obtain ⟨e, he, rfl⟩ := List.mem_map.1 ((perm_writes values es).mem_iff.1 hw)
  exact hx ⟨e, he, hc⟩

end Program.MadeOf

/-! ### Rows -/

namespace Assembler

theorem exists_row_iff {P : Nat → Prop} (n : Nat) (es : List Emission) :
    (∃ r ∈ rowsFrom n es, P r.addr) ↔ ∃ e ∈ es, P e.addr := by
  have mapped {α : Type} (f : α → Nat) (l : List α) :
      (∃ x ∈ l, P (f x)) ↔ ∃ a ∈ l.map f, P a := by
    constructor
    · rintro ⟨x, hx, h⟩
      exact ⟨f x, List.mem_map_of_mem hx, h⟩
    · rintro ⟨a, ha, h⟩
      obtain ⟨x, hx, rfl⟩ := List.mem_map.1 ha
      exact ⟨x, hx, h⟩
  rw [mapped Row.addr, map_addr_rowsFrom, ← mapped]

theorem forall_row_iff {P : Nat → Prop} (n : Nat) (es : List Emission) :
    (∀ r ∈ rowsFrom n es, P r.addr) ↔ ∀ e ∈ es, P e.addr := by
  rw [← List.forall_mem_map (f := Row.addr), map_addr_rowsFrom, List.forall_mem_map]

theorem filterMap_insn_rowsFrom (n : Nat) (es : List Emission) :
    (rowsFrom n es).filterMap Row.insn = List.range' n (insnCount es) := by
  fun_induction rowsFrom n es with
  | case1 n => rfl
  | case2 n line addr o operands es ih =>
    have count : insnCount (⟨line, addr, .insn o operands⟩ :: es) = insnCount es + 1 :=
      List.countP_cons_of_pos rfl
    rw [count, List.range'_succ, ← ih]
    rfl
  | case3 n line addr b0 b1 b2 b3 es ih =>
    have count : insnCount (⟨line, addr, .data b0 b1 b2 b3⟩ :: es) = insnCount es :=
      List.countP_cons_of_neg Bool.false_ne_true
    rw [count, ← ih]
    rfl

theorem length_filterMap_evaluate (values : String → Int64) (es : List Emission) :
    (es.filterMap (Emission.evaluate values)).length = insnCount es := by
  rw [List.length_filterMap_eq_countP, insnCount]
  congr 1
  funext e
  obtain ⟨line, addr, content⟩ := e
  cases content <;> rfl

/-- The row of an instruction comes from the emission that the instruction is evaluated from. -/
theorem exists_of_row {values : String → Int64} {n i : Nat} {es : List Emission} {r : Row}
    (hr : r ∈ rowsFrom n es) (hi : r.insn = some i) :
    n ≤ i ∧ ∃ e ∈ es, e.addr = r.addr ∧ e.line = r.line ∧
      ∃ insn, e.evaluate values = some insn ∧
        (es.filterMap (Emission.evaluate values))[i - n]? = some insn := by
  fun_induction rowsFrom n es with
  | case1 n => cases hr
  | case2 n line addr o operands es ih =>
    rcases List.mem_cons.1 hr with rfl | hr
    · obtain rfl := Option.some.inj hi
      refine ⟨Nat.le_refl _, _, .head _, rfl, rfl, _, rfl, ?_⟩
      rw [Nat.sub_self]
      rfl
    · obtain ⟨le, e, he, haddr, hline, insn, hv, hget⟩ := ih hr
      refine ⟨Nat.le_of_succ_le le, e, .tail _ he, haddr, hline, insn, hv, ?_⟩
      have : i - n = i - (n + 1) + 1 := by omega
      rw [this]
      exact hget
  | case3 n line addr b0 b1 b2 b3 es ih =>
    rcases List.mem_cons.1 hr with rfl | hr
    · cases hi
    · obtain ⟨le, e, he, rest⟩ := ih hr
      exact ⟨le, e, .tail _ he, rest⟩

end Assembler

namespace Program.MadeOf

variable {p : Program} {values : String → Int64} {es : List Emission}

/-- The word of an instruction is the encoded instruction, which is evaluated from an emission. -/
theorem word_insn (h : p.MadeOf values es) {i : Nat} {insn : Insn} (hi : p.insns[i]? = some insn) :
    (∃ e ∈ es, e.evaluate values = some insn) ∧
      p.image.word (.ofNat 17 insn.position) = insn.encode := by
  rw [← Array.getElem?_toList, h.insns] at hi
  obtain ⟨e, he, hv⟩ := List.mem_filterMap.1 (List.mem_of_getElem? hi)
  obtain ⟨hposition, -, hword⟩ := Emission.of_evaluate hv
  refine ⟨⟨e, he, hv⟩, ?_⟩
  rw [hposition, h.word_image he, hword]

theorem exists_insn_of_row (h : p.MadeOf values es) {r : Row} (hr : r ∈ p.rows.toList) {i : Nat}
    (hi : r.insn = some i) :
    ∃ insn, p.insns[i]? = some insn ∧ r.addr = insn.position ∧ r.line = insn.line := by
  rw [h.rows] at hr
  obtain ⟨-, e, he, haddr, hline, insn, hv, hget⟩ := Assembler.exists_of_row hr hi
  obtain ⟨hposition, hline', -⟩ := Emission.of_evaluate hv
  refine ⟨insn, ?_, ?_, ?_⟩
  · rw [← Array.getElem?_toList, h.insns]
    exact hget
  · rw [hposition, haddr]
  · rw [hline', hline]

end Program.MadeOf

/-! ### The layout law -/

/-- The layout of a program whose lines put out given emissions. -/
structure Program.Layout (p : Program) (es : List Emission) : Prop where
  increasing : p.rows.toList.Pairwise fun r s => r.addr < s.addr
  aligned : ∀ r ∈ p.rows.toList, r.addr % 4 = 0
  inside : ∀ r ∈ p.rows.toList, r.addr ≤ 0x1fffc
  /-- The defined bytes are those of the rows. -/
  isDefined_iff : ∀ x, p.image.isDefined x ↔ ∃ r ∈ p.rows.toList, Image.Covers r.addr x
  byte_eq_zero : ∀ x, p.image.isDefined x = false → p.image.byte x = 0
  /-- The rows number all instructions in order. -/
  insns : p.rows.toList.filterMap Row.insn = List.range p.insns.size
  word_insn : ∀ r ∈ p.rows.toList, ∀ i, r.insn = some i →
    ∃ insn, p.insns[i]? = some insn ∧ r.addr = insn.position ∧ r.line = insn.line ∧
      p.image.word (.ofNat 17 r.addr) = insn.encode
  /-- The rows are those of the emissions, none of which is missing. -/
  rows : p.rows.toList = Assembler.rowsFrom 0 es
  bytes_data : ∀ line addr b0 b1 b2 b3, ⟨line, addr, .data b0 b1 b2 b3⟩ ∈ es →
    p.image.byte (.ofNat 17 addr) = b0 ∧ p.image.byte (.ofNat 17 addr + 1) = b1 ∧
      p.image.byte (.ofNat 17 addr + 2) = b2 ∧ p.image.byte (.ofNat 17 addr + 3) = b3

/-- Every program has this layout, lines that fail included. -/
theorem layout_of_finish {lines : List (List Char × Nat)} {p : Program}
    (h : (Assembler.feedAll {} lines).finish = .ok p) :
    p.Layout (Assembler.allEmissions {} lines) := by
  have made := madeOf_of_finish h p.symbols.agrees_value?
  obtain ⟨hi, spread⟩ := made.spread
  constructor
  case increasing =>
    rw [made.rows, ← List.pairwise_map (f := Row.addr) (R := (· < ·)),
      Assembler.map_addr_rowsFrom, List.pairwise_map]
    exact spread.pairwise.imp fun h => by omega
  case aligned =>
    rw [made.rows, Assembler.forall_row_iff (P := (· % 4 = 0))]
    intro e he
    exact (spread.of_mem he).2.1
  case inside =>
    rw [made.rows, Assembler.forall_row_iff (P := (· ≤ 0x1fffc))]
    intro e he
    have := (spread.of_mem he).2.2
    rw [memorySize] at this
    omega
  case isDefined_iff =>
    intro x
    rw [made.rows, Assembler.exists_row_iff (P := (Image.Covers · x)), made.isDefined_image_iff]
  case byte_eq_zero =>
    intro x hx
    refine made.byte_image_eq_zero fun hc => ?_
    rw [(made.isDefined_image_iff x).2 hc] at hx
    cases hx
  case insns =>
    rw [made.rows, Assembler.filterMap_insn_rowsFrom, ← Array.length_toList, made.insns,
      Assembler.length_filterMap_evaluate, List.range_eq_range']
  case word_insn =>
    intro r hr i hi
    obtain ⟨insn, hget, haddr, hline⟩ := made.exists_insn_of_row hr hi
    obtain ⟨-, hword⟩ := made.word_insn hget
    exact ⟨insn, hget, haddr, hline, haddr ▸ hword⟩
  case rows => exact made.rows
  case bytes_data =>
    intro line addr b0 b1 b2 b3 he
    have word := made.word_image he
    dsimp only [Emission.word] at word
    rw [Image.word] at word
    have bytes := congrArg wordBytes word
    rw [Image.wordBytes_append, Image.wordBytes_append] at bytes
    injection bytes with h0 bytes
    injection bytes with h1 bytes
    injection bytes with h2 bytes
    injection bytes with h3 _
    exact ⟨h0, h1, h2, h3⟩

/-- Data and code in turn, a line that fails, and a data row of which one word fits. -/
def interleavedLines : List (List Char × Nat) :=
  [(".data 0x10".toList, 1), ("1 2 3 4 5 6 7 8".toList, 2), (".code".toList, 3),
    ("Return".toList, 4), ("Return 1".toList, 5), (".data 0x1fffc".toList, 6),
    ("9 10 11 12 13 14 15 16".toList, 7)]

theorem layout_interleavedLines :
    ∃ p, (Assembler.feedAll {} interleavedLines).finish = .ok p ∧
      p.rows.toList = [⟨2, 0x10, none⟩, ⟨2, 0x14, none⟩, ⟨4, 0x18, some 0⟩, ⟨7, 0x1fffc, none⟩] ∧
      p.image.byte 0x14 = 5 ∧ p.image.byte 0x17 = 8 ∧ p.image.byte 0x1fffb = 0 := by
  obtain ⟨p, hp⟩ := (Assembler.exists_finish_feedAll_iff interleavedLines).2
    ⟨by decide +kernel, by decide +kernel⟩
  have layout := layout_of_finish hp
  have rows : p.rows.toList = [⟨2, 0x10, none⟩, ⟨2, 0x14, none⟩, ⟨4, 0x18, some 0⟩,
      ⟨7, 0x1fffc, none⟩] := layout.rows.trans (by decide +kernel)
  obtain ⟨first, -, -, last⟩ := layout.bytes_data 2 0x14 5 6 7 8 (by decide +kernel)
  refine ⟨p, hp, rows, first, last, ?_⟩
  refine layout.byte_eq_zero _ (Bool.eq_false_iff.2 fun defined => ?_)
  rw [layout.isDefined_iff, rows] at defined
  simp [Image.Covers] at defined

end Macc
