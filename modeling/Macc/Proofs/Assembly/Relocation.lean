import Macc.Assembly.Program
import Macc.Proofs.Assembly.Actions
import Macc.Proofs.Image.Words

/-!
# Relocations

What the end of an assembly adds to the instructions.  `SymbolTable.contributions` lists what the
references of a table add when its names have given values, and `totalAmount` sums up what a list of
relocations adds to one field of one instruction.  `Insn.settle` adds amounts to both fields.

`finish_eq_ok` gives the program when every symbol is `Resolved` and every instruction fits into the
image, and `exists_finish_iff` says that there is none otherwise.
-/

namespace Macc

/-! ### Exact quotients -/

/-- The value of a symbol, times the factor, has an exact quotient by the divisor in 64 bits. -/
def Reference.Exact (r : Reference) (position : Int64) : Prop :=
  r.divisor ≠ 0 ∧ position * r.factor % r.divisor = 0 ∧
    ¬ (position * r.factor = Int64.minValue ∧ r.divisor = -1)

instance (r : Reference) (position : Int64) : Decidable (r.Exact position) :=
  inferInstanceAs (Decidable (_ ∧ _ ∧ _))

/-- What a reference adds, the value of its symbol given. -/
def Reference.contribution (r : Reference) (position : Int64) : Relocation :=
  ⟨r.insn, r.field, position * r.factor / r.divisor⟩

theorem Reference.relocation_of_exact {r : Reference} {name : String} {position : Int64}
    (h : r.Exact position) : r.relocation name position = .ok (r.contribution position) := by
  obtain ⟨h0, hm, hr⟩ := h
  have hn : ¬ (r.divisor = 0 ∨ (position * r.factor = Int64.minValue ∧ r.divisor = -1) ∨
      position * r.factor % r.divisor ≠ 0) := by
    simp only [not_or, h0, hr, hm, ne_eq, not_true_eq_false, not_false_eq_true, and_self]
  simp only [Reference.relocation, exactQuotient?, if_neg hn, Reference.contribution]

theorem Reference.exact_of_relocation {r : Reference} {name : String} {position : Int64}
    {relocation : Relocation} (h : r.relocation name position = .ok relocation) :
    r.Exact position := by
  unfold Reference.relocation exactQuotient? at h
  dsimp only at h
  split at h
  next hq =>
    split at hq
    · cases hq
    next hn =>
      simp only [not_or, Decidable.not_not] at hn
      exact ⟨hn.1, hn.2.2, hn.2.1⟩
  next => cases h

/-! ### Relocations of a table -/

section MapM

variable {α β ε : Type} {f : α → Except ε β} {l : List α}

theorem mapM_eq_ok_map {g : α → β} (h : ∀ x ∈ l, f x = .ok (g x)) : l.mapM f = .ok (l.map g) := by
  induction l with
  | nil => rfl
  | cons x l ih =>
    rw [List.forall_mem_cons] at h
    rw [List.mapM_cons, h.1, ih h.2]
    rfl

theorem exists_ok_of_mapM {ys : List β} (h : l.mapM f = .ok ys) : ∀ x ∈ l, ∃ y, f x = .ok y := by
  induction l generalizing ys with
  | nil => simp
  | cons x l ih =>
    rw [List.mapM_cons] at h
    cases hx : f x with
    | error e => rw [hx] at h; cases h
    | ok y =>
      cases hl : l.mapM f with
      | error e => rw [hx, hl] at h; cases h
      | ok zs => exact List.forall_mem_cons.2 ⟨⟨y, hx⟩, ih hl⟩

theorem exists_error_of_mapM {e : ε} (h : l.mapM f = .error e) : ∃ x ∈ l, f x = .error e := by
  induction l with
  | nil => cases h
  | cons x l ih =>
    rw [List.mapM_cons] at h
    cases hx : f x with
    | error e' =>
      rw [hx] at h
      cases h
      exact ⟨x, .head _, hx⟩
    | ok y =>
      cases hl : l.mapM f with
      | ok ys => rw [hx, hl] at h; cases h
      | error e' =>
        rw [hx, hl] at h
        cases h
        obtain ⟨z, hz, he⟩ := ih hl
        exact ⟨z, .tail _ hz, he⟩

end MapM

/-- The symbol has a value, and its references have exact quotients. -/
def Symbol.Resolved (s : Symbol) : Prop :=
  ∃ d, s.definition = some d ∧ ∀ r ∈ s.references.toList, r.Exact d.position

instance (s : Symbol) : Decidable s.Resolved :=
  match h : s.definition with
  | none => isFalse fun ⟨_, hd, _⟩ => nomatch h.symm.trans hd
  | some d =>
    decidable_of_iff (∀ r ∈ s.references.toList, r.Exact d.position)
      ⟨fun hr => ⟨d, h, hr⟩, fun ⟨_, hd, hr⟩ => Option.some.inj (h.symm.trans hd) ▸ hr⟩

/-- What the references of a symbol add. -/
def Symbol.contributions (values : String → Int64) (s : Symbol) : List Relocation :=
  s.references.toList.map fun r => r.contribution (values s.name)

/-- What all references add. -/
def SymbolTable.contributions (values : String → Int64) (t : SymbolTable) : List Relocation :=
  t.symbols.flatMap (Symbol.contributions values)

theorem Symbol.relocations_eq_ok {s : Symbol} {values : String → Int64} (h : s.Resolved)
    (hv : ∀ d, s.definition = some d → values s.name = d.position) :
    s.relocations = .ok (s.contributions values) := by
  obtain ⟨d, hd, hr⟩ := h
  rw [Symbol.relocations, hd, Symbol.contributions, hv d hd]
  exact mapM_eq_ok_map fun r hm => Reference.relocation_of_exact (hr r hm)

theorem Symbol.resolved_of_relocations {s : Symbol} {rs : List Relocation}
    (h : s.relocations = .ok rs) : s.Resolved := by
  unfold Symbol.relocations at h
  split at h
  · cases h
  next d hd =>
    refine ⟨d, hd, fun r hr => ?_⟩
    obtain ⟨relocation, hx⟩ := exists_ok_of_mapM h r hr
    exact Reference.exact_of_relocation hx

theorem SymbolTable.relocations_eq_ok {t : SymbolTable} {values : String → Int64}
    (h : ∀ s ∈ t.symbols, s.Resolved) (hn : t.names.Nodup) (hv : t.Agrees values) :
    t.relocations = .ok (t.contributions values) := by
  have each : ∀ s ∈ t.symbols, s.relocations = .ok (s.contributions values) := fun s hs =>
    s.relocations_eq_ok (h s hs) fun _ hd => hv s.name _ (t.value?_of_mem hn hs hd)
  rw [SymbolTable.relocations, mapM_eq_ok_map each]
  rfl

theorem SymbolTable.resolved_of_relocations {t : SymbolTable} {rs : List Relocation}
    (h : t.relocations = .ok rs) : ∀ s ∈ t.symbols, s.Resolved := by
  intro s hs
  rw [SymbolTable.relocations] at h
  cases hm : t.symbols.mapM Symbol.relocations with
  | error e => rw [hm] at h; cases h
  | ok rss =>
    obtain ⟨rs, hr⟩ := exists_ok_of_mapM hm s hs
    exact s.resolved_of_relocations hr

/-! ### Sums -/

/-- What relocations add to a field of an instruction. -/
def totalAmount (rs : List Relocation) (i : Nat) (f : Field) : Int64 :=
  ((rs.filter fun r => r.insn = i ∧ r.field = f).map Relocation.amount).sum

theorem totalAmount_nil (i : Nat) (f : Field) : totalAmount [] i f = 0 := rfl

theorem totalAmount_append (rs qs : List Relocation) (i : Nat) (f : Field) :
    totalAmount (rs ++ qs) i f = totalAmount rs i f + totalAmount qs i f := by
  rw [totalAmount, List.filter_append, List.map_append, List.sum_append, totalAmount, totalAmount]

theorem totalAmount_cons (r : Relocation) (rs : List Relocation) (i : Nat) (f : Field) :
    totalAmount (r :: rs) i f =
      (if r.insn = i ∧ r.field = f then r.amount else 0) + totalAmount rs i f := by
  rw [totalAmount, List.filter_cons]
  by_cases h : r.insn = i ∧ r.field = f
  · rw [if_pos (decide_eq_true h), if_pos h, List.map_cons, List.sum_cons, totalAmount]
  · rw [if_neg (by simpa using h), if_neg h, Int64.zero_add, totalAmount]

theorem totalAmount_eq_zero {rs : List Relocation} {i : Nat} (f : Field)
    (h : ∀ r ∈ rs, r.insn ≠ i) : totalAmount rs i f = 0 := by
  have : rs.filter (fun r => r.insn = i ∧ r.field = f) = [] := by
    rw [List.filter_eq_nil_iff]
    intro r hr
    simp [h r hr]
  rw [totalAmount, this]
  rfl

namespace Insn

/-- The sum in a field. -/
def field (i : Insn) : Field → Int64
  | .maddr => i.maddr
  | .caddr => i.caddr

/-- Add amounts to the fields. -/
def settle (i : Insn) (amount : Field → Int64) : Insn :=
  { i with maddr := i.maddr + amount .maddr, caddr := i.caddr + amount .caddr }

theorem settle_zero (i : Insn) : i.settle (fun _ => 0) = i := by
  rw [settle, Int64.add_zero, Int64.add_zero]

theorem settle_congr {i j : Insn} {amount amount' : Field → Int64}
    (hp : i.position = j.position) (ho : i.opcode = j.opcode) (hl : i.line = j.line)
    (h : ∀ f, i.field f + amount f = j.field f + amount' f) :
    i.settle amount = j.settle amount' := by
  have hm : i.maddr + amount .maddr = j.maddr + amount' .maddr := h .maddr
  have hc : i.caddr + amount .caddr = j.caddr + amount' .caddr := h .caddr
  simp only [settle, hp, ho, hl, hm, hc]

theorem field_add (i : Insn) (f g : Field) (v : Int64) :
    (i.add f v).field g = i.field g + if f = g then v else 0 := by
  cases f <;> cases g <;> simp [add, field]

theorem position_add (i : Insn) (f : Field) (v : Int64) : (i.add f v).position = i.position := by
  cases f <;> rfl

theorem opcode_add (i : Insn) (f : Field) (v : Int64) : (i.add f v).opcode = i.opcode := by
  cases f <;> rfl

theorem line_add (i : Insn) (f : Field) (v : Int64) : (i.add f v).line = i.line := by
  cases f <;> rfl

theorem settle_add (i : Insn) (f : Field) (v : Int64) (amount : Field → Int64) :
    (i.add f v).settle amount = i.settle fun g => (if f = g then v else 0) + amount g :=
  settle_congr (i.position_add f v) (i.opcode_add f v) (i.line_add f v) fun g => by
    rw [field_add, Int64.add_assoc]

end Insn

/-- Relocations add their total amounts. -/
theorem getElem?_relocate (insns : Array Insn) (rs : List Relocation) (i : Nat) :
    (relocate insns rs)[i]? = insns[i]?.map (·.settle (totalAmount rs i)) := by
  induction rs generalizing insns with
  | nil =>
    cases h : insns[i]? with
    | none => simp [relocate, h]
    | some insn =>
      have : insn.settle (totalAmount [] i) = insn := insn.settle_zero
      simp [relocate, h, this]
  | cons r rs ih =>
    have step : relocate insns (r :: rs) =
        relocate (insns.modify r.insn (·.add r.field r.amount)) rs := rfl
    rw [step, ih, Array.getElem?_modify]
    cases h : insns[i]? with
    | none => simp
    | some insn =>
      -- the first relocation adds to this instruction or to another
      by_cases hi : r.insn = i
      · have total : totalAmount (r :: rs) i =
            fun g => (if r.field = g then r.amount else 0) + totalAmount rs i g := by
          funext g
          simp only [totalAmount_cons, hi, true_and]
        rw [total, Option.map_some, Option.map_some, ← Insn.settle_add, if_pos hi]
        rfl
      · have total : totalAmount (r :: rs) i = totalAmount rs i := by
          funext g
          rw [totalAmount_cons, if_neg (fun h => hi h.1), Int64.zero_add]
        rw [total, if_neg hi]

/-! ### The program -/

theorem Image.writeInsn_of_le (m : Image) {i : Insn} (h : i.position + 4 ≤ memorySize) :
    m.writeInsn i = .ok (m.setWord (.ofNat 17 i.position) i.encode) := by
  rw [writeInsn, writeWord_of_le m _ h]

theorem Image.writeInsn_of_lt (m : Image) {i : Insn} (h : memorySize < i.position + 4) :
    m.writeInsn i = .error ⟨i.line, Assembler.unwritable i.position⟩ := by
  rw [writeInsn, writeWord_of_lt m _ h]
  rfl

theorem foldlM_writeInsn_eq_ok {insns : List Insn} (m : Image)
    (h : ∀ i ∈ insns, i.position + 4 ≤ memorySize) :
    insns.foldlM Image.writeInsn m =
      .ok (m.setWords (insns.map fun i => (i.position, i.encode))) := by
  induction insns generalizing m with
  | nil => rfl
  | cons i insns ih =>
    rw [List.forall_mem_cons] at h
    rw [List.foldlM_cons, m.writeInsn_of_le h.1]
    exact ih _ h.2

theorem fits_of_foldlM_writeInsn {insns : List Insn} {m n : Image}
    (h : insns.foldlM Image.writeInsn m = .ok n) : ∀ i ∈ insns, i.position + 4 ≤ memorySize := by
  induction insns generalizing m with
  | nil => simp
  | cons i insns ih =>
    rw [List.foldlM_cons] at h
    by_cases hf : i.position + 4 ≤ memorySize
    · rw [m.writeInsn_of_le hf] at h
      exact List.forall_mem_cons.2 ⟨hf, ih h⟩
    · rw [m.writeInsn_of_lt (Nat.not_le.1 hf)] at h
      cases h

/-- The instructions with what their symbols add when these have given values. -/
def Assembler.settled (values : String → Int64) (a : Assembler) : List Insn :=
  a.insns.toList.mapIdx fun i insn => insn.settle (totalAmount (a.symbols.contributions values) i)

theorem Assembler.toList_relocate (values : String → Int64) (a : Assembler) :
    (relocate a.insns (a.symbols.contributions values)).toList = a.settled values := by
  refine List.ext_getElem? fun i => ?_
  rw [Array.getElem?_toList, getElem?_relocate, Assembler.settled, List.getElem?_mapIdx,
    Array.getElem?_toList]

theorem Assembler.map_position_settled (values : String → Int64) (a : Assembler) :
    (a.settled values).map Insn.position = a.insns.toList.map Insn.position := by
  refine List.ext_getElem? fun i => ?_
  rw [List.getElem?_map, Assembler.settled, List.getElem?_mapIdx, List.getElem?_map,
    Option.map_map]
  rfl

theorem Assembler.forall_fits_settled (values : String → Int64) (a : Assembler) :
    (∀ i ∈ a.settled values, i.position + 4 ≤ memorySize) ↔
      ∀ i ∈ a.insns.toList, i.position + 4 ≤ memorySize := by
  have fits : ∀ l : List Insn, (∀ i ∈ l, i.position + 4 ≤ memorySize) ↔
      ∀ n ∈ l.map Insn.position, n + 4 ≤ memorySize := fun l => by
    rw [List.forall_mem_map]
  rw [fits, a.map_position_settled, ← fits]

/-- The program of an assembler, the values of its symbols given. -/
theorem Assembler.finish_eq_ok {a : Assembler} {values : String → Int64}
    (hn : a.symbols.names.Nodup) (hv : a.symbols.Agrees values)
    (hr : ∀ s ∈ a.symbols.symbols, s.Resolved)
    (hf : ∀ i ∈ a.insns.toList, i.position + 4 ≤ memorySize) :
    a.finish = .ok ⟨a.image.setWords ((a.settled values).map fun i => (i.position, i.encode)),
      a.symbols, (a.settled values).toArray, a.rows⟩ := by
  have insns : relocate a.insns (a.symbols.contributions values) = (a.settled values).toArray := by
    rw [← a.toList_relocate, Array.toArray_toList]
  have fits : ∀ i ∈ a.settled values, i.position + 4 ≤ memorySize :=
    (a.forall_fits_settled values).2 hf
  rw [Assembler.finish, SymbolTable.relocations_eq_ok hr hn hv]
  dsimp only
  rw [insns, List.toList_toArray, foldlM_writeInsn_eq_ok _ fits]
  rfl

theorem Assembler.symbols_of_finish {a : Assembler} {p : Program} (h : a.finish = .ok p) :
    p.symbols = a.symbols := by
  unfold Assembler.finish at h
  split at h
  · cases h
  next rs _ =>
    dsimp only at h
    cases hw : (relocate a.insns rs).toList.foldlM Image.writeInsn a.image with
    | error e => rw [hw] at h; cases h
    | ok image => rw [hw] at h; cases h; rfl

/-- There is a program exactly if all symbols resolve and all instructions fit. -/
theorem Assembler.exists_finish_iff {a : Assembler} (hn : a.symbols.names.Nodup) :
    (∃ p, a.finish = .ok p) ↔
      (∀ s ∈ a.symbols.symbols, s.Resolved) ∧
        ∀ i ∈ a.insns.toList, i.position + 4 ≤ memorySize := by
  have agrees := a.symbols.agrees_value?
  constructor
  · rintro ⟨p, hp⟩
    have resolved : ∀ s ∈ a.symbols.symbols, s.Resolved := by
      cases hr : a.symbols.relocations with
      | error e => rw [Assembler.finish, hr] at hp; cases hp
      | ok rs => exact a.symbols.resolved_of_relocations hr
    refine ⟨resolved, ?_⟩
    rw [Assembler.finish, SymbolTable.relocations_eq_ok resolved hn agrees] at hp
    dsimp only at hp
    cases hw : (relocate a.insns (a.symbols.contributions _)).toList.foldlM Image.writeInsn
        a.image with
    | error e => rw [hw] at hp; cases hp
    | ok image =>
      have fits := fits_of_foldlM_writeInsn hw
      rw [a.toList_relocate] at fits
      exact (a.forall_fits_settled _).1 fits
  · rintro ⟨hr, hf⟩
    exact ⟨_, Assembler.finish_eq_ok hn agrees hr hf⟩

end Macc
