import Macc.Proofs.Image.Words
import Macc.Proofs.Machine.Frame
import Macc.Proofs.Machine.Reduction
import Mathlib.Algebra.BigOperators.Fin
import Mathlib.Order.Bounds.Basic

/-!
# Reductions of vectors

A reduction works on three vectors of eight signed bytes: data from memory, and coefficients for
both accumulators (`Machine.vectors`).  `Vectors.ReducesTo` says in integers what it comes to: sums
of products that wrap, or the greatest product with a coefficient that is not zero.  Neither depends
on the order of the lanes (`Vectors.ReducesTo.eq_of_permute`), and `Session.exec_macc` says that the
instruction comes to just this.
-/

namespace Macc

/-! ### Vectors -/

/-- Data and the coefficients for both accumulators, lane by lane. -/
structure Vectors where
  data : Fin 8 → Int
  coeff0 : Fin 8 → Int
  coeff1 : Fin 8 → Int

/-- What the accumulators hold as numbers before a reduction. -/
def Seed.values (s : Seed) (acc : Int × Int) : Int × Int :=
  match s with
  | keep => acc
  | zero => (0, 0)
  | min => (-2 ^ 31, 0)

namespace Vectors

/-- The sum of the products with the coefficients for the first accumulator. -/
def sum0 (v : Vectors) : Int := ∑ i, v.coeff0 i * v.data i

/-- The sum of the products with the coefficients for the second accumulator. -/
def sum1 (v : Vectors) : Int := ∑ i, v.coeff1 i * v.data i

/-- The products for the first accumulator whose coefficient is not zero. -/
def products (v : Vectors) : Set Int := {p | ∃ i, v.coeff0 i ≠ 0 ∧ p = v.coeff0 i * v.data i}

/-- The same vectors with their lanes in another order. -/
def permute (π : Equiv.Perm (Fin 8)) (v : Vectors) : Vectors :=
  ⟨v.data ∘ π, v.coeff0 ∘ π, v.coeff1 ∘ π⟩

/-- A reduction that begins with the accumulators `seed` ends with the accumulators `acc`. -/
structure ReducesTo (v : Vectors) (r : Reduce) (seed acc : Int × Int) : Prop where
  sum : ∀ zero, r = .sum zero → acc.1 = (seed.1 + v.sum0).bmod (2 ^ 32)
  max : ∀ s, r = .max s → IsGreatest (insert seed.1 v.products) acc.1
  snd : acc.2 = (seed.2 + v.sum1).bmod (2 ^ 32)

variable (π : Equiv.Perm (Fin 8)) (v : Vectors)

theorem sum0_permute : (v.permute π).sum0 = v.sum0 :=
  Equiv.sum_comp π fun i => v.coeff0 i * v.data i

theorem sum1_permute : (v.permute π).sum1 = v.sum1 :=
  Equiv.sum_comp π fun i => v.coeff1 i * v.data i

theorem products_permute : (v.permute π).products = v.products := by
  ext p
  exact π.exists_congr_left.trans (by simp [products, permute])

variable {π v} {r : Reduce} {seed acc acc' : Int × Int}

/-- The result does not depend on the order of the lanes. -/
theorem ReducesTo.eq_of_permute (h : v.ReducesTo r seed acc)
    (h' : (v.permute π).ReducesTo r seed acc') : acc' = acc := by
  refine Prod.ext ?_ ?_
  · cases r with
    | sum zero => rw [h.sum zero rfl, h'.sum zero rfl, sum0_permute]
    | max s =>
      have greatest := h'.max s rfl
      rw [products_permute] at greatest
      exact greatest.unique (h.max s rfl)
  · rw [h.snd, h'.snd, sum1_permute]

end Vectors

/-! ### Folds -/

theorem toInt_add_ofInt (a : Word) (x : Int) :
    (a + .ofInt 32 x).toInt = (a.toInt + x).bmod (2 ^ 32) := by
  rw [BitVec.toInt_add, BitVec.toInt_ofInt, Int.add_bmod_bmod]

theorem bmod_of_natAbs_le {x : Int} (h : x.natAbs ≤ 2 ^ 17) : (0 + x).bmod (2 ^ 32) = x := by
  rw [Int.zero_add]
  exact Int.bmod_eq_of_le (by omega) (by omega)

theorem toInt_signedMax (a b : Word) : (signedMax a b).toInt = max a.toInt b.toInt := by
  rw [signedMax, BitVec.slt_eq_decide]
  by_cases h : a.toInt < b.toInt
  · simp [h, Int.max_eq_right (Int.le_of_lt h)]
  · simp [h, Int.max_eq_left (Int.not_lt.1 h)]

theorem isGreatest_insert_insert {S : Set Int} {a p r : Int}
    (h : IsGreatest (insert (max a p) S) r) : IsGreatest (insert a (insert p S)) r := by
  obtain ⟨reached, bound⟩ := h
  constructor
  · rcases reached with rfl | member
    · rcases max_choice a p with hmax | hmax <;> rw [hmax]
      · exact .inl rfl
      · exact .inr (.inl rfl)
    · exact .inr (.inr member)
  · simpa only [upperBounds_insert, Set.mem_inter_iff, Set.mem_Ici, max_le_iff, and_assoc]
      using bound

/-- The products of some lanes whose coefficient is not zero. -/
def productsOf (coeff data : Nat → Int) (lanes : List Nat) : Set Int :=
  {p | ∃ i ∈ lanes, coeff i ≠ 0 ∧ p = coeff i * data i}

variable {coeff data : Nat → Int} {i : Nat}

theorem productsOf_cons_of_eq (h : coeff i = 0) (lanes : List Nat) :
    productsOf coeff data (i :: lanes) = productsOf coeff data lanes := by
  ext p
  simp [productsOf, h]

theorem productsOf_cons_of_ne (h : coeff i ≠ 0) (lanes : List Nat) :
    productsOf coeff data (i :: lanes) =
      insert (coeff i * data i) (productsOf coeff data lanes) := by
  ext p
  simp [productsOf, h]

/-- An accumulator that takes the maximum ends with the greatest of what it held and of the products
whose coefficient is not zero. -/
theorem isGreatest_foldl_max (s : Seed) (lanes : List Nat)
    (small : ∀ i, (BitVec.ofInt 32 (coeff i * data i)).toInt = coeff i * data i) (acc : Word) :
    IsGreatest (insert acc.toInt (productsOf coeff data lanes))
      (lanes.foldl (fun a i => (Reduce.max s).apply a (coeff i) (data i)) acc).toInt := by
  induction lanes generalizing acc with
  | nil => simp [productsOf]
  | cons i lanes ih =>
    rw [List.foldl_cons]
    by_cases zero : coeff i = 0
    · rw [productsOf_cons_of_eq zero, Reduce.apply, if_pos zero]
      exact ih acc
    · rw [productsOf_cons_of_ne zero, Reduce.apply, if_neg zero]
      have rest := ih (signedMax acc (.ofInt 32 (coeff i * data i)))
      rw [toInt_signedMax, small] at rest
      exact isGreatest_insert_insert rest

/-! ### Lanes of double words -/

/-- The lanes of three double words. -/
def Vectors.ofDwords (data coeff0 coeff1 : Dword) : Vectors :=
  ⟨fun i => laneByte data i, fun i => laneByte coeff0 i, fun i => laneByte coeff1 i⟩

theorem sum_laneByte (v w : Dword) :
    ∑ i : Fin 8, laneByte v i * laneByte w i = innerProduct v w := by
  rw [innerProduct, Fin.sum_univ_def, ← List.map_coe_finRange_eq_range, List.map_map]
  rfl

theorem productsOf_laneByte (data coeff0 coeff1 : Dword) :
    productsOf (laneByte coeff0) (laneByte data) (List.range 8) =
      (Vectors.ofDwords data coeff0 coeff1).products := by
  ext p
  simp only [productsOf, Vectors.products, Vectors.ofDwords, List.mem_range, Set.mem_ofPred_eq,
    Fin.exists_iff, exists_prop]

theorem toInt_product (v w : Dword) (i : Nat) :
    (BitVec.ofInt 32 (laneByte v i * laneByte w i)).toInt = laneByte v i * laneByte w i := by
  have bound : (laneByte v i * laneByte w i).natAbs ≤ 128 * 128 := by
    rw [Int.natAbs_mul]
    exact Nat.mul_le_mul (natAbs_laneByte_le v i) (natAbs_laneByte_le w i)
  exact BitVec.toInt_ofInt_eq_self (by decide) (by omega) (by omega)

/-- Signed numbers in both accumulators. -/
def toInts (acc : Word × Word) : Int × Int := (acc.1.toInt, acc.2.toInt)

theorem Seed.toInts_apply (s : Seed) (acc : Word × Word) :
    toInts (s.apply acc) = s.values (toInts acc) := by
  cases s <;> rfl

/-- A reduction of double words reduces their lanes. -/
theorem Reduce.reducesTo_fold (r : Reduce) (acc : Word × Word) (data coeff0 coeff1 : Dword) :
    (Vectors.ofDwords data coeff0 coeff1).ReducesTo r (toInts acc)
      (toInts (r.fold acc data coeff0 coeff1)) where
  sum zero h := by
    subst h
    rw [fold_sum]
    exact (toInt_add_ofInt _ _).trans (by rw [← sum_laneByte]; rfl)
  max s h := by
    subst h
    rw [← productsOf_laneByte]
    exact isGreatest_foldl_max s _ (toInt_product coeff0 data) acc.1
  snd := by
    have sum : (r.fold acc data coeff0 coeff1).2 = acc.2 + .ofInt 32 (innerProduct coeff1 data) :=
      foldl_add_ofInt (fun i => laneByte coeff1 i * laneByte data i) _ _
    rw [toInts, sum, toInt_add_ofInt, ← sum_laneByte]
    rfl

/-! ### Vectors in memory -/

theorem map_laneByte_dword (m : Image) (a : Address) :
    (List.range 8).map (laneByte (m.dword a)) =
      (List.range 8).map fun i => (m.byte (a + .ofNat 17 i)).toInt := by
  have first : (m.byte (a + .ofNat 17 0)).toInt = (m.byte a).toInt := by rw [BitVec.add_zero]
  rw [Image.dword, map_laneByte_append, Image.word, Image.word, Image.wordBytes_append,
    Image.wordBytes_append, List.range_succ_eq_map, List.map_cons, first]
  simp only [BitVec.add_assoc]
  rfl

theorem laneByte_dword (m : Image) (a : Address) (i : Fin 8) :
    laneByte (m.dword a) i = (m.byte (a + .ofNat 17 i)).toInt :=
  List.map_inj_left.1 (map_laneByte_dword m a) i (List.mem_range.2 i.isLt)

namespace Machine

/-- The vectors of a reduction: data from behind the vector base register, and coefficients from the
same entry of both caches. -/
def vectors (m : Machine) (addr slot : Word) : Vectors :=
  let ea := m.vbp + addr.setWidth 17
  let ci := m.cbp + slot.setWidth 9
  ⟨fun i => (m.mem.byte (ea + .ofNat 17 i)).toInt, fun i => laneByte (m.coeff0.get ci.toFin) i,
    fun i => laneByte (m.coeff1.get ci.toFin) i⟩

variable (m : Machine) (reduce : Reduce) (addr slot : Word)

theorem vectors_eq : m.vectors addr slot =
    .ofDwords (m.mem.dword (m.vbp + addr.setWidth 17))
      (m.coeff0.get (m.cbp + slot.setWidth 9).toFin)
      (m.coeff1.get (m.cbp + slot.setWidth 9).toFin) := by
  rw [Vectors.ofDwords, funext (laneByte_dword m.mem _)]
  rfl

/-- Eight products of signed bytes are far from the bounds of an accumulator. -/
theorem natAbs_sums_vectors_le :
    (m.vectors addr slot).sum0.natAbs ≤ 2 ^ 17 ∧ (m.vectors addr slot).sum1.natAbs ≤ 2 ^ 17 := by
  have small (v w : Dword) :
      (∑ i : Fin 8, laneByte v i * laneByte w i).natAbs ≤ 2 ^ 17 := by
    rw [sum_laneByte]
    exact natAbs_innerProduct_le v w
  rw [vectors_eq]
  exact ⟨small _ _, small _ _⟩

/-- A reduction from an even address changes the accumulators only, and reduces its vectors. -/
theorem exists_apply_reduction (even : Even (m.vbp + addr.setWidth 17).toNat) :
    ∃ acc effect,
      m.apply (.macc reduce addr slot) = ({ m with acc0 := acc.1, acc1 := acc.2 }, .ok effect) ∧
        (m.vectors addr slot).ReducesTo reduce (reduce.seed.values (toInts (m.acc0, m.acc1)))
          (toInts acc) := by
  have notOdd : ¬ (m.vbp + addr.setWidth 17).getLsbD 0 := by
    rw [getLsbD_zero_iff, Nat.not_odd_iff_even]
    exact even
  rw [vectors_eq, ← Seed.toInts_apply]
  dsimp only [apply]
  rw [if_neg notOdd]
  exact ⟨_, _, rfl, reduce.reducesTo_fold _ _ _ _⟩

theorem apply_macc_of_odd (odd : Odd (m.vbp + addr.setWidth 17).toNat) :
    m.apply (.macc reduce addr slot) =
      (m, .error (.misaligned .vector (m.vbp + addr.setWidth 17).toNat)) :=
  if_pos ((getLsbD_zero_iff _).2 odd)

end Machine

/-! ### Sessions -/

namespace Session

theorem exists_exec_reduction (s : Session) (reduce : Reduce) (addr slot : Word)
    (even : Even (s.machine.vbp + addr.setWidth 17).toNat) :
    ∃ acc : Word × Word,
      (s.exec (.macc reduce addr slot)).1.machine =
        { s.machine with acc0 := acc.1, acc1 := acc.2 } ∧
      (∀ f, (s.exec (.macc reduce addr slot)).2 = .error f → f = .trace) ∧
      (s.machine.vectors addr slot).ReducesTo reduce
        (reduce.seed.values (toInts (s.machine.acc0, s.machine.acc1))) (toInts acc) := by
  obtain ⟨acc, effect, applied, reduces⟩ := s.machine.exists_apply_reduction reduce addr slot even
  exact ⟨acc, by rw [machine_exec, applied], fun f => eq_trace_of_exec applied, reduces⟩

/-- A reduction from an odd address faults before anything but the cycle is counted.  From an even
address it fails at most for its trace line, changes the accumulators only, and reduces its vectors.
Sums that begin at zero are exact.  So vectors whose lanes are in another order, in whatever machine
with the same accumulators, reduce to the same. -/
theorem exec_macc (s : Session) (reduce : Reduce) (addr slot : Word) :
    let m := s.machine
    let ea := m.vbp + addr.setWidth 17
    let v := m.vectors addr slot
    let x := s.exec (.macc reduce addr slot)
    let n := x.1.machine
    (Odd ea.toNat → x = (s.addCycles 1, .error (.misaligned .vector ea.toNat))) ∧
    (Even ea.toNat →
      (∀ f, x.2 = .error f → f = .trace) ∧
      n = { m with acc0 := n.acc0, acc1 := n.acc1 } ∧
      v.ReducesTo reduce (reduce.seed.values (toInts (m.acc0, m.acc1))) (toInts (n.acc0, n.acc1)) ∧
      (reduce = .sum true → n.acc0.toInt = v.sum0 ∧ v.sum0.natAbs ≤ 2 ^ 17) ∧
      (reduce.seed ≠ .keep → n.acc1.toInt = v.sum1 ∧ v.sum1.natAbs ≤ 2 ^ 17) ∧
      ∀ (t : Session) (addr' slot' : Word) (π : Equiv.Perm (Fin 8)),
        Even (t.machine.vbp + addr'.setWidth 17).toNat →
        t.machine.acc0 = m.acc0 → t.machine.acc1 = m.acc1 →
        t.machine.vectors addr' slot' = v.permute π →
        let k := (t.exec (.macc reduce addr' slot')).1.machine
        k.acc0 = n.acc0 ∧ k.acc1 = n.acc1) := by
  dsimp only
  refine ⟨fun odd => exec_of_apply_eq_error
    (congrArg Prod.snd (s.machine.apply_macc_of_odd reduce addr slot odd)), fun even => ?_⟩
  obtain ⟨acc, machine, onlyTrace, reduces⟩ := s.exists_exec_reduction reduce addr slot even
  obtain ⟨small0, small1⟩ := s.machine.natAbs_sums_vectors_le addr slot
  rw [machine]
  refine ⟨onlyTrace, rfl, reduces, ?_, fun unkept => ⟨?_, small1⟩, ?_⟩
  · rintro rfl
    exact ⟨(reduces.sum true rfl).trans (bmod_of_natAbs_le small0), small0⟩
  · have zero : (reduce.seed.values (toInts (s.machine.acc0, s.machine.acc1))).2 = 0 := by
      cases hs : reduce.seed with
      | keep => exact absurd hs unkept
      | _ => rfl
    have snd := reduces.snd
    rw [zero] at snd
    exact snd.trans (bmod_of_natAbs_le small1)
  · intro t addr' slot' π even' same0 same1 permuted
    obtain ⟨acc', machine', -, reduces'⟩ := t.exists_exec_reduction reduce addr' slot' even'
    rw [permuted, same0, same1] at reduces'
    have same := reduces.eq_of_permute reduces'
    rw [machine']
    exact ⟨BitVec.eq_of_toInt_eq (congrArg Prod.fst same),
      BitVec.eq_of_toInt_eq (congrArg Prod.snd same)⟩

/-- A machine with data on both sides of the end of memory, and coefficients in the entry behind the
last, which is the first. -/
def dataAcrossTheEnd : Session where
  machine :=
    { vbp := 0x1fffe
      cbp := 1
      acc0 := 0x7fffffff
      coeff0 := (Vector.replicate cacheSize 0).setIfInBounds 0 0x800000
      coeff1 := (Vector.replicate cacheSize 0).setIfInBounds 0 0xff7f0000
      mem := (Image.empty.setByte 0 0x80).setByte 1 0x7f }

theorem vectors_dataAcrossTheEnd :
    dataAcrossTheEnd.machine.vectors 0 0x1ff = ⟨![0, 0, -128, 127, 0, 0, 0, 0],
      ![0, 0, -128, 0, 0, 0, 0, 0], ![0, 0, 127, -1, 0, 0, 0, 0]⟩ := by
  have data (i : Fin 8) : (((Image.empty.setByte 0 0x80).setByte 1 0x7f).byte
      (0x1fffe + .ofNat 17 i)).toInt = (![0, 0, -128, 127, 0, 0, 0, 0] : Fin 8 → Int) i := by
    rw [Image.byte_setByte, Image.byte_setByte, Image.byte_empty]
    revert i
    decide
  have coeff0 : ∀ i : Fin 8,
    laneByte (dataAcrossTheEnd.machine.coeff0.get ((1 : Slot) + 0x1ff).toFin) i =
      (![0, 0, -128, 0, 0, 0, 0, 0] : Fin 8 → Int) i := by decide +kernel
  have coeff1 : ∀ i : Fin 8,
    laneByte (dataAcrossTheEnd.machine.coeff1.get ((1 : Slot) + 0x1ff).toFin) i =
      (![0, 0, 127, -1, 0, 0, 0, 0] : Fin 8 → Int) i := by decide +kernel
  rw [← funext data, ← funext coeff0, ← funext coeff1]
  rfl

theorem exec_macc_dataAcrossTheEnd :
    let n := (dataAcrossTheEnd.exec (.macc (.max .min) 0 0x1ff)).1.machine
    n.acc0.toInt = 16384 ∧ n.acc1.toInt = -16383 ∧
      dataAcrossTheEnd.exec (.macc (.sum true) 1 0) =
        (dataAcrossTheEnd.addCycles 1, .error (.misaligned .vector 0x1ffff)) := by
  have odd := (exec_macc dataAcrossTheEnd (.sum true) 1 0).1 (Nat.odd_iff.2 rfl)
  obtain ⟨-, -, reduces, -, exact1, -⟩ :=
    (exec_macc dataAcrossTheEnd (.max .min) 0 0x1ff).2 (Nat.even_iff.2 rfl)
  have greatest := reduces.max .min rfl
  have second := (exact1 nofun).1
  rw [vectors_dataAcrossTheEnd] at greatest second
  have product : IsGreatest (insert (-2 ^ 31) (Vectors.products ⟨![0, 0, -128, 127, 0, 0, 0, 0],
      ![0, 0, -128, 0, 0, 0, 0, 0], ![0, 0, 127, -1, 0, 0, 0, 0]⟩)) 16384 := by
    refine ⟨.inr ⟨2, by decide, by decide⟩, ?_⟩
    rintro p (rfl | ⟨i, nonzero, rfl⟩)
    · decide
    · revert i
      decide
  dsimp only [toInts] at greatest
  exact ⟨greatest.unique product, second.trans (by decide), odd⟩

end Session

end Macc
