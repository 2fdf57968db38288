import Mathlib.Algebra.Ring.Int.Defs
import Macc.Machine.Datapath

/-!
# Sums of products

The lanes of a double word are its bytes as signed numbers (`map_laneByte_append`), and a summing
reduction adds the inner product of the lanes to an accumulator (`Reduce.fold_sum`).  Eight products
of bytes are far from the bounds of an accumulator, which holds their sum as it is
(`toInt_innerProduct`).  Stored as a byte it is clamped (`toInt_saturate`).
-/

namespace Macc

/-! ### Lanes -/

theorem map_laneByte_append (hi lo : Word) :
    (List.range 8).map (laneByte (hi ++ lo)) = (wordBytes lo ++ wordBytes hi).map BitVec.toInt := by
  have low (start : Nat) (h : start + 8 ≤ 32) :
      (hi ++ lo).extractLsb' start 8 = lo.extractLsb' start 8 :=
    BitVec.extractLsb'_append_eq_of_add_le h
  have high (start : Nat) (h : 32 ≤ start) :
      (hi ++ lo).extractLsb' start 8 = hi.extractLsb' (start - 32) 8 :=
    BitVec.extractLsb'_append_eq_of_le h
  change [laneByte _ 0, laneByte _ 1, laneByte _ 2, laneByte _ 3, laneByte _ 4, laneByte _ 5,
    laneByte _ 6, laneByte _ 7] = _
  simp only [laneByte]
  rw [low _ (by decide), low _ (by decide), low _ (by decide), low _ (by decide),
    high _ (by decide), high _ (by decide), high _ (by decide), high _ (by decide)]
  rfl

/-! ### Inner products -/

/-- The sum of the products of the lanes. -/
def innerProduct (v w : Dword) : Int :=
  ((List.range 8).map fun i => laneByte v i * laneByte w i).sum

theorem innerProduct_of_lanes {v w : Dword} {cs ds : List Byte}
    (hv : (List.range 8).map (laneByte v) = cs.map BitVec.toInt)
    (hw : (List.range 8).map (laneByte w) = ds.map BitVec.toInt) :
    innerProduct v w = (List.zipWith (fun c d => c.toInt * d.toInt) cs ds).sum := by
  have products : (List.range 8).map (fun i => laneByte v i * laneByte w i) =
      List.zipWith (· * ·) ((List.range 8).map (laneByte v)) ((List.range 8).map (laneByte w)) := by
    rw [List.zipWith_map, List.zipWith_self]
  rw [innerProduct, products, hv, hw, List.zipWith_map]

theorem natAbs_sum_le {l : List Int} {b : Nat} (h : ∀ x ∈ l, x.natAbs ≤ b) :
    l.sum.natAbs ≤ l.length * b := by
  induction l with
  | nil => exact Nat.zero_le _
  | cons x xs ih =>
    rw [List.forall_mem_cons] at h
    have rest := ih h.2
    rw [List.sum_cons, List.length_cons, Nat.succ_mul]
    omega

theorem natAbs_laneByte_le (v : Dword) (i : Nat) : (laneByte v i).natAbs ≤ 128 := by
  have ge := (v.extractLsb' (8 * i) 8).le_toInt
  have lt := (v.extractLsb' (8 * i) 8).toInt_lt
  rw [laneByte]
  omega

theorem natAbs_innerProduct_le (v w : Dword) : (innerProduct v w).natAbs ≤ 8 * (128 * 128) := by
  have product : ∀ x ∈ (List.range 8).map fun i => laneByte v i * laneByte w i,
      x.natAbs ≤ 128 * 128 := by
    intro x hx
    obtain ⟨i, -, rfl⟩ := List.mem_map.1 hx
    rw [Int.natAbs_mul]
    exact Nat.mul_le_mul (natAbs_laneByte_le v i) (natAbs_laneByte_le w i)
  have le := natAbs_sum_le product
  rwa [List.length_map, List.length_range] at le

/-- An accumulator holds an inner product as it is. -/
theorem toInt_innerProduct (v w : Dword) :
    (BitVec.ofInt 32 (innerProduct v w)).toInt = innerProduct v w := by
  have := natAbs_innerProduct_le v w
  exact BitVec.toInt_ofInt_eq_self (by decide) (by omega) (by omega)

theorem innerProduct_zero (w : Dword) : innerProduct 0 w = 0 := by
  have zero (i : Nat) : laneByte 0 i = 0 := by simp [laneByte]
  simp only [innerProduct, zero, Int.zero_mul]
  rfl

/-! ### Reductions -/

theorem foldl_add_ofInt (f : Nat → Int) (lanes : List Nat) (acc : Word) :
    lanes.foldl (fun a i => a + BitVec.ofInt 32 (f i)) acc =
      acc + BitVec.ofInt 32 (lanes.map f).sum := by
  induction lanes generalizing acc with
  | nil => simp
  | cons i lanes ih =>
    rw [List.foldl_cons, ih, List.map_cons, List.sum_cons, BitVec.ofInt_add, BitVec.add_assoc]

theorem Reduce.fold_sum (zero : Bool) (acc : Word × Word) (data coeff0 coeff1 : Dword) :
    (Reduce.sum zero).fold acc data coeff0 coeff1 =
      (acc.1 + .ofInt 32 (innerProduct coeff0 data),
        acc.2 + .ofInt 32 (innerProduct coeff1 data)) :=
  Prod.ext (foldl_add_ofInt (fun i => laneByte coeff0 i * laneByte data i) _ _)
    (foldl_add_ofInt (fun i => laneByte coeff1 i * laneByte data i) _ _)

theorem toInt_saturate (relu : Bool) (shift : Nat) (acc : Word) :
    (saturate relu shift acc).toInt =
      max (if relu then 0 else -128) (min 127 (acc.sshiftRight shift).toInt) := by
  unfold saturate
  apply BitVec.toInt_ofInt_eq_self (by decide) <;> split <;> omega

/-! ### Instructions -/

namespace Machine

variable (m : Machine) {addr : Word} {ea : Address}

/-- A sum of products that keeps the accumulators, from an address that is not odd. -/
theorem exists_apply_macc {slot : Word} {entry : Slot} (hea : m.vbp + addr.setWidth 17 = ea)
    (even : ea.getLsbD 0 = false) (hentry : m.cbp + slot.setWidth 9 = entry) :
    ∃ effect, m.apply (.macc (.sum false) addr slot) =
      ({ m with
        acc0 := m.acc0 + .ofInt 32 (innerProduct m.coeff0[entry.toFin] (m.mem.dword ea))
        acc1 := m.acc1 + .ofInt 32 (innerProduct m.coeff1[entry.toFin] (m.mem.dword ea)) },
        .ok effect) := by
  subst hea hentry
  dsimp only [apply]
  rw [even, if_neg Bool.false_ne_true, Reduce.fold_sum]
  exact ⟨_, rfl⟩

/-- A store of both accumulators with a shift that an accumulator has room for. -/
theorem exists_apply_store {shift : Word} (hea : m.sbp + addr.setWidth 17 = ea)
    (small : shift.toNat < 32) (relu : Bool) :
    ∃ effect, m.apply (.store .both relu addr shift) =
      ({ m with
        mem := (m.mem.setByte ea (saturate relu shift.toNat m.acc0)).setByte (ea + 1)
          (saturate relu shift.toNat m.acc1) }, .ok effect) := by
  subst hea
  dsimp only [apply]
  rw [if_neg (Nat.not_le.2 small)]
  exact ⟨_, rfl⟩

end Machine

end Macc
