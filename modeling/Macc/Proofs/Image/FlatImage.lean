import Macc.Image.Flat
import Macc.Proofs.Image.SparseHex

/-!
# Flat images read back

The defined data ends with the aligned word of the last defined byte (`definedEnd_cases`), and there
a trimmed flat image ends.  Loading it into an empty image gives back all bytes of an image that is
zero where nothing is defined (`loadFlat_toFlat_true`).
-/

namespace Macc

namespace Image

/-! ### The end of the defined data -/

theorem definedEndBelow_cases (m : Image) {n : Nat} (hn : n ≤ memorySize) :
    (m.definedEndBelow n = 0 ∧ ∀ x, x.toNat < n → m.isDefined x = false) ∨
      ∃ x, m.isDefined x ∧ m.definedEndBelow n = 4 * (x.toNat / 4 + 1) ∧
        ∀ y, y.toNat < n → m.isDefined y → y.toNat ≤ x.toNat := by
  induction n with
  | zero => exact .inl ⟨rfl, fun x hx => absurd hx (Nat.not_lt_zero _)⟩
  | succ n ih =>
    have last (y : Address) (hy : y.toNat < n + 1) : y.toNat < n ∨ y = .ofNat 17 n := by
      rw [eq_ofNat_iff hn]
      omega
    rw [definedEndBelow]
    split
    next hd =>
      have toNat : (BitVec.ofNat 17 n).toNat = n := (eq_ofNat_iff hn).1 rfl
      refine .inr ⟨.ofNat 17 n, hd, ?_, fun y hy _ => ?_⟩
      · rw [toNat]
      · rw [toNat]
        omega
    next hd =>
      rcases ih (Nat.le_of_succ_le hn) with ⟨h0, none⟩ | ⟨x, hx, h, greatest⟩
      · refine .inl ⟨h0, fun y hy => ?_⟩
        rcases last y hy with hy | rfl
        · exact none y hy
        · exact Bool.eq_false_iff.2 hd
      · refine .inr ⟨x, hx, h, fun y hy hd' => ?_⟩
        rcases last y hy with hy | rfl
        · exact greatest y hy hd'
        · exact absurd hd' hd

/-- The defined data ends with the aligned word of the last defined byte, if there is one. -/
theorem definedEnd_cases (m : Image) :
    (m.definedEnd = 0 ∧ ∀ x, m.isDefined x = false) ∨
      ∃ x, m.isDefined x ∧ m.definedEnd = 4 * (x.toNat / 4 + 1) ∧
        ∀ y, m.isDefined y → y.toNat ≤ x.toNat := by
  rcases m.definedEndBelow_cases (Nat.le_refl _) with ⟨h0, none⟩ | ⟨x, hx, h, greatest⟩
  · exact .inl ⟨h0, fun x => none x x.isLt⟩
  · exact .inr ⟨x, hx, h, fun y => greatest y y.isLt⟩

theorem definedEnd_mod_four (m : Image) : m.definedEnd % 4 = 0 := by
  rcases m.definedEnd_cases with ⟨h, -⟩ | ⟨x, -, h, -⟩
  · rw [h]
  · rw [h, Nat.mul_mod_right]

theorem definedEnd_le (m : Image) : m.definedEnd ≤ memorySize := by
  rcases m.definedEnd_cases with ⟨h, -⟩ | ⟨x, -, h, -⟩
  · omega
  · have := x.isLt
    rw [h, memorySize]
    omega

theorem lt_definedEnd {m : Image} {x : Address} (hx : m.isDefined x) : x.toNat < m.definedEnd := by
  rcases m.definedEnd_cases with ⟨-, none⟩ | ⟨y, -, h, greatest⟩
  · rw [none x] at hx
    cases hx
  · have := greatest x hx
    omega

/-! ### Trimmed flat images -/

theorem length_toFlat_true (m : Image) : (m.toFlat true).length = m.definedEnd := by
  rw [toFlat, if_pos rfl, List.length_take, Vector.length_toList, Nat.min_eq_left m.definedEnd_le]

theorem getElem?_toList_bytes (m : Image) (x : Address) :
    m.bytes.toList[x.toNat]? = some (m.byte x) := by
  rw [List.getElem?_eq_getElem (by simp [x.isLt]), Vector.getElem_toList]
  rfl

theorem getElem?_toFlat_true (m : Image) (x : Address) :
    (m.toFlat true)[x.toNat]? = if x.toNat < m.definedEnd then some (m.byte x) else none := by
  rw [toFlat, if_pos rfl, List.getElem?_take, getElem?_toList_bytes]

theorem getElem?_toFlat_false (m : Image) (x : Address) :
    (m.toFlat false)[x.toNat]? = some (m.byte x) := by
  rw [toFlat, if_neg Bool.false_ne_true, List.getElem?_take_of_lt x.isLt, getElem?_toList_bytes]

/-- What a trimmed flat image leaves out is zero, so loading it brings back all bytes. -/
theorem loadFlat_toFlat_true {m : Image} (h : m.ZeroElsewhere) :
    empty.loadFlat (m.toFlat true) = .ok m.clearDefined := by
  have fits : ¬ (m.toFlat true).length > memorySize := by
    rw [length_toFlat_true]
    exact Nat.not_lt.2 m.definedEnd_le
  obtain ⟨n, hn⟩ : ∃ n, empty.loadFlat (m.toFlat true) = .ok n := by
    rw [loadFlat, if_neg fits]
    exact ⟨_, rfl⟩
  rw [hn]
  congr 1
  refine ext_view (fun x => ?_) fun x => ?_
  · rw [byte_loadFlat hn, byte_empty, getElem?_toFlat_true, byte_clearDefined]
    split
    next => rfl
    next hx => exact (h x (Bool.eq_false_iff.2 fun hd => hx (lt_definedEnd hd))).symm
  · rw [isDefined_loadFlat hn, isDefined_empty, isDefined_clearDefined]

end Image

end Macc
