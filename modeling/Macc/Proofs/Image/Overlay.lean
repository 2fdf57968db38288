import Macc.Proofs.Image.SparseHex

/-!
# Images on top of one another

`Image.overlay` puts the defined bytes of one image on top of another.  When an image differs from
another only in bytes that it marks (`Image.Records`), its listing has all that is needed to get it
back from the other (`Image.map_overlay_ofHex`).
-/

namespace Macc

namespace Image

/-! ### Overlays -/

/-- The image `m` with the defined bytes of `n` on top. -/
def overlay (m n : Image) : Image :=
  ⟨.ofFn fun i => if n.isDefined (.ofFin i) then n.byte (.ofFin i) else m.byte (.ofFin i),
    .ofFn fun i => n.isDefined (.ofFin i) || m.isDefined (.ofFin i)⟩

theorem byte_overlay (m n : Image) (x : Address) :
    (m.overlay n).byte x = if n.isDefined x then n.byte x else m.byte x :=
  Vector.getElem_ofFn x.isLt

theorem isDefined_overlay (m n : Image) (x : Address) :
    (m.overlay n).isDefined x = (n.isDefined x || m.isDefined x) :=
  Vector.getElem_ofFn x.isLt

/-! ### Records of what was written -/

/-- What is defined in `m` is defined in `n`, and what is not defined in `n` is as in `m`. -/
structure Records (m n : Image) : Prop where
  isDefined : ∀ x, m.isDefined x → n.isDefined x
  byte : ∀ x, n.isDefined x = false → n.byte x = m.byte x

theorem Records.refl (m : Image) : m.Records m := ⟨fun _ => id, fun _ _ => rfl⟩

theorem Records.trans {m n k : Image} (h : m.Records n) (h' : n.Records k) : m.Records k where
  isDefined x hx := h'.isDefined x (h.isDefined x hx)
  byte x hx := by
    have before : n.isDefined x = false := Bool.eq_false_iff.2 fun hn =>
      Bool.eq_false_iff.1 hx (h'.isDefined x hn)
    rw [h'.byte x hx, h.byte x before]

theorem records_setByte (m : Image) (a : Address) (v : Byte) : m.Records (m.setByte a v) where
  isDefined x hx := by
    rw [isDefined_setByte]
    exact .inr hx
  byte x hx := by
    rw [Bool.eq_false_iff, Ne, isDefined_setByte, not_or] at hx
    rw [byte_setByte, if_neg hx.1]

theorem records_write (m : Image) (a : Address) (bs : List Byte) : m.Records (m.write a bs) := by
  induction bs generalizing m a with
  | nil => exact .refl m
  | cons b bs ih => exact (m.records_setByte a b).trans (ih _ _)

theorem records_setWord (m : Image) (a : Address) (v : Word) : m.Records (m.setWord a v) :=
  m.records_write a (wordBytes v)

/-- The listing of the defined bytes is a complete record. -/
theorem map_overlay_ofHex {m n : Image} (h : m.Records n) :
    (ofHex (n.toHex .bytes)).map m.overlay = .ok n := by
  obtain ⟨listed, hlisted, defined, bytes⟩ := n.exists_ofHex_toHex .bytes
  simp only [lists_bytes] at defined bytes
  rw [hlisted]
  refine congrArg Except.ok (ext_view (fun x => ?_) fun x => ?_)
  · rw [byte_overlay, defined, bytes]
    cases hx : n.isDefined x with
    | true => rfl
    | false => exact (h.byte x hx).symm
  · rw [isDefined_overlay, defined]
    cases hx : n.isDefined x with
    | true => rfl
    | false => exact Bool.eq_false_iff.2 fun hm => Bool.eq_false_iff.1 hx (h.isDefined x hm)

end Image

end Macc
