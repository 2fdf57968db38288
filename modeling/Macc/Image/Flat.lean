import Macc.Image.Basic

/-!
# Flat images

A flat image is the plain list of the bytes from address zero on.  `toFlat` writes one, whole or cut
behind the last defined word; `loadFlat` puts one over the start of memory and marks nothing
defined.
-/

namespace Macc

namespace Image

/-- The bytes of memory in order; with `trim`, only up to the end of the defined data. -/
def toFlat (m : Image) (trim : Bool) : List Byte :=
  m.bytes.toList.take (if trim then m.definedEnd else memorySize)

/-- Put data over the start of memory.  Bytes behind the data and the mask stay. -/
def loadFlat (m : Image) (data : List Byte) : Except ImageError Image :=
  if data.length > memorySize then .error (.tooLarge data.length)
  else
    let data := data.toArray
    .ok ⟨Vector.ofFn fun i => data.getD i m.bytes[i], m.mask⟩

theorem byte_loadFlat {m n : Image} {data : List Byte} (h : m.loadFlat data = .ok n)
    (a : Address) : n.byte a = data[a.toNat]?.getD (m.byte a) := by
  unfold loadFlat at h
  split at h
  · cases h
  · obtain rfl := Except.ok.inj h
    simp [byte]

theorem isDefined_loadFlat {m n : Image} {data : List Byte} (h : m.loadFlat data = .ok n)
    (a : Address) : n.isDefined a = m.isDefined a := by
  unfold loadFlat at h
  split at h
  · cases h
  · obtain rfl := Except.ok.inj h
    simp only [isDefined]

theorem length_toFlat_false (m : Image) : (m.toFlat false).length = memorySize := by
  simp [toFlat]

end Image

end Macc
