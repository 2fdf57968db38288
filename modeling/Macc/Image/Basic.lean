import Macc.Instruction.Encoding
import Macc.Text.Numeral

/-!
# Memory images

An `Image` is the contents of main memory: 128 KiB of bytes and a mask of the bytes that carry
defined data.  Zero is valid data, so the mask never follows from the bytes.

`byte` and `isDefined` view an image address by address, and two images with equal views are equal
(`ext_view`).  `setByte`, `write` and `setWord` change bytes and mark them defined; addresses wrap
around at the end of memory.  `writeWord` refuses to wrap: it copies a slice.  `word` and `dword`
read little-endian values.
-/

namespace Macc

abbrev Byte := BitVec 8

abbrev Dword := BitVec 64

/-- The bytes of a word, lowest first. -/
def wordBytes (v : Word) : List Byte :=
  [v.extractLsb' 0 8, v.extractLsb' 8 8, v.extractLsb' 16 8, v.extractLsb' 24 8]

theorem length_wordBytes (v : Word) : (wordBytes v).length = 4 := rfl

/-- The size of main memory in bytes. -/
abbrev memorySize : Nat := 0x20000

/-- The contents of main memory with the mask of defined bytes. -/
structure Image where
  bytes : Vector Byte memorySize
  mask : Vector Bool memorySize

/-- The reasons why an image cannot be built. -/
inductive ImageError
  /-- Data would lie at or behind the end of memory. -/
  | outOfRange (addr : Nat)
  /-- A flat image is longer than memory. -/
  | tooLarge (length : Nat)
  /-- A line of sparse hex text is malformed. -/
  | hexSyntax (line : Nat) (text : String)
  /-- The end of the data has no address of 64 bits.  Nothing is told then: the program stops. -/
  | overflow
  deriving DecidableEq, Repr

/-- The text of the error. -/
def ImageError.message : ImageError → String
  | outOfRange addr => s!"Address 0x{Text.hex 0 addr} is outside of the image"
  | tooLarge length => s!"Image of {length} bytes does not fit into the 128 KiB image"
  | hexSyntax line text => s!"Hex syntax error in line {line}: `{text}`"
  | overflow => "attempt to add with overflow"

namespace Image

/-- Zeros everywhere, nothing defined. -/
def empty : Image := ⟨Vector.replicate memorySize 0, Vector.replicate memorySize false⟩

/-! ### View by address -/

/-- The byte at an address. -/
def byte (m : Image) (a : Address) : Byte := m.bytes[a.toFin]

/-- The byte at an address carries defined data. -/
def isDefined (m : Image) (a : Address) : Bool := m.mask[a.toFin]

theorem byte_empty (a : Address) : empty.byte a = 0 := by
  simp [byte, empty]

theorem isDefined_empty (a : Address) : empty.isDefined a = false := by
  simp [isDefined, empty]

/-- Images that agree at every address are equal. -/
theorem ext_view {m n : Image} (hb : ∀ a, m.byte a = n.byte a)
    (hd : ∀ a, m.isDefined a = n.isDefined a) : m = n := by
  obtain ⟨mb, mk⟩ := m
  obtain ⟨nb, nk⟩ := n
  rw [Image.mk.injEq]
  exact ⟨Vector.ext fun i hi => hb (BitVec.ofFin ⟨i, hi⟩),
    Vector.ext fun i hi => hd (BitVec.ofFin ⟨i, hi⟩)⟩

/-! ### Writing -/

/-- Put a byte at an address and mark it defined. -/
def setByte (m : Image) (a : Address) (v : Byte) : Image :=
  ⟨m.bytes.set a.toNat v a.isLt, m.mask.set a.toNat true a.isLt⟩

theorem byte_setByte (m : Image) (a x : Address) (v : Byte) :
    (m.setByte a v).byte x = if x = a then v else m.byte x := by
  simp only [byte, setByte, Fin.getElem_fin, BitVec.val_toFin, Vector.getElem_set,
    BitVec.toNat_inj, eq_comm]

theorem isDefined_setByte (m : Image) (a x : Address) (v : Byte) :
    (m.setByte a v).isDefined x = (x = a ∨ m.isDefined x) := by
  simp only [isDefined, setByte, Fin.getElem_fin, BitVec.val_toFin, Vector.getElem_set,
    BitVec.toNat_inj, eq_comm]
  by_cases h : a = x <;> simp [h]

/-- Put consecutive bytes from an address on and mark them defined. -/
def write (m : Image) (a : Address) : List Byte → Image
  | [] => m
  | b :: bs => (m.setByte a b).write (a + 1) bs

theorem toNat_sub_succ_self (a : Address) : (a - (a + 1)).toNat = memorySize - 1 := by
  have := a.isLt
  rw [BitVec.toNat_sub, BitVec.toNat_add, show (1 : Address).toNat = 1 from rfl, memorySize]
  omega

theorem toNat_sub_of_ne {a x : Address} (h : x ≠ a) : (x - a).toNat = (x - (a + 1)).toNat + 1 := by
  bv_omega

theorem byte_write (m : Image) (a x : Address) {bs : List Byte} (h : bs.length ≤ memorySize) :
    (m.write a bs).byte x = bs[(x - a).toNat]?.getD (m.byte x) := by
  induction bs generalizing m a with
  | nil => rfl
  | cons b bs ih =>
    rw [List.length_cons] at h
    rw [write, ih _ _ (by omega), byte_setByte]
    by_cases hx : x = a
    · have : bs.length ≤ (a - (a + 1)).toNat := by rw [toNat_sub_succ_self]; omega
      subst hx
      rw [List.getElem?_eq_none this, if_pos rfl, BitVec.sub_self]
      rfl
    · rw [toNat_sub_of_ne hx, List.getElem?_cons_succ, if_neg hx]

theorem isDefined_write (m : Image) (a x : Address) {bs : List Byte}
    (h : bs.length ≤ memorySize) :
    (m.write a bs).isDefined x = ((x - a).toNat < bs.length ∨ m.isDefined x) := by
  induction bs generalizing m a with
  | nil => simp [write]
  | cons b bs ih =>
    rw [List.length_cons] at h ⊢
    rw [write, ih _ _ (by omega), isDefined_setByte, ← or_assoc]
    by_cases hx : x = a
    · simp [hx]
    · rw [toNat_sub_of_ne hx]
      simp [hx]

/-- Put a word at an address, lowest byte first, and mark it defined. -/
def setWord (m : Image) (a : Address) (v : Word) : Image := m.write a (wordBytes v)

/-- Copy a list over the entries of a vector from an index on. -/
def copyFrom {α : Type} {n : Nat} (xs : Vector α n) (i : Nat) :
    (ys : List α) → i + ys.length ≤ n → Vector α n
  | [], _ => xs
  | y :: ys, h =>
    copyFrom (xs.set i y (by rw [List.length_cons] at h; omega)) (i + 1) ys
      (by rw [List.length_cons] at h; omega)

/-- Put a word at an address of 64 bits, unless it does not lie wholly inside memory. -/
def writeWord (m : Image) (addr : Nat) (v : Word) : Image × Except ImageError Unit :=
  if UInt64.size ≤ addr + 4 then (m, .error .overflow)
  else if h : addr + 4 ≤ memorySize then
    (⟨copyFrom m.bytes addr (wordBytes v) h, copyFrom m.mask addr (List.replicate 4 true) h⟩,
      .ok ())
  else (m, .error (.outOfRange addr))

theorem setByte_mk (bytes : Vector Byte memorySize) (mask : Vector Bool memorySize) {i : Nat}
    (h : i < memorySize) (v : Byte) :
    (Image.mk bytes mask).setByte (BitVec.ofNat 17 i) v = ⟨bytes.set i v, mask.set i true⟩ := by
  simp only [setByte, BitVec.toNat_ofNat, Nat.mod_eq_of_lt h]

/-- Bytes that end within memory are copied as a slice. -/
theorem write_eq_copyFrom (m : Image) {i : Nat} {bs : List Byte} {ds : List Bool}
    (hb : i + bs.length ≤ memorySize) (hd : i + ds.length ≤ memorySize)
    (same : ds = List.replicate bs.length true) :
    m.write (BitVec.ofNat 17 i) bs = ⟨copyFrom m.bytes i bs hb, copyFrom m.mask i ds hd⟩ := by
  subst same
  induction bs generalizing m i with
  | nil => rfl
  | cons b bs ih =>
    obtain ⟨bytes, mask⟩ := m
    rw [List.length_cons] at hb
    have next : BitVec.ofNat 17 i + 1 = BitVec.ofNat 17 (i + 1) := (BitVec.ofNat_add ..).symm
    rw [write, setByte_mk _ _ (by omega), next, ih _ (by omega) (by simp; omega)]
    rfl

/-- A word that lies wholly inside memory is set. -/
theorem writeWord_of_le (m : Image) {addr : Nat} (v : Word) (h : addr + 4 ≤ memorySize) :
    m.writeWord addr v = (m.setWord (BitVec.ofNat 17 addr) v, .ok ()) := by
  have bound : ¬ UInt64.size ≤ addr + 4 := by
    rw [memorySize] at h
    rw [UInt64.size]
    omega
  rw [writeWord, if_neg bound, dif_pos h, setWord, write_eq_copyFrom m h h rfl]
  rfl

/-- A word that does not lie wholly inside memory is not written. -/
theorem writeWord_of_lt (m : Image) {addr : Nat} (v : Word) (h : memorySize < addr + 4) :
    m.writeWord addr v =
      (m, .error (if UInt64.size ≤ addr + 4 then .overflow else .outOfRange addr)) := by
  rw [writeWord, dif_neg (Nat.not_le.2 h)]
  split <;> rfl

/-- The same bytes with nothing defined. -/
def clearDefined (m : Image) : Image := ⟨m.bytes, Vector.replicate memorySize false⟩

theorem byte_clearDefined (m : Image) (a : Address) : m.clearDefined.byte a = m.byte a := rfl

theorem isDefined_clearDefined (m : Image) (a : Address) :
    m.clearDefined.isDefined a = false := by
  simp [isDefined, clearDefined]

/-! ### Reading -/

/-- The little-endian word at an address. -/
def word (m : Image) (a : Address) : Word :=
  m.byte (a + 3) ++ m.byte (a + 2) ++ m.byte (a + 1) ++ m.byte a

/-- The little-endian double word at an address. -/
def dword (m : Image) (a : Address) : Dword := m.word (a + 4) ++ m.word a

/-- The end of the defined data below an address, rounded up to a word boundary. -/
def definedEndBelow (m : Image) : Nat → Nat
  | 0 => 0
  | n + 1 => if m.isDefined (BitVec.ofNat 17 n) then 4 * (n / 4 + 1) else m.definedEndBelow n

/-- The end of the defined data, rounded up to a word boundary. -/
def definedEnd (m : Image) : Nat := m.definedEndBelow memorySize

end Image

end Macc
