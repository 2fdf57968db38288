import Macc.Proofs.Image.Words
import Mathlib.Algebra.BigOperators.Intervals

/-!
# Access to words

Words and double words are little-endian numbers of the bytes that they cover, around the end of
memory (`toNat_word`, `toNat_dword`).  What a write leaves alone is said by the addresses that it
writes (`WrittenAt`): those of a word, if a word is set.

Programs and commands give addresses in 32 bits, which wrap around both at 2 ^ 32 and at the end of
memory.  `wordAt`, `dwordAt` and `setWordAt` work byte by byte in the arithmetic of such addresses.
The end of memory divides 2 ^ 32, so it does not matter at which of the two the bytes of a word part
(`setWidth_add_ofNat`), and a machine that knows 17 bits of an address does the same (`wordAt_eq`,
`setWordAt_eq`).  `word_laws` has all that can be done with words there, and that a write that must
not wrap around (`writeWord`) puts its bytes where they would be without wrapping.
-/

namespace Macc

namespace Image

/-! ### What a write leaves alone -/

/-- The second image is the first with bytes written at just these addresses. -/
structure WrittenAt (P : Address → Prop) (m n : Image) : Prop where
  isDefined : ∀ x, n.isDefined x ↔ P x ∨ m.isDefined x
  byte : ∀ x, ¬ P x → n.byte x = m.byte x

/-- The word at `a` has a byte at the address `x`, around the end of memory. -/
def InWord (a x : Address) : Prop := (x - a).toNat < 4

theorem WrittenAt.nowhere (m : Image) : m.WrittenAt (fun _ => False) m :=
  ⟨fun _ => (or_iff_right id).symm, fun _ _ => rfl⟩

theorem WrittenAt.trans {P Q : Address → Prop} {m n k : Image} (h : m.WrittenAt P n)
    (h' : n.WrittenAt Q k) : m.WrittenAt (fun x => P x ∨ Q x) k where
  isDefined x := by rw [h'.isDefined, h.isDefined, or_left_comm, or_assoc]
  byte x hx := by
    rw [not_or] at hx
    rw [h'.byte x hx.2, h.byte x hx.1]

theorem WrittenAt.ite {P : Address → Prop} {m n : Image} (c : Bool) (h : m.WrittenAt P n) :
    m.WrittenAt (fun x => c ∧ P x) (if c then n else m) := by
  cases c with
  | true => simpa using h
  | false => simpa using nowhere m

theorem writtenAt_setByte (m : Image) (a : Address) (v : Byte) :
    m.WrittenAt (· = a) (m.setByte a v) where
  isDefined x := by rw [isDefined_setByte]
  byte x hx := by rw [byte_setByte, if_neg hx]

theorem writtenAt_setWord (m : Image) (a : Address) (v : Word) :
    m.WrittenAt (InWord a) (m.setWord a v) where
  isDefined x := by
    rw [setWord, isDefined_write _ _ _ (length_wordBytes_le v), length_wordBytes]
    rfl
  byte x hx := by
    have outside : (wordBytes v).length ≤ (x - a).toNat := Nat.not_lt.1 hx
    rw [setWord, byte_write _ _ _ (length_wordBytes_le v), List.getElem?_eq_none outside,
      Option.getD_none]

section

variable {P : Address → Prop} {m n : Image} {a x : Address}

theorem inWord_add (a : Address) {k : Address} (hk : k.toNat < 4) : InWord a (a + k) := by
  rw [InWord, BitVec.add_comm, BitVec.add_sub_cancel]
  exact hk

theorem inWord_iff : InWord a x ↔ ∃ i < 4, x = a + .ofNat 17 i := by
  constructor
  · intro h
    refine ⟨(x - a).toNat, h, ?_⟩
    rw [BitVec.ofNat_toNat, BitVec.setWidth_eq, BitVec.add_comm, BitVec.sub_add_cancel]
  · rintro ⟨i, hi, rfl⟩
    rw [InWord, toNat_add_ofNat_sub a (Nat.lt_trans hi (by decide))]
    exact hi

/-- The word behind a word has none of its bytes. -/
theorem not_inWord_add_four (h : InWord a x) : ¬ InWord (a + 4) x := by
  unfold InWord at *
  bv_omega

/-- A word is kept if none of its bytes is written. -/
theorem WrittenAt.word (h : m.WrittenAt P n) (spared : ∀ x, InWord a x → ¬ P x) :
    n.word a = m.word a :=
  word_congr fun _ hk => h.byte _ (spared _ (inWord_add a hk))

end

/-! ### Little-endian numbers -/

/-- The number of `n` bytes from an address on, lowest byte first, around the end of memory. -/
def littleEndian (m : Image) (a : Address) : Nat → Nat
  | 0 => 0
  | n + 1 => (m.byte a).toNat + 256 * m.littleEndian (a + 1) n

theorem toNat_append_eq {n k : Nat} (x : BitVec n) (y : BitVec k) :
    (x ++ y).toNat = y.toNat + 2 ^ k * x.toNat := by
  rw [BitVec.toNat_append, ← Nat.shiftLeft_add_eq_or_of_lt y.isLt, Nat.shiftLeft_eq, Nat.add_comm,
    Nat.mul_comm]

theorem toNat_word (m : Image) (a : Address) : (m.word a).toNat = m.littleEndian a 4 := by
  have second : a + 1 + 1 = a + 2 := BitVec.add_assoc a 1 1
  have third : a + 2 + 1 = a + 3 := BitVec.add_assoc a 2 1
  simp only [word, toNat_append_eq, littleEndian, second, third]
  omega

theorem add_one_add_ofNat (a : Address) (i : Nat) :
    a + 1 + .ofNat 17 i = a + .ofNat 17 (i + 1) := by
  rw [BitVec.add_assoc, BitVec.ofNat_add, BitVec.add_comm (.ofNat 17 i)]
  rfl

theorem littleEndian_add (m : Image) (a : Address) (i j : Nat) :
    m.littleEndian a (i + j) =
      m.littleEndian a i + 256 ^ i * m.littleEndian (a + .ofNat 17 i) j := by
  induction i generalizing a with
  | zero => simp [littleEndian]
  | succ i ih =>
    rw [Nat.add_right_comm, littleEndian, littleEndian, ih, add_one_add_ofNat, Nat.pow_succ',
      Nat.mul_add, Nat.mul_assoc, Nat.add_assoc]

theorem toNat_dword (m : Image) (a : Address) : (m.dword a).toNat = m.littleEndian a 8 := by
  rw [dword, toNat_append_eq, toNat_word, toNat_word]
  exact (m.littleEndian_add a 4 4).symm

/-- Each byte counts by its place. -/
theorem littleEndian_eq_sum (m : Image) (a : Address) (n : Nat) :
    m.littleEndian a n = ∑ i ∈ Finset.range n, 256 ^ i * (m.byte (a + .ofNat 17 i)).toNat := by
  induction n with
  | zero => rfl
  | succ n ih =>
    rw [littleEndian_add, ih, Finset.sum_range_succ, littleEndian, littleEndian, Nat.mul_zero,
      Nat.add_zero]

end Image

/-! ### Addresses of 32 bits -/

theorem setWidth_add_ofNat {w : Nat} (h : w ≤ 32) (v : Word) (n : Nat) :
    (v + .ofNat 32 n).setWidth w = v.setWidth w + .ofNat w n := by
  rw [BitVec.setWidth_add _ _ h, BitVec.setWidth_ofNat_of_le h]

/-- A byte of a word in memory lies at one address, whether this wraps around in 32 bits or not. -/
theorem setWidth_add_place (a : Word) (i : Nat) :
    (a + .ofNat 32 i).setWidth 17 = a.setWidth 17 + .ofNat 17 i :=
  setWidth_add_ofNat (by decide) a i

theorem setWidth_congr {a b : Word} (h : a.toNat % 2 ^ 17 = b.toNat % 2 ^ 17) :
    a.setWidth 17 = b.setWidth 17 := by
  rw [← BitVec.toNat_inj, BitVec.toNat_setWidth, BitVec.toNat_setWidth, h]

namespace Image

/-- The byte at an address of which only the low 17 bits are looked at. -/
def byteAt (m : Image) (a : Word) : Byte := m.byte (a.setWidth 17)

def isDefinedAt (m : Image) (a : Word) : Bool := m.isDefined (a.setWidth 17)

def setByteAt (m : Image) (a : Word) (b : Byte) : Image := m.setByte (a.setWidth 17) b

/-- Put `n` bytes from an address on together, each shifted to its place. -/
def gather (w : Nat) (m : Image) (a : Word) (n : Nat) : BitVec w :=
  (List.range n).foldl
    (fun x i => x ||| (m.byteAt (a + .ofNat 32 i)).setWidth w <<< (8 * i)) 0

def wordAt (m : Image) (a : Word) : Word := m.gather 32 a 4

def dwordAt (m : Image) (a : Word) : Dword := m.gather 64 a 8

/-- Set the bytes of a word one by one. -/
def setWordAt (m : Image) (a : Word) (v : Word) : Image :=
  (wordBytes v).zipIdx.foldl (fun m (b, i) => m.setByteAt (a + .ofNat 32 i) b) m

variable (m : Image) (a : Word) (v : Word)

theorem byteAt_add_ofNat (i : Nat) :
    m.byteAt (a + .ofNat 32 i) = m.byte (a.setWidth 17 + .ofNat 17 i) := by
  rw [byteAt, setWidth_add_place]

/-- Bytes at their places add up to their little-endian number. -/
theorem toNat_gather {w n : Nat} (h : 8 * n ≤ w) :
    (m.gather w a n).toNat = m.littleEndian (a.setWidth 17) n ∧
      (m.gather w a n).toNat < 2 ^ (8 * n) := by
  induction n with
  | zero => exact ⟨rfl, Nat.one_pos⟩
  | succ n ih =>
    obtain ⟨number, small⟩ := ih (by omega)
    have byte := (m.byteAt (a + .ofNat 32 n)).isLt
    have top : 2 ^ (8 * n) * 2 ^ 8 ≤ 2 ^ w := by
      rw [← Nat.pow_add]
      exact Nat.pow_le_pow_right (by decide) h
    have shifted : ((m.byteAt (a + .ofNat 32 n)).setWidth w <<< (8 * n)).toNat =
        2 ^ (8 * n) * (m.byteAt (a + .ofNat 32 n)).toNat := by
      rw [BitVec.toNat_shiftLeft, BitVec.toNat_setWidth_of_le (by omega), Nat.shiftLeft_eq,
        Nat.mul_comm, Nat.mod_eq_of_lt]
      exact Nat.lt_of_lt_of_le (Nat.mul_lt_mul_of_pos_left byte (Nat.two_pow_pos _)) top
    have step : (m.gather w a (n + 1)).toNat = (m.gather w a n).toNat +
        2 ^ (8 * n) * (m.byteAt (a + .ofNat 32 n)).toNat := by
      rw [gather, List.range_succ, List.foldl_append, ← gather]
      simp only [List.foldl_cons, List.foldl_nil, BitVec.toNat_or]
      -- the bytes so far lie below the place of the new one
      rw [shifted, Nat.or_comm, ← Nat.two_pow_add_eq_or_of_lt small, Nat.add_comm]
    constructor
    · rw [step, number, byteAt_add_ofNat, littleEndian_add, littleEndian, littleEndian, Nat.mul_zero,
        Nat.add_zero, Nat.pow_mul]
    · have bound : 2 ^ (8 * n) * ((m.byteAt (a + .ofNat 32 n)).toNat + 1) ≤ 2 ^ (8 * n) * 2 ^ 8 :=
        Nat.mul_le_mul_left _ byte
      rw [step, Nat.mul_succ, Nat.pow_add]
      rw [Nat.mul_succ] at bound
      omega

theorem wordAt_eq : m.wordAt a = m.word (a.setWidth 17) := by
  rw [← BitVec.toNat_inj, toNat_word]
  exact (m.toNat_gather a (by decide)).1

theorem dwordAt_eq : m.dwordAt a = m.dword (a.setWidth 17) := by
  rw [← BitVec.toNat_inj, toNat_dword]
  exact (m.toNat_gather a (by decide)).1

/-- Bytes that are set one by one are written. -/
theorem foldl_setByteAt (bs : List Byte) (k : Nat) (m : Image) :
    (bs.zipIdx k).foldl (fun m (b, i) => m.setByteAt (a + .ofNat 32 i) b) m =
      m.write (a.setWidth 17 + .ofNat 17 k) bs := by
  induction bs generalizing k m with
  | nil => rfl
  | cons b bs ih =>
    have next : a.setWidth 17 + .ofNat 17 (k + 1) = a.setWidth 17 + .ofNat 17 k + 1 := by
      rw [BitVec.ofNat_add, ← BitVec.add_assoc]
      rfl
    rw [List.zipIdx_cons, List.foldl_cons, ih, next, write]
    dsimp only
    rw [setByteAt, setWidth_add_place]

theorem setWordAt_eq : m.setWordAt a v = m.setWord (a.setWidth 17) v := by
  rw [setWordAt, foldl_setByteAt, BitVec.add_zero, setWord]

/-! ### Setting a word -/

/-- The bytes of a word are put in their places and defined. -/
theorem setWordAt_places {i : Nat} (h : i < 4) :
    (m.setWordAt a v).byteAt (a + .ofNat 32 i) = v.extractLsb' (8 * i) 8 ∧
      (m.setWordAt a v).isDefinedAt (a + .ofNat 32 i) := by
  rw [setWordAt_eq, byteAt_add_ofNat, isDefinedAt, setWidth_add_place, byte_setWord_add m _ v h,
    (m.writtenAt_setWord _ v).isDefined]
  exact ⟨rfl, .inl (inWord_iff.2 ⟨i, h, rfl⟩)⟩

/-- A byte in none of the places is left alone. -/
theorem setWordAt_elsewhere {x : Address} (h : ∀ i < 4, x ≠ (a + .ofNat 32 i).setWidth 17) :
    (m.setWordAt a v).byte x = m.byte x ∧ (m.setWordAt a v).isDefined x = m.isDefined x := by
  rw [setWordAt_eq]
  have outside : ¬ InWord (a.setWidth 17) x := fun inside => by
    obtain ⟨i, hi, rfl⟩ := inWord_iff.1 inside
    exact h i hi (setWidth_add_place a i).symm
  have frame := m.writtenAt_setWord (a.setWidth 17) v
  have mask := (frame.isDefined x).trans (or_iff_right outside)
  exact ⟨frame.byte x outside, Bool.eq_iff_iff.2 mask⟩

/-! ### Reading -/

/-- A word is made of the bytes in its places. -/
theorem toNat_wordAt_eq_sum :
    (m.wordAt a).toNat = ∑ i ∈ Finset.range 4, 256 ^ i * (m.byteAt (a + .ofNat 32 i)).toNat := by
  simp only [wordAt_eq, byteAt_add_ofNat, toNat_word, littleEndian_eq_sum]

theorem toNat_dwordAt_eq_sum :
    (m.dwordAt a).toNat = ∑ i ∈ Finset.range 8, 256 ^ i * (m.byteAt (a + .ofNat 32 i)).toNat := by
  simp only [dwordAt_eq, byteAt_add_ofNat, toNat_dword, littleEndian_eq_sum]

/-- A double word is made of two words. -/
theorem toNat_dwordAt_eq_words :
    (m.dwordAt a).toNat = (m.wordAt a).toNat + 2 ^ 32 * (m.wordAt (a + 4)).toNat := by
  have next : (a + 4).setWidth 17 = a.setWidth 17 + 4 := setWidth_add_place a 4
  rw [dwordAt_eq, wordAt_eq, wordAt_eq, next, dword, toNat_append_eq]

/-- Addresses with the same place in memory can be used for one another, although the bytes behind
them are found by counting in 32 bits. -/
theorem access_congr {a b : Word} (h : a.toNat % 2 ^ 17 = b.toNat % 2 ^ 17) :
    m.byteAt a = m.byteAt b ∧ m.isDefinedAt a = m.isDefinedAt b ∧ m.wordAt a = m.wordAt b ∧
      m.dwordAt a = m.dwordAt b ∧ m.setWordAt a v = m.setWordAt b v := by
  simp only [byteAt, isDefinedAt, wordAt_eq, dwordAt_eq, setWordAt_eq, setWidth_congr h, and_self]

/-! ### Words that must not wrap around -/

/-- The second image is the first with the bytes of a word put over those from a number on, without
wrapping around. -/
structure LaidOver (addr : Nat) (v : Word) (m n : Image) : Prop where
  writtenAt : m.WrittenAt (Covers addr) n
  byte : ∀ i < 4, n.byte (.ofNat 17 (addr + i)) = v.extractLsb' (8 * i) 8

theorem laidOver_setWord {addr : Nat} (h : addr + 4 ≤ memorySize) :
    m.LaidOver addr v (m.setWord (.ofNat 17 addr) v) where
  writtenAt := ⟨fun x => m.isDefined_setWord_iff x v h,
    fun _ hx => m.byte_setWord_of_not_covers v h hx⟩
  byte i hi := by rw [BitVec.ofNat_add, byte_setWord_add m _ v hi]

/-- A word is put over the bytes from a number on if they all exist. -/
theorem writeWord_cases (b : Word) :
    (b.toNat + 4 ≤ memorySize ∧ m.LaidOver b.toNat v (m.setWordAt b v) ∧
      m.writeWord b.toNat v = (m.setWordAt b v, .ok ())) ∨
    (¬ b.toNat + 4 ≤ memorySize ∧ m.writeWord b.toNat v = (m, .error (.outOfRange b.toNat))) := by
  by_cases fits : b.toNat + 4 ≤ memorySize
  · rw [setWordAt_eq, ← BitVec.ofNat_toNat]
    exact .inl ⟨fits, m.laidOver_setWord v fits, m.writeWord_of_le v fits⟩
  · have room : ¬ UInt64.size ≤ b.toNat + 4 := by
      have := b.isLt
      rw [UInt64.size]
      omega
    refine .inr ⟨fits, ?_⟩
    rw [m.writeWord_of_lt v (Nat.not_le.1 fits), if_neg room]

/-! ### Laws -/

/-- A word that is set at an address of 32 bits is read back there, its bytes lie behind the address
one by one and are defined, and all else is as before.  Words and double words are made of the bytes
in these places, so a double word is made of two words, and they are the ones that the machine reads
and sets.  Addresses with the same place in memory can be used for one another.  A word that must not
wrap around is written if it ends within memory, and then it lies where it begins and the image is
the one with the word set; if it is not written, the image is the one that was there. -/
theorem word_laws (m : Image) (v : Word) :
    (∀ a : Word,
      let n := m.setWordAt a v
      n.wordAt a = v ∧
      (∀ i < 4, n.byteAt (a + .ofNat 32 i) = v.extractLsb' (8 * i) 8 ∧
        n.isDefinedAt (a + .ofNat 32 i)) ∧
      ∀ x, (∀ i < 4, x ≠ (a + .ofNat 32 i).setWidth 17) →
        n.byte x = m.byte x ∧ n.isDefined x = m.isDefined x) ∧
    (∀ a : Word,
      (m.wordAt a).toNat = ∑ i ∈ Finset.range 4, 256 ^ i * (m.byteAt (a + .ofNat 32 i)).toNat ∧
      (m.dwordAt a).toNat = ∑ i ∈ Finset.range 8, 256 ^ i * (m.byteAt (a + .ofNat 32 i)).toNat ∧
      (m.dwordAt a).toNat = (m.wordAt a).toNat + 2 ^ 32 * (m.wordAt (a + 4)).toNat) ∧
    (∀ a : Word,
      m.wordAt a = m.word (a.setWidth 17) ∧ m.dwordAt a = m.dword (a.setWidth 17) ∧
      m.setWordAt a v = m.setWord (a.setWidth 17) v) ∧
    (∀ a b : Word, a.toNat % 2 ^ 17 = b.toNat % 2 ^ 17 →
      m.byteAt a = m.byteAt b ∧ m.isDefinedAt a = m.isDefinedAt b ∧ m.wordAt a = m.wordAt b ∧
      m.dwordAt a = m.dwordAt b ∧ m.setWordAt a v = m.setWordAt b v) ∧
    ∀ b : Word,
      let written := m.writeWord b.toNat v
      (written.2 = .ok () ↔ b.toNat + 4 ≤ 0x20000) ∧
      (written.2 = .ok () → written.1 = m.setWordAt b v ∧ m.LaidOver b.toNat v written.1) ∧
      ∀ e, written.2 = .error e → e = .outOfRange b.toNat ∧ written.1 = m := by
  refine ⟨fun a => ?set, fun a => ?read, fun a => ?machine, fun a b h => m.access_congr v h,
    fun b => ?written⟩
  case set =>
    refine ⟨?_, fun i hi => m.setWordAt_places a v hi, fun x hx => m.setWordAt_elsewhere a v hx⟩
    rw [wordAt_eq, setWordAt_eq]
    exact m.word_setWord _ v
  case read =>
    exact ⟨m.toNat_wordAt_eq_sum a, m.toNat_dwordAt_eq_sum a, m.toNat_dwordAt_eq_words a⟩
  case machine => exact ⟨m.wordAt_eq a, m.dwordAt_eq a, m.setWordAt_eq a v⟩
  case written =>
    dsimp only
    rcases m.writeWord_cases v b with ⟨fits, laid, ok⟩ | ⟨fits, error⟩
    · rw [ok]
      exact ⟨iff_of_true rfl fits, fun _ => ⟨rfl, laid⟩, nofun⟩
    · rw [error]
      refine ⟨iff_of_false nofun fits, nofun, ?_⟩
      rintro e ⟨⟩
      exact ⟨rfl, rfl⟩

theorem word_laws_acrossTheEnd :
    let n := empty.setWordAt 0xfffffffe 0x44332211
    n.wordAt 0xfffffffe = 0x44332211 ∧ n.byte 1 = 0x44 ∧ n.isDefined 1 ∧ n.isDefined 2 = false ∧
      empty.setWordAt 0x1fffe 0x44332211 = n ∧
      (empty.writeWord 0x1fffc 0x44332211).2 = .ok () ∧
      (empty.writeWord 0x1fffc 0x44332211).1.byte 0x1ffff = 0x44 ∧
      (empty.writeWord 0x1fffd 0x44332211).1 = empty := by
  intro n
  obtain ⟨set, -, -, same, written⟩ := word_laws empty 0x44332211
  obtain ⟨back, places, elsewhere⟩ := set 0xfffffffe
  obtain ⟨-, -, -, -, moved⟩ := same 0x1fffe 0xfffffffe (by decide)
  obtain ⟨fits, ok, -⟩ := written 0x1fffc
  obtain ⟨tooHigh, -, error⟩ := written 0x1fffd
  have wrote := fits.2 (by decide)
  refine ⟨back, (places 3 (by decide)).1, (places 3 (by decide)).2, ?_, moved, wrote, ?_, ?_⟩
  · exact (elsewhere 2 (by decide)).2.trans (isDefined_empty 2)
  · exact (ok wrote).2.byte 3 (by decide)
  · cases result : (empty.writeWord 0x1fffd 0x44332211).2 with
    | ok => exact absurd (tooHigh.1 result) (by decide)
    | error e => exact (error e result).2

end Image

end Macc
