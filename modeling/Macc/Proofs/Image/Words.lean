import Macc.Image.Basic

/-!
# Words in images

A word at an address that leaves room for it covers four bytes (`Image.Covers`).  Setting a word
changes exactly these, so words at distances of at least 4 do not disturb each other.
`Image.setWords` sets several words; when they lie apart, each of them can be read back
(`word_setWords`), the bytes that they cover are defined (`isDefined_setWords_iff`), and all others
are as before (`byte_setWords_of_not_covers`).  `Image.wordsAt` puts words at consecutive addresses.
-/

namespace Macc

namespace Image

/-- The word at `a` has a byte at the address `x`. -/
def Covers (a : Nat) (x : Address) : Prop := a ≤ x.toNat ∧ x.toNat < a + 4

theorem toNat_sub_lt_iff {a n : Nat} (x : Address) (h : a + n ≤ memorySize) :
    (x - BitVec.ofNat 17 a).toNat < n ↔ a ≤ x.toNat ∧ x.toNat < a + n := by
  have := x.isLt
  rw [memorySize] at h
  rw [BitVec.toNat_sub, BitVec.toNat_ofNat]
  omega

theorem toNat_sub_lt_four_iff {a : Nat} (x : Address) (ha : a + 4 ≤ memorySize) :
    (x - BitVec.ofNat 17 a).toNat < 4 ↔ Covers a x := toNat_sub_lt_iff x ha

theorem toNat_ofNat_add {a : Nat} {k : Address} (ha : a + 4 ≤ memorySize) (hk : k.toNat < 4) :
    (BitVec.ofNat 17 a + k).toNat = a + k.toNat := by
  rw [memorySize] at ha
  rw [BitVec.toNat_add, BitVec.toNat_ofNat]
  omega

theorem toNat_add_ofNat_sub (a : Address) {i : Nat} (h : i < memorySize) :
    (a + .ofNat 17 i - a).toNat = i := by
  rw [BitVec.add_comm, BitVec.add_sub_cancel, BitVec.toNat_ofNat, Nat.mod_eq_of_lt h]

theorem eq_ofNat_iff {x : Address} {n : Nat} (h : n < memorySize) :
    x = .ofNat 17 n ↔ x.toNat = n := by
  rw [← BitVec.toNat_inj, BitVec.toNat_ofNat, Nat.mod_eq_of_lt h]

theorem length_wordBytes_le (v : Word) : (wordBytes v).length ≤ memorySize := by
  rw [length_wordBytes]
  decide

/-- The bytes of a word make up the word. -/
theorem append_wordBytes (v : Word) :
    v.extractLsb' 24 8 ++ v.extractLsb' 16 8 ++ v.extractLsb' 8 8 ++ v.extractLsb' 0 8 = v := by
  refine BitVec.eq_of_getLsbD_eq fun i hi => ?_
  simp only [BitVec.getLsbD_append, BitVec.getLsbD_extractLsb']
  split
  · simp [*]
  · split
    · simp [show i - 8 < 8 by omega, show 8 + (i - 8) = i by omega]
    · split
      · simp [show i - 8 - 8 < 8 by omega, show 16 + (i - 8 - 8) = i by omega]
      · simp [show i - 8 - 8 - 8 < 8 by omega, show 24 + (i - 8 - 8 - 8) = i by omega]

/-- The word of bytes has these bytes, lowest first. -/
theorem wordBytes_append (b0 b1 b2 b3 : Byte) :
    wordBytes (b3 ++ b2 ++ b1 ++ b0) = [b0, b1, b2, b3] := by
  have low {n m : Nat} (x : BitVec n) (y : BitVec m) (start : Nat) (h : start + 8 ≤ m) :
      (x ++ y).extractLsb' start 8 = y.extractLsb' start 8 :=
    BitVec.extractLsb'_append_eq_of_add_le h
  have high {n m : Nat} (x : BitVec n) (y : BitVec m) (start : Nat) (h : m ≤ start) :
      (x ++ y).extractLsb' start 8 = x.extractLsb' (start - m) 8 :=
    BitVec.extractLsb'_append_eq_of_le h
  rw [wordBytes, low _ b0 0 (by decide), high _ b0 8 (by decide), low _ b1 0 (by decide),
    high _ b0 16 (by decide), high _ b1 8 (by decide), low _ b2 0 (by decide),
    high _ b0 24 (by decide), high _ b1 16 (by decide), high b3 b2 8 (by decide)]
  simp only [Nat.sub_self, BitVec.extractLsb'_eq_self]

/-! ### One word -/

theorem isDefined_setWord_iff (m : Image) {a : Nat} (x : Address) (v : Word)
    (ha : a + 4 ≤ memorySize) :
    (m.setWord (.ofNat 17 a) v).isDefined x ↔ Covers a x ∨ m.isDefined x := by
  rw [setWord, isDefined_write _ _ _ (length_wordBytes_le v), length_wordBytes,
    toNat_sub_lt_four_iff x ha]

theorem byte_setWord_of_not_covers (m : Image) {a : Nat} {x : Address} (v : Word)
    (ha : a + 4 ≤ memorySize) (hx : ¬ Covers a x) :
    (m.setWord (.ofNat 17 a) v).byte x = m.byte x := by
  rw [← toNat_sub_lt_four_iff x ha, Nat.not_lt] at hx
  rw [setWord, byte_write _ _ _ (length_wordBytes_le v), List.getElem?_eq_none hx, Option.getD_none]

/-- Words are equal when their bytes are. -/
theorem word_congr {m n : Image} {a b : Address}
    (h : ∀ k : Address, k.toNat < 4 → m.byte (a + k) = n.byte (b + k)) : m.word a = n.word b := by
  have h0 := h 0#17 (by decide)
  rw [BitVec.add_zero, BitVec.add_zero] at h0
  rw [word, word, h0, h 1 (by decide), h 2 (by decide), h 3 (by decide)]

theorem getElem?_wordBytes (v : Word) {i : Nat} (h : i < 4) :
    (wordBytes v)[i]? = some (v.extractLsb' (8 * i) 8) := by
  match i with
  | 0 | 1 | 2 | 3 => rfl

/-- The bytes of a word are put from its address on, around the end of memory. -/
theorem byte_setWord_add (m : Image) (a : Address) (v : Word) {i : Nat} (h : i < 4) :
    (m.setWord a v).byte (a + .ofNat 17 i) = v.extractLsb' (8 * i) 8 := by
  rw [setWord, byte_write _ _ _ (length_wordBytes_le v),
    toNat_add_ofNat_sub a (Nat.lt_trans h (by decide)), getElem?_wordBytes v h, Option.getD_some]

/-- A word is read back where it was set. -/
theorem word_setWord (m : Image) (a : Address) (v : Word) : (m.setWord a v).word a = v := by
  have first : (m.setWord a v).byte (a + 0#17) = _ := m.byte_setWord_add a v (i := 0) (by decide)
  have second : (m.setWord a v).byte (a + 1) = _ := m.byte_setWord_add a v (i := 1) (by decide)
  have third : (m.setWord a v).byte (a + 2) = _ := m.byte_setWord_add a v (i := 2) (by decide)
  have fourth : (m.setWord a v).byte (a + 3) = _ := m.byte_setWord_add a v (i := 3) (by decide)
  rw [BitVec.add_zero] at first
  rw [word, first, second, third, fourth]
  exact append_wordBytes v

/-- A word is not disturbed by another at a distance of at least 4. -/
theorem word_setWord_of_disjoint (m : Image) {a b : Nat} (v : Word) (ha : a + 4 ≤ memorySize)
    (hb : b + 4 ≤ memorySize) (h : a + 4 ≤ b ∨ b + 4 ≤ a) :
    (m.setWord (.ofNat 17 a) v).word (.ofNat 17 b) = m.word (.ofNat 17 b) := by
  refine word_congr fun k hk => byte_setWord_of_not_covers m v ha fun hc => ?_
  rw [Covers, toNat_ofNat_add hb hk] at hc
  omega

/-- Equal words have equal bytes. -/
theorem byte_congr {m n : Image} {a : Nat} {x : Address} (hx : Covers a x)
    (h : m.word (.ofNat 17 a) = n.word (.ofNat 17 a)) : m.byte x = n.byte x := by
  have bytes := congrArg wordBytes h
  rw [word, word, wordBytes_append, wordBytes_append] at bytes
  injection bytes with h0 bytes
  injection bytes with h1 bytes
  injection bytes with h2 bytes
  injection bytes with h3 _
  have place : x = .ofNat 17 a ∨ x = .ofNat 17 a + 1 ∨ x = .ofNat 17 a + 2 ∨
      x = .ofNat 17 a + 3 := by
    obtain ⟨le, lt⟩ := hx
    have := x.isLt
    bv_omega
  obtain rfl | rfl | rfl | rfl := place
  · exact h0
  · exact h1
  · exact h2
  · exact h3

/-! ### Several words -/

/-- Put words at their addresses, one after another. -/
def setWords (m : Image) (ws : List (Nat × Word)) : Image :=
  ws.foldl (fun m w => m.setWord (.ofNat 17 w.1) w.2) m

theorem setWords_cons (m : Image) (w : Nat × Word) (ws : List (Nat × Word)) :
    m.setWords (w :: ws) = (m.setWord (.ofNat 17 w.1) w.2).setWords ws := rfl

theorem setWords_append (m : Image) (ws us : List (Nat × Word)) :
    m.setWords (ws ++ us) = (m.setWords ws).setWords us := List.foldl_append

theorem isDefined_setWords_iff (m : Image) {ws : List (Nat × Word)} (x : Address)
    (hf : ∀ w ∈ ws, w.1 + 4 ≤ memorySize) :
    (m.setWords ws).isDefined x ↔ (∃ w ∈ ws, Covers w.1 x) ∨ m.isDefined x := by
  induction ws generalizing m with
  | nil => simp [setWords]
  | cons w ws ih =>
    rw [List.forall_mem_cons] at hf
    rw [setWords_cons, ih _ hf.2, isDefined_setWord_iff m x w.2 hf.1]
    simp only [List.mem_cons, exists_eq_or_imp]
    rw [← or_assoc, or_comm (a := ∃ u, u ∈ ws ∧ Covers u.1 x)]

theorem byte_setWords_of_not_covers (m : Image) {ws : List (Nat × Word)} {x : Address}
    (hf : ∀ w ∈ ws, w.1 + 4 ≤ memorySize) (hx : ∀ w ∈ ws, ¬ Covers w.1 x) :
    (m.setWords ws).byte x = m.byte x := by
  induction ws generalizing m with
  | nil => rfl
  | cons w ws ih =>
    rw [List.forall_mem_cons] at hf hx
    rw [setWords_cons, ih _ hf.2 hx.2, byte_setWord_of_not_covers m w.2 hf.1 hx.1]

/-- Words that lie apart. -/
def Apart (w u : Nat × Word) : Prop := w.1 + 4 ≤ u.1 ∨ u.1 + 4 ≤ w.1

theorem word_setWords_of_apart (m : Image) {ws : List (Nat × Word)} {b : Nat}
    (hf : ∀ w ∈ ws, w.1 + 4 ≤ memorySize) (hb : b + 4 ≤ memorySize)
    (h : ∀ w ∈ ws, w.1 + 4 ≤ b ∨ b + 4 ≤ w.1) :
    (m.setWords ws).word (.ofNat 17 b) = m.word (.ofNat 17 b) := by
  induction ws generalizing m with
  | nil => rfl
  | cons w ws ih =>
    rw [List.forall_mem_cons] at hf h
    rw [setWords_cons, ih _ hf.2 h.2, word_setWord_of_disjoint m w.2 hf.1 hb h.1]

/-- Each of several words that lie apart is read back. -/
theorem word_setWords (m : Image) {ws : List (Nat × Word)} (hf : ∀ w ∈ ws, w.1 + 4 ≤ memorySize)
    (hp : ws.Pairwise Apart) {w : Nat × Word} (hw : w ∈ ws) :
    (m.setWords ws).word (.ofNat 17 w.1) = w.2 := by
  induction ws generalizing m with
  | nil => cases hw
  | cons u ws ih =>
    rw [List.forall_mem_cons] at hf
    rw [List.pairwise_cons] at hp
    rw [setWords_cons]
    rcases List.mem_cons.1 hw with rfl | hw
    · rw [word_setWords_of_apart _ hf.2 hf.1 fun v hv => (hp.1 v hv).symm, word_setWord]
    · exact ih _ hf.2 hp.2 hw

/-! ### Consecutive words -/

/-- Words at consecutive addresses. -/
def wordsAt (addr : Nat) : List Word → List (Nat × Word)
  | [] => []
  | w :: ws => (addr, w) :: wordsAt (addr + 4) ws

theorem mem_wordsAt_iff {addr : Nat} {ws : List Word} {w : Nat × Word} :
    w ∈ wordsAt addr ws ↔ ∃ i v, ws[i]? = some v ∧ w = (addr + 4 * i, v) := by
  induction ws generalizing addr with
  | nil => simp [wordsAt]
  | cons u ws ih =>
    rw [wordsAt, List.mem_cons, ih]
    have next (i : Nat) : addr + 4 + 4 * i = addr + 4 * (i + 1) := by omega
    constructor
    · rintro (rfl | ⟨i, v, h, rfl⟩)
      · exact ⟨0, u, rfl, rfl⟩
      · exact ⟨i + 1, v, h, by rw [next]⟩
    · rintro ⟨i, v, h, rfl⟩
      cases i with
      | zero => exact .inl (by rw [Option.some.inj h]; rfl)
      | succ i => exact .inr ⟨i, v, h, by rw [next]⟩

/-- Consecutive words begin at the address and end as many words behind it. -/
theorem bounds_of_mem_wordsAt {addr : Nat} {ws : List Word} {w : Nat × Word}
    (h : w ∈ wordsAt addr ws) : addr ≤ w.1 ∧ w.1 + 4 ≤ addr + 4 * ws.length := by
  obtain ⟨i, v, hi, rfl⟩ := mem_wordsAt_iff.1 h
  have := (List.getElem?_eq_some_iff.1 hi).1
  dsimp only
  omega

theorem pairwise_wordsAt (addr : Nat) (ws : List Word) : (wordsAt addr ws).Pairwise Apart := by
  induction ws generalizing addr with
  | nil => exact .nil
  | cons w ws ih => exact .cons (fun u hu => .inl (bounds_of_mem_wordsAt hu).1) (ih (addr + 4))

/-- Bytes are written one after another. -/
theorem write_append (m : Image) (a : Address) (xs ys : List Byte) :
    m.write a (xs ++ ys) = (m.write a xs).write (a + .ofNat 17 xs.length) ys := by
  induction xs generalizing m a with
  | nil => rw [List.nil_append, List.length_nil, BitVec.add_zero, write]
  | cons b bs ih =>
    have next : a + 1 + .ofNat 17 bs.length = a + .ofNat 17 (b :: bs).length := by
      rw [List.length_cons, BitVec.ofNat_add, BitVec.add_assoc, BitVec.add_comm 1]
      rfl
    rw [List.cons_append, write, ih, write, next]

section Write

variable (m : Image) {a : Nat} {bs : List Byte} (fits : a + bs.length ≤ memorySize)

include fits

/-- Writing bytes defines them and no others. -/
theorem isDefined_write_iff (x : Address) :
    (m.write (.ofNat 17 a) bs).isDefined x ↔
      (a ≤ x.toNat ∧ x.toNat < a + bs.length) ∨ m.isDefined x := by
  rw [isDefined_write _ _ _ (by omega), toNat_sub_lt_iff x fits]

/-- Bytes are read back where they were written. -/
theorem byte_write_of_lt {i : Nat} (hi : i < bs.length) :
    (m.write (.ofNat 17 a) bs).byte (.ofNat 17 (a + i)) = bs[i] := by
  have place : (BitVec.ofNat 17 (a + i) - .ofNat 17 a).toNat = i := by
    rw [BitVec.ofNat_add]
    exact toNat_add_ofNat_sub _ (by omega)
  rw [byte_write _ _ _ (by omega), place, List.getElem?_eq_getElem hi, Option.getD_some]

end Write

/-- Two consecutive words are read back as a double word. -/
theorem dword_setWords (m : Image) {ws : List (Nat × Word)}
    (hf : ∀ w ∈ ws, w.1 + 4 ≤ memorySize) (hp : ws.Pairwise Apart) {addr : Nat} {lo hi : Word}
    (h : wordsAt addr [lo, hi] ⊆ ws) : (m.setWords ws).dword (.ofNat 17 addr) = hi ++ lo := by
  have next : BitVec.ofNat 17 addr + 4 = .ofNat 17 (addr + 4) := (BitVec.ofNat_add _ _).symm
  have low : (addr, lo) ∈ wordsAt addr [lo, hi] := .head _
  have high : (addr + 4, hi) ∈ wordsAt addr [lo, hi] := .tail _ (.head _)
  have lowRead := word_setWords m hf hp (h low)
  have highRead := word_setWords m hf hp (h high)
  rw [dword, next, lowRead, highRead]

end Image

end Macc
