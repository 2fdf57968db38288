import Macc.Proofs.Assembly.DataLines
import Macc.Proofs.Assembly.InstructionLines
import Macc.Proofs.Machine.Reduction
import Macc.Proofs.Machine.StraightLine

/-!
# A dot product, from its listing to its result

A `DotProduct` is eight bytes, eight others that they are to be multiplied with, and addresses for
both and for the result.  Its program is a straight line, which stores the sum of the products as a
signed byte (`DotProduct.run_of_holds`), and its listing assembles to the words of the operands and
of the program (`DotProduct.exists_assemble`).  `DotProduct.assemble_run` puts the two together.
-/

namespace Macc

open Text

/-- Bytes to be multiplied as signed numbers, with the addresses of both operands and of the result.
The operands are aligned and lie one behind the other, behind the program.  The result takes two
bytes, which lie behind the program too and may overlap the operands. -/
structure DotProduct where
  coeffs : Vector Byte 8
  data : Vector Byte 8
  coeffsAddr : Nat
  dataAddr : Nat
  dest : Nat
  coeffs_aligned : coeffsAddr % 4 = 0
  data_aligned : dataAddr % 4 = 0
  le_coeffs : 0x14 ≤ coeffsAddr
  coeffs_le : coeffsAddr + 8 ≤ dataAddr
  data_le : dataAddr + 8 ≤ memorySize
  le_dest : 0x14 ≤ dest
  dest_le : dest ≤ 0x1fffe

namespace DotProduct

variable (d : DotProduct)

/-- The sum of the products. -/
def sum : Int :=
  (List.zipWith (fun c m => c.toInt * m.toInt) d.coeffs.toList d.data.toList).sum

/-- The program in front of its return. -/
def body : List Op :=
  [.setBase .vbp 0, .load .coeff0 (.ofNat 32 d.coeffsAddr) 0,
    .macc (.sum false) (.ofNat 32 d.dataAddr) 0, .store .both false (.ofNat 32 d.dest) 0]

def program : List Op := d.body ++ [.ret]

theorem inside : d.coeffsAddr < memorySize ∧ d.dataAddr < memorySize ∧ d.dest + 1 < memorySize := by
  have := d.coeffs_le
  have := d.data_le
  have := d.dest_le
  rw [memorySize] at *
  omega

theorem toNat_addr {n : Nat} (h : n < memorySize) : (BitVec.ofNat 32 n).toNat = n := by
  rw [memorySize] at h
  rw [BitVec.toNat_ofNat]
  omega

theorem fits_program : ∀ op ∈ d.program, op.Fits := by
  have word {n : Nat} (h : n < memorySize) : (BitVec.ofNat 32 n).toNat < 2 ^ 17 := by
    rwa [toNat_addr h]
  have zero : (0 : Word).toNat < 2 ^ 9 := by decide
  obtain ⟨coeffs, data, dest⟩ := d.inside
  simp only [program, body, List.cons_append, List.nil_append, List.forall_mem_cons]
  exact ⟨⟨by decide, by decide⟩, ⟨word coeffs, zero⟩, ⟨word data, zero⟩,
    ⟨word (Nat.lt_of_succ_lt dest), zero⟩, ⟨by decide, by decide⟩, by simp⟩

/-! ### The run -/

/-- The sum of the products of the bytes that lie in an image. -/
def sumIn (mem : Image) : Int :=
  innerProduct (mem.dword (.ofNat 17 d.coeffsAddr)) (mem.dword (.ofNat 17 d.dataAddr))

/-- The image with the sum stored as a signed byte, and a zero behind it. -/
def store (mem : Image) : Image :=
  (mem.setByte (.ofNat 17 d.dest) (saturate false 0 (.ofInt 32 (d.sumIn mem)))).setByte
    (.ofNat 17 (d.dest + 1)) 0

/-- The machine behind the load. -/
def loaded (mem : Image) : Machine :=
  ({ mem, pc := 4 } : Machine).load .coeff0 ((BitVec.ofNat 32 d.coeffsAddr).setWidth 17)
    ((0 : Word).setWidth 9) |>.advance

/-- The machine behind the reduction. -/
def reduced (mem : Image) : Machine :=
  { d.loaded mem with pc := 12, acc0 := .ofInt 32 (d.sumIn mem) }

variable {d} (mem : Image)

theorem byte_store (x : Address) :
    (d.store mem).byte x =
      if x.toNat = d.dest + 1 then 0
      else if x.toNat = d.dest then saturate false 0 (.ofInt 32 (d.sumIn mem))
      else mem.byte x := by
  have last := d.inside.2.2
  simp only [store, Image.byte_setByte, Image.eq_ofNat_iff last,
    Image.eq_ofNat_iff (Nat.lt_of_succ_lt last)]

theorem isDefined_store_iff (x : Address) :
    (d.store mem).isDefined x ↔ x.toNat = d.dest ∨ x.toNat = d.dest + 1 ∨ mem.isDefined x := by
  have last := d.inside.2.2
  rw [store, Image.isDefined_setByte, Image.isDefined_setByte, Image.eq_ofNat_iff last,
    Image.eq_ofNat_iff (Nat.lt_of_succ_lt last), or_left_comm]

theorem setWidth_addr (n : Nat) : (BitVec.ofNat 32 n).setWidth 17 = BitVec.ofNat 17 n :=
  BitVec.setWidth_ofNat_of_le (by decide) n

/-- An address behind a base register that is zero. -/
theorem zero_add_addr (n : Nat) : 0#17 + (BitVec.ofNat 32 n).setWidth 17 = BitVec.ofNat 17 n := by
  rw [setWidth_addr, BitVec.zero_add]

theorem exists_apply_macc : ∃ n effect,
    (d.loaded mem).apply (.macc (.sum false) (.ofNat 32 d.dataAddr) 0) = (n, .ok effect) ∧
      n.advance = d.reduced mem := by
  have even : (BitVec.ofNat 17 d.dataAddr).getLsbD 0 = false := by
    have notOdd : ¬ d.dataAddr % 2 = 1 := by
      have := d.data_aligned
      omega
    rw [BitVec.getLsbD_ofNat, Nat.testBit_zero, decide_eq_false notOdd, Bool.and_false]
  have coeff0 : (d.loaded mem).coeff0[(0 : Slot).toFin] = mem.dword (.ofNat 17 d.coeffsAddr) := by
    rw [← setWidth_addr]
    exact Vector.getElem_set_self _
  have coeff1 : (d.loaded mem).coeff1[(0 : Slot).toFin] = 0 := Vector.getElem_replicate _
  have entry : (d.loaded mem).cbp + (0 : Word).setWidth 9 = 0 := rfl
  obtain ⟨effect, applied⟩ := (d.loaded mem).exists_apply_macc (zero_add_addr _) even entry
  rw [coeff0, coeff1, innerProduct_zero, show (d.loaded mem).acc0 = 0#32 from rfl,
    show (d.loaded mem).acc1 = 0#32 from rfl, BitVec.zero_add] at applied
  exact ⟨_, effect, applied, rfl⟩

theorem exists_apply_store : ∃ n effect,
    (d.reduced mem).apply (.store .both false (.ofNat 32 d.dest) 0) = (n, .ok effect) ∧
      n.advance = { d.reduced mem with pc := 16, mem := d.store mem } := by
  have unshifted : (0 : Word).toNat < 32 := by decide
  have zero : saturate false 0 0 = 0 := by decide
  have behind : BitVec.ofNat 17 d.dest + 1 = .ofNat 17 (d.dest + 1) := (BitVec.ofNat_add _ _).symm
  obtain ⟨effect, applied⟩ :=
    (d.reduced mem).exists_apply_store (zero_add_addr d.dest) unshifted false
  rw [show (d.reduced mem).acc1 = 0 from rfl, show (0 : Word).toNat = 0 from rfl, zero,
    behind] at applied
  exact ⟨_, effect, applied, rfl⟩

variable {mem}

/-- The program in memory stores the sum. -/
theorem run_of_holds (h : mem.Holds d.program) : mem.run 0 = .ok (d.store mem) := by
  have fetch {m : Machine} (i : Nat) {op : Op} (hi : d.program[i]? = some op) (pc : m.pc = 4 * i)
      (same : m.mem = mem) : m.fetch = .ok op := h.fetch hi pc (by rw [same])
  obtain ⟨n, _, macc, reduced⟩ := d.exists_apply_macc mem
  obtain ⟨k, _, store, stored⟩ := d.exists_apply_store mem
  have stop : k.advance.fetch = .ok .ret := by
    rw [stored]
    -- the result lies behind the program
    have := d.le_dest
    refine h.fetch (i := 4) rfl rfl (Image.word_congr fun i hi => ?_)
    rw [byte_store, if_neg (by bv_omega), if_neg (by bv_omega)]
  have last : (d.reduced mem).Line [.store .both false (.ofNat 32 d.dest) 0] k.advance :=
    .apply (fetch 3 rfl rfl rfl) store (.nil _)
  have line : Machine.Line { mem } d.body k.advance :=
    .apply (fetch 0 rfl rfl rfl) rfl
      (.load (fetch 1 rfl rfl rfl) (Machine.lookAhead_of_fetch (fetch 2 rfl rfl rfl) nofun)
        (.apply (fetch 2 rfl rfl rfl) macc (reduced ▸ last)))
  have short : d.body.length < ({} : Limits).maxSteps := by
    rw [show d.body.length = 4 from rfl]
    decide
  have memory : k.advance.mem = d.store mem := by rw [stored]
  rw [Image.run_of_line rfl line stop short, memory]

variable (d)

/-! ### The image -/

/-- The words of the operands and of the program. -/
def words : List (Nat × Word) :=
  Image.wordsAt d.coeffsAddr (Assembler.wordsOf d.coeffs.toList) ++
    (Image.wordsAt d.dataAddr (Assembler.wordsOf d.data.toList) ++ wordsFrom 0 d.program)

/-- Eight bytes fill two words, which have them as their lanes. -/
theorem exists_wordsOf_eq (v : Vector Byte 8) :
    ∃ lo hi : Word, Assembler.wordsOf v.toList = [lo, hi] ∧
      (List.range 8).map (laneByte (hi ++ lo)) = v.toList.map BitVec.toInt := by
  have full : v.toList.length % 4 = 0 := by rw [Vector.length_toList]
  have length := Assembler.length_wordsOf full
  have bytes := Assembler.flatMap_wordBytes_wordsOf full
  rw [Vector.length_toList] at length
  obtain ⟨lo, hi, two⟩ : ∃ lo hi, Assembler.wordsOf v.toList = [lo, hi] :=
    List.length_eq_two.1 (by omega)
  rw [two, List.flatMap_cons, List.flatMap_singleton] at bytes
  exact ⟨lo, hi, two, by rw [map_laneByte_append, bytes]⟩

theorem length_wordsOf (v : Vector Byte 8) : (Assembler.wordsOf v.toList).length = 2 := by
  obtain ⟨lo, hi, two, -⟩ := exists_wordsOf_eq v
  rw [two]
  rfl

theorem bounds_of_coeffs {w : Nat × Word}
    (h : w ∈ Image.wordsAt d.coeffsAddr (Assembler.wordsOf d.coeffs.toList)) :
    d.coeffsAddr ≤ w.1 ∧ w.1 + 4 ≤ d.dataAddr := by
  have bounds := Image.bounds_of_mem_wordsAt h
  rw [length_wordsOf] at bounds
  exact ⟨bounds.1, Nat.le_trans bounds.2 d.coeffs_le⟩

theorem bounds_of_data {w : Nat × Word}
    (h : w ∈ Image.wordsAt d.dataAddr (Assembler.wordsOf d.data.toList)) :
    d.dataAddr ≤ w.1 ∧ w.1 + 4 ≤ memorySize := by
  have bounds := Image.bounds_of_mem_wordsAt h
  rw [length_wordsOf] at bounds
  exact ⟨bounds.1, Nat.le_trans bounds.2 d.data_le⟩

theorem le_of_program {w : Nat × Word} (h : w ∈ wordsFrom 0 d.program) :
    w.1 + 4 ≤ d.coeffsAddr := by
  rw [wordsFrom_eq_wordsAt] at h
  have bounds := Image.bounds_of_mem_wordsAt h
  rw [List.length_map, show d.program.length = 5 from rfl] at bounds
  exact Nat.le_trans bounds.2 d.le_coeffs

theorem fits_words : ∀ w ∈ d.words, w.1 + 4 ≤ memorySize := by
  obtain ⟨coeffs, data, -⟩ := d.inside
  rw [words, List.forall_mem_append, List.forall_mem_append]
  refine ⟨fun w hw => ?_, fun w hw => (d.bounds_of_data hw).2, fun w hw => ?_⟩
  · exact Nat.le_trans (d.bounds_of_coeffs hw).2 (Nat.le_of_lt data)
  · exact Nat.le_trans (d.le_of_program hw) (Nat.le_of_lt coeffs)

theorem pairwise_words : d.words.Pairwise Image.Apart := by
  rw [words, List.pairwise_append, List.pairwise_append]
  simp only [List.forall_mem_append]
  refine ⟨Image.pairwise_wordsAt _ _, ⟨Image.pairwise_wordsAt _ _, pairwise_wordsFrom _ _, ?_⟩,
    fun w hw => ⟨fun u hu => ?_, fun u hu => ?_⟩⟩
  · intro w hw u hu
    have := d.coeffs_le
    have := d.bounds_of_data hw
    have := d.le_of_program hu
    exact .inr (by omega)
  · exact .inl (Nat.le_trans (d.bounds_of_coeffs hw).2 (d.bounds_of_data hu).1)
  · exact .inr (Nat.le_trans (d.le_of_program hu) (d.bounds_of_coeffs hw).1)

theorem holds_setWords (m : Image) : (m.setWords d.words).Holds d.program where
  word i op hi := by
    have mem : (4 * i, op.encode) ∈ wordsFrom 0 d.program :=
      mem_wordsFrom_iff.2 ⟨i, op, hi, by rw [Nat.zero_add]⟩
    have read := m.word_setWords d.fits_words d.pairwise_words
      (List.mem_append_right _ (List.mem_append_right _ mem))
    exact read
  fits := d.fits_program
  length_le := by
    rw [show d.program.length = 5 from rfl]
    decide

/-- The sum in the image is that of the bytes. -/
theorem sumIn_setWords (m : Image) : d.sumIn (m.setWords d.words) = d.sum := by
  obtain ⟨lo, hi, two, lanes⟩ := exists_wordsOf_eq d.coeffs
  obtain ⟨lo', hi', two', lanes'⟩ := exists_wordsOf_eq d.data
  have coeffs : (m.setWords d.words).dword (.ofNat 17 d.coeffsAddr) = hi ++ lo :=
    m.dword_setWords d.fits_words d.pairwise_words (two ▸ List.subset_append_left _ _)
  have data : (m.setWords d.words).dword (.ofNat 17 d.dataAddr) = hi' ++ lo' :=
    m.dword_setWords d.fits_words d.pairwise_words
      (two' ▸ List.subset_append_of_subset_right _ (List.subset_append_left _ _))
  rw [sumIn, coeffs, data, innerProduct_of_lanes lanes lanes', sum]

/-! ### The listing -/

/-- The lines of the program, with texts for the addresses. -/
def codeLines (a b c : String) : List String :=
  ["SetVBP 0", "LoadCoeff0 " ++ a ++ ", 0", "MACC " ++ b ++ ", 0", "Store " ++ c ++ ", 0", "Return"]

/-- The listing, with texts for the addresses and the bytes. -/
def lines (a b c : String) (cs ms : List String) : List String :=
  ".code" :: (codeLines a b c ++
    [".data " ++ a, " ".intercalate cs, ".data " ++ b, " ".intercalate ms])

/-- The lines of the listing as characters, section by section. -/
def listing (a b c : String) (cs ms : List String) : List (List Char) :=
  ".code".toList :: ((codeLines a b c).map String.toList ++
    ([".data ".toList ++ a.toList, rowText (cs.map String.toList)] ++
      [".data ".toList ++ b.toList, rowText (ms.map String.toList)]))

/-- The texts are integer literals that stand for the addresses and the bytes. -/
structure Spelled (a b c : String) (cs ms : List String) : Prop where
  coeffsAddr : Literal.value? a.toList = some (d.coeffsAddr : Int)
  dataAddr : Literal.value? b.toList = some (d.dataAddr : Int)
  dest : Literal.value? c.toList = some (d.dest : Int)
  coeffs : Literal.Bytes (cs.map String.toList) d.coeffs.toList
  data : Literal.Bytes (ms.map String.toList) d.data.toList

/-- A line with an address and a zero as the operands of its instruction. -/
theorem writtenAs_addr {op : Op} {n : Nat} {line addr : String}
    (text : line.toList = op.opcode.mnemonic.toList ++ ' ' :: (addr.toList ++ ", 0".toList))
    (fields : op.opcode.format.fields = [.maddr, .caddr]) (maddr : op.maddr = .ofNat 32 n)
    (caddr : op.caddr = 0) (hn : n < memorySize)
    (hv : Literal.value? addr.toList = some (n : Int)) : op.WrittenAs line.toList := by
  refine ⟨[addr.toList, ['0']], ?_, ?_⟩
  · rw [Op.Spelled, fields]
    refine .cons ?_ (.cons ?_ .nil)
    · rw [hv, Op.field, maddr, toNat_addr hn]
    · rw [Op.field, caddr]
      decide
  · rw [text]
    simp [Op.line, List.intercalate_cons_cons]

variable {d} {a b c : String} {cs ms : List String}

namespace Spelled

theorem writtenAs_codeLines (h : d.Spelled a b c cs ms) :
    List.Forall₂ Op.WrittenAs d.program ((codeLines a b c).map String.toList) := by
  obtain ⟨coeffs, data, dest⟩ := d.inside
  have base : (Op.setBase .vbp 0).WrittenAs "SetVBP 0".toList :=
    ⟨[['0']], .cons (by decide) .nil, by simp [Op.line, Op.opcode, Opcode.mnemonic]⟩
  have load : (Op.load .coeff0 (.ofNat 32 d.coeffsAddr) 0).WrittenAs
      ("LoadCoeff0 " ++ a ++ ", 0").toList :=
    writtenAs_addr (by simp [Op.opcode, Opcode.mnemonic]) rfl rfl rfl coeffs h.coeffsAddr
  have macc : (Op.macc (.sum false) (.ofNat 32 d.dataAddr) 0).WrittenAs
      ("MACC " ++ b ++ ", 0").toList :=
    writtenAs_addr (by simp [Op.opcode, Opcode.mnemonic]) rfl rfl rfl data h.dataAddr
  have store : (Op.store .both false (.ofNat 32 d.dest) 0).WrittenAs
      ("Store " ++ c ++ ", 0").toList :=
    writtenAs_addr (by simp [Op.opcode, Opcode.mnemonic]) rfl rfl rfl (Nat.lt_of_succ_lt dest)
      h.dest
  have ret : Op.ret.WrittenAs "Return".toList :=
    ⟨[], .nil, by simp [Op.line, Op.opcode, Opcode.mnemonic]⟩
  exact .cons base (.cons load (.cons macc (.cons store (.cons ret .nil))))

/-- Both ways to join the lines of the listing read back. -/
theorem lines_joined (h : d.Spelled a b c cs ms) {source : String}
    (hs : source = unlines (lines a b c cs ms) ∨ source = "\n".intercalate (lines a b c cs ms)) :
    Text.lines source.toList = listing a b c cs ms := by
  have texts : (lines a b c cs ms).map String.toList = listing a b c cs ms := by
    simp [lines, listing, rowText, String.toList_intercalate]
  have isText : ∀ t ∈ (lines a b c cs ms).map String.toList, IsLine t ∧ t ≠ [] := by
    rw [texts, listing, List.forall_mem_cons, List.forall_mem_append]
    refine ⟨⟨by simp [IsLine], by simp⟩, Op.isText_of_writtenAs h.writtenAs_codeLines, ?_⟩
    simp only [List.cons_append, List.nil_append, List.forall_mem_cons]
    exact ⟨Assembler.isText_data h.coeffsAddr, h.coeffs.isText_rowText (by simp),
      Assembler.isText_data h.dataAddr, h.data.isText_rowText (by simp), by simp⟩
  rw [Text.lines_joined hs (fun l hl => (isText _ (List.mem_map_of_mem hl)).1.isUnbroken)
    fun l hl => (isText _ (List.mem_map_of_mem hl)).2, texts]

end Spelled

theorem zipIdx_listing (a b c : String) (cs ms : List String) :
    (listing a b c cs ms).zipIdx 1 =
      (".code".toList, 1) :: (((codeLines a b c).map String.toList).zipIdx 2 ++
        ([".data ".toList ++ a.toList, rowText (cs.map String.toList)].zipIdx 7 ++
          [".data ".toList ++ b.toList, rowText (ms.map String.toList)].zipIdx 9)) := by
  rw [listing, List.zipIdx_cons, List.zipIdx_append, List.zipIdx_append]
  rfl

/-- The assembler after the lines of the listing. -/
theorem exists_foldlM_feedLine (h : d.Spelled a b c cs ms) :
    ∃ e, ((listing a b c cs ms).zipIdx 1).foldlM Program.feedLine {} = .ok e ∧ e.symbols = {} ∧
      (e.insns.toList.map fun i => (i.position, i.encode)) = wordsFrom 0 d.program ∧
      e.image = (Image.empty.setWords
        (Image.wordsAt d.coeffsAddr (Assembler.wordsOf d.coeffs.toList))).setWords
        (Image.wordsAt d.dataAddr (Assembler.wordsOf d.data.toList)) := by
  have enter : Assembler.feed {} 1 ".code".toList = ({ current := some .code }, .ok ()) :=
    Assembler.feed_enter_nil 1 (by decide)
  have bytes (v : Vector Byte 8) : v.toList.length = 8 := Vector.length_toList
  have filled (v : Vector Byte 8) : v.toList ≠ [] := List.ne_nil_of_length_eq_add_one (bytes v)
  have full (v : Vector Byte 8) : v.toList.length % 4 = 0 := by rw [bytes]
  have data_le : d.dataAddr + d.data.toList.length ≤ memorySize := by
    rw [bytes]
    exact d.data_le
  have coeffs_le : d.coeffsAddr + d.coeffs.toList.length ≤ d.dataAddr := by
    rw [bytes]
    exact d.coeffs_le
  have room : 0 + 4 * d.program.length < UInt64.size := by
    change 0 + 4 * 5 < UInt64.size
    decide
  obtain ⟨e₁, fed₁, -, cursor₁, symbols₁, image₁, insns₁⟩ :=
    foldlM_feedLine_written h.writtenAs_codeLines (a := { current := some .code }) rfl room 2
  have reach₁ : e₁.cursor ≤ d.coeffsAddr := by
    rw [cursor₁]
    exact d.le_coeffs
  obtain ⟨e₂, fed₂, cursor₂, symbols₂, insns₂, image₂⟩ :=
    Assembler.foldlM_feedLine_data h.coeffsAddr reach₁ d.coeffs_aligned h.coeffs (filled _)
      (full _) (by omega) 7
  have reach₂ : e₂.cursor ≤ d.dataAddr := by rwa [cursor₂]
  obtain ⟨e₃, fed₃, -, symbols₃, insns₃, image₃⟩ :=
    Assembler.foldlM_feedLine_data h.dataAddr reach₂ d.data_aligned h.data (filled _) (full _)
      data_le 9
  refine ⟨e₃, ?_, by rw [symbols₃, symbols₂, symbols₁], ?_, by rw [image₃, image₂, image₁]⟩
  · rw [zipIdx_listing, List.foldlM_cons, Program.feedLine, enter]
    dsimp only [bind, Except.bind]
    rw [List.foldlM_append, fed₁]
    dsimp only [bind, Except.bind]
    rw [List.foldlM_append, fed₂]
    exact fed₃
  · rw [insns₃, insns₂, insns₁]
    exact map_insnsFrom 2 0 d.program

/-- The listing assembles to the words of the operands and of the program. -/
theorem exists_assemble (h : d.Spelled a b c cs ms) {source : String}
    (hs : source = unlines (lines a b c cs ms) ∨ source = "\n".intercalate (lines a b c cs ms)) :
    ∃ p, Program.assemble source = .ok p ∧ p.image = Image.empty.setWords d.words := by
  obtain ⟨e, fed, symbols, insns, image⟩ := exists_foldlM_feedLine h
  have inside : ∀ i ∈ e.insns.toList, i.position + 4 ≤ memorySize := by
    intro i hi
    have mem : (i.position, i.encode) ∈ wordsFrom 0 d.program := insns ▸ List.mem_map_of_mem hi
    exact d.fits_words _ (List.mem_append_right _ (List.mem_append_right _ mem))
  have assembled : Program.assemble source = e.finish := by
    rw [Program.assemble, h.lines_joined hs, Program.ofLines, fed]
  refine ⟨_, assembled.trans (e.finish_of_symbols_eq_empty symbols inside), ?_⟩
  rw [insns, image, words, Image.setWords_append, Image.setWords_append]

/-- The listing assembles, and its program runs to the end: at the destination it leaves the sum of
the products, clamped to a signed byte, behind it a zero, and nothing else. -/
theorem assemble_run (h : d.Spelled a b c cs ms) {source : String}
    (hs : source = unlines (lines a b c cs ms) ∨ source = "\n".intercalate (lines a b c cs ms)) :
    ∃ p m, Program.assemble source = .ok p ∧ p.image.clearDefined.run 0 = .ok m ∧
      (m.byte (.ofNat 17 d.dest)).toInt = max (-128) (min 127 d.sum) ∧
      m.byte (.ofNat 17 (d.dest + 1)) = 0 ∧
      (∀ x, m.isDefined x ↔ x.toNat = d.dest ∨ x.toNat = d.dest + 1) ∧
      ∀ x, x.toNat ≠ d.dest → x.toNat ≠ d.dest + 1 → m.byte x = p.image.byte x := by
  obtain ⟨p, assembles, image⟩ := exists_assemble h hs
  -- clearing the mask keeps the bytes, and so the words
  have holds : p.image.clearDefined.Holds d.program := by
    have whole := d.holds_setWords Image.empty
    rw [← image] at whole
    exact ⟨whole.word, whole.fits, whole.length_le⟩
  have sum : d.sumIn p.image.clearDefined = d.sum := by
    have whole := d.sumIn_setWords Image.empty
    rw [← image] at whole
    exact whole
  have last := d.inside.2.2
  have toNat {n : Nat} (hn : n < memorySize) : (BitVec.ofNat 17 n).toNat = n :=
    (Image.eq_ofNat_iff hn).1 rfl
  refine ⟨p, d.store p.image.clearDefined, assembles, run_of_holds holds, ?_, ?_, fun x => ?_,
    fun x hx hx' => ?_⟩
  · rw [byte_store, toNat (Nat.lt_of_succ_lt last), if_neg (Nat.ne_of_lt (Nat.lt_succ_self _)),
      if_pos rfl, toInt_saturate, BitVec.sshiftRight_zero, sumIn, toInt_innerProduct, ← sumIn, sum]
    rfl
  · rw [byte_store, toNat last, if_pos rfl]
  · rw [isDefined_store_iff, Image.isDefined_clearDefined]
    simp
  · rw [byte_store, if_neg hx', if_neg hx, Image.byte_clearDefined]

/-- A sum of -120.  The result overwrites the last coefficient. -/
def overlapping : DotProduct where
  coeffs := #v[3, 0xfd, 7, 0x80, 1, 2, 0, 0x7f]
  data := #v[1, 2, 0xff, 0, 5, 6, 7, 0xff]
  coeffsAddr := 0x100
  dataAddr := 0x200
  dest := 0x107
  coeffs_aligned := by decide
  data_aligned := by decide
  le_coeffs := by decide
  coeffs_le := by decide
  data_le := by decide
  le_dest := by decide
  dest_le := by decide

theorem assemble_run_overlapping :
    overlapping.Spelled "0x100" "0x200" "263" ["3", "0xfd", "7", "128", "1", "2", "0", "0x7f"]
      ["1", "+2", "255", "0", "5", "6", "7", "0xff"] ∧
    ∃ p m, Program.assemble (".code\nSetVBP 0\nLoadCoeff0 0x100, 0\nMACC 0x200, 0\n" ++
        "Store 263, 0\nReturn\n.data 0x100\n3 0xfd 7 128 1 2 0 0x7f\n" ++
        ".data 0x200\n1 +2 255 0 5 6 7 0xff") = .ok p ∧
      p.image.clearDefined.run 0 = .ok m ∧ (m.byte 0x107).toInt = -120 ∧ m.byte 0x108 = 0 ∧
      m.isDefined 0x106 = false ∧ m.isDefined 0x107 ∧ m.isDefined 0x108 := by
  have spelled : overlapping.Spelled "0x100" "0x200" "263"
      ["3", "0xfd", "7", "128", "1", "2", "0", "0x7f"]
      ["1", "+2", "255", "0", "5", "6", "7", "0xff"] :=
    { coeffsAddr := by decide +kernel
      dataAddr := by decide +kernel
      dest := by decide +kernel
      coeffs := by
        unfold Literal.Bytes
        decide +kernel
      data := by
        unfold Literal.Bytes
        decide +kernel }
  obtain ⟨p, m, assembles, runs, sum, zero, defined, -⟩ := assemble_run spelled (.inr rfl)
  refine ⟨spelled, p, m, assembles, runs, sum.trans (by decide), zero, ?_, ?_, ?_⟩
  · rw [← Bool.not_eq_true, defined]
    decide
  · exact (defined _).2 (by decide)
  · exact (defined _).2 (by decide)

end DotProduct

end Macc
