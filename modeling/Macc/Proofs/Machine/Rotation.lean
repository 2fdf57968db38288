import Macc.Proofs.Image.Words
import Macc.Proofs.Machine.Change
import Mathlib.Data.BitVec

/-!
# Rotated memory and caches

Memory and the coefficient caches are rings, and the datapath finds its way around them by its base
registers only.  When the contents of the rings and the registers are moved by the same distances
(`Machine.Rotated`), instructions that do not set a register to a fixed value work as before
(`Machine.Rotated.apply`), as long as addresses keep their parity.  So a sequence of instructions
comes to the same accumulators and counters, stops at the same place, and leaves rings that are
moved by these distances (`Session.rotated_execAll`).
-/

namespace Macc

/-! ### Images -/

namespace Image

/-- Every byte of the second image lies `d` addresses behind that of the first, around the end of
memory. -/
structure Rotated (d : Address) (m n : Image) : Prop where
  byte : ∀ a, n.byte (a + d) = m.byte a
  isDefined : ∀ a, n.isDefined (a + d) = m.isDefined a

/-- The image with every byte moved by `d` addresses. -/
def rotate (d : Address) (m : Image) : Image :=
  ⟨.ofFn fun i => m.byte (.ofFin i - d), .ofFn fun i => m.isDefined (.ofFin i - d)⟩

theorem rotated_rotate (d : Address) (m : Image) : m.Rotated d (m.rotate d) where
  byte a := by
    refine (Vector.getElem_ofFn (a + d).isLt).trans ?_
    exact congrArg m.byte (BitVec.add_sub_cancel a d)
  isDefined a := by
    refine (Vector.getElem_ofFn (a + d).isLt).trans ?_
    exact congrArg m.isDefined (BitVec.add_sub_cancel a d)

namespace Rotated

variable {d : Address} {m n : Image} (h : m.Rotated d n)

include h

theorem setByte (a : Address) (v : Byte) :
    (m.setByte a v).Rotated d (n.setByte (a + d) v) where
  byte x := by simp only [byte_setByte, h.byte, BitVec.add_left_inj]
  isDefined x := by
    rw [Bool.eq_iff_iff, isDefined_setByte, isDefined_setByte, h.isDefined, BitVec.add_left_inj]

theorem write (a : Address) (bs : List Byte) : (m.write a bs).Rotated d (n.write (a + d) bs) := by
  induction bs generalizing m n a with
  | nil => exact h
  | cons b bs ih =>
    rw [Image.write, Image.write, add_right_comm]
    exact ih (h.setByte a b) (a + 1)

theorem setWord (a : Address) (v : Word) : (m.setWord a v).Rotated d (n.setWord (a + d) v) :=
  h.write a (wordBytes v)

theorem word (a : Address) : n.word (a + d) = m.word a :=
  word_congr fun k _ => by rw [add_right_comm, h.byte]

theorem dword (a : Address) : n.dword (a + d) = m.dword a := by
  rw [Image.dword, Image.dword, add_right_comm, h.word, h.word]

end Rotated

end Image

/-! ### Machines -/

/-- The same fault, with the address of misaligned data `d` behind. -/
def Fault.rotate (d : Address) : Fault → Fault
  | misaligned access addr => misaligned access ((addr + d.toNat) % memorySize)
  | f => f

theorem getLsbD_zero_add {d : Address} (hd : Even d.toNat) (a : Address) :
    (a + d).getLsbD 0 = a.getLsbD 0 := by
  obtain ⟨k, hk⟩ := hd
  rw [BitVec.getLsbD, BitVec.getLsbD, Nat.testBit_zero, Nat.testBit_zero, BitVec.toNat_add,
    decide_eq_decide]
  omega

/-- To add a word to a register is to add its low bits. -/
theorem setWidth_setWidth_add {w : Nat} (h : w ≤ 32) (a : BitVec w) (v : Word) :
    (a.setWidth 32 + v).setWidth w = a + v.setWidth w := by
  rw [BitVec.setWidth_add _ _ h, BitVec.setWidth_setWidth_of_le _ h, BitVec.setWidth_eq]

namespace Machine

/-- The accumulators are the same, the second memory is moved by `d` addresses and the second
coefficient caches by `e` entries, and the base registers are moved with what they point into. -/
structure Rotated (d : Address) (e : Slot) (m n : Machine) : Prop where
  acc0 : n.acc0 = m.acc0
  acc1 : n.acc1 = m.acc1
  mem : m.mem.Rotated d n.mem
  coeff0 : ∀ i : Slot, n.coeff0[(i + e).toFin] = m.coeff0[i.toFin]
  coeff1 : ∀ i : Slot, n.coeff1[(i + e).toFin] = m.coeff1[i.toFin]
  vbp : n.vbp = m.vbp + d
  lbp : n.lbp = m.lbp + d
  sbp : n.sbp = m.sbp + d
  cbp : n.cbp = m.cbp + e

/-- The machine with its memory moved by `d` addresses and its coefficient caches by `e` entries. -/
def rotate (d : Address) (e : Slot) (m : Machine) : Machine :=
  { m with
    vbp := m.vbp + d
    lbp := m.lbp + d
    sbp := m.sbp + d
    cbp := m.cbp + e
    coeff0 := .ofFn fun i => m.coeff0[(BitVec.ofFin i - e).toFin]
    coeff1 := .ofFn fun i => m.coeff1[(BitVec.ofFin i - e).toFin]
    mem := m.mem.rotate d }

theorem rotated_rotate (d : Address) (e : Slot) (m : Machine) : m.Rotated d e (m.rotate d e) where
  acc0 := rfl
  acc1 := rfl
  mem := m.mem.rotated_rotate d
  coeff0 i := by
    refine (Vector.getElem_ofFn (i + e).isLt).trans ?_
    exact congrArg (fun j : Slot => m.coeff0[j.toFin]) (BitVec.add_sub_cancel i e)
  coeff1 i := by
    refine (Vector.getElem_ofFn (i + e).isLt).trans ?_
    exact congrArg (fun j : Slot => m.coeff1[j.toFin]) (BitVec.add_sub_cancel i e)
  vbp := rfl
  lbp := rfl
  sbp := rfl
  cbp := rfl

namespace Rotated

variable {d : Address} {e : Slot} {m n : Machine} (h : m.Rotated d e n)

include h

theorem withAcc (acc0 acc1 : Word) :
    ({ m with acc0, acc1 } : Machine).Rotated d e { n with acc0, acc1 } :=
  { h with acc0 := rfl, acc1 := rfl }

theorem withMem {mem mem' : Image} (hm : mem.Rotated d mem') :
    ({ m with mem } : Machine).Rotated d e { n with mem := mem' } :=
  { h with mem := hm }

theorem addBase (b : Base) (v : Word) :
    (m.setBase b (m.base b + v)).Rotated d e (n.setBase b (n.base b + v)) := by
  have moved {w : Nat} (hw : w ≤ 32) {a a' k : BitVec w} (ha : a' = a + k) :
      (a'.setWidth 32 + v).setWidth w = (a.setWidth 32 + v).setWidth w + k := by
    rw [setWidth_setWidth_add hw, setWidth_setWidth_add hw, ha, add_right_comm]
  cases b with
  | vbp => exact { h with vbp := moved (by decide) h.vbp }
  | lbp => exact { h with lbp := moved (by decide) h.lbp }
  | sbp => exact { h with sbp := moved (by decide) h.sbp }
  | cbp => exact { h with cbp := moved (by decide) h.cbp }

theorem setByte (c : Bool) {a a' : Address} (ha : a' = a + d) {v v' : Byte} (hv : v' = v) :
    (if c then { m with mem := m.mem.setByte a v } else m).Rotated d e
      (if c then { n with mem := n.mem.setByte a' v' } else n) := by
  subst ha hv
  cases c with
  | true => exact h.withMem (h.mem.setByte a v')
  | false => exact h

theorem setWord (c : Bool) {a a' : Address} (ha : a' = a + d) {v v' : Word} (hv : v' = v) :
    (if c then { m with mem := m.mem.setWord a v } else m).Rotated d e
      (if c then { n with mem := n.mem.setWord a' v' } else n) := by
  subst ha hv
  cases c with
  | true => exact h.withMem (h.mem.setWord a v')
  | false => exact h

end Rotated

/-- What an instruction comes to in two machines, the second of them rotated. -/
structure RotatedOutcomes (d : Address) (e : Slot) (x y : Machine × Except Fault Effect) : Prop where
  machine : x.1.Rotated d e y.1
  fault : y.2.map (fun _ => ()) = (x.2.map fun _ => ()).mapError (Fault.rotate d)

variable {d : Address} {e : Slot} {m n : Machine}

/-- Both faults and both results of an instruction with a precondition correspond. -/
theorem Rotated.guarded (h : m.Rotated d e n) {m' n' : Machine} {c c' : Prop} [Decidable c]
    [Decidable c'] {f f' : Fault} {effect effect' : Effect} (hc : c' ↔ c) (hf : f' = f.rotate d)
    (h' : m'.Rotated d e n') :
    RotatedOutcomes d e (if c then (m, .error f) else (m', .ok effect))
      (if c' then (n, .error f') else (n', .ok effect')) := by
  by_cases hm : c
  · rw [if_pos hm, if_pos (hc.2 hm), hf]
    exact ⟨h, rfl⟩
  · rw [if_neg hm, if_neg fun hn => hm (hc.1 hn)]
    exact ⟨h', rfl⟩

/-- An instruction that does not set a base register comes to the same in a rotated machine, with
addresses moved. -/
theorem Rotated.apply (h : m.Rotated d e n) (hd : Even d.toNat) {op : Op}
    (hop : ∀ b v, op ≠ .setBase b v) : RotatedOutcomes d e (m.apply op) (n.apply op) := by
  have moved {r r' : Address} (hr : r' = r + d) (addr : Word) :
      r' + addr.setWidth 17 = r + addr.setWidth 17 + d := by
    rw [hr, add_right_comm]
  have behind {a a' : Address} (ha : a' = a + d) (k : Address) : a' + k = a + k + d := by
    rw [ha, add_right_comm]
  have parity {a a' : Address} (ha : a' = a + d) : a'.getLsbD 0 ↔ a.getLsbD 0 := by
    rw [ha, getLsbD_zero_add hd]
  have misaligned (access : Access) {a a' : Address} (ha : a' = a + d) :
      Fault.misaligned access a'.toNat = (Fault.misaligned access a.toNat).rotate d := by
    rw [ha, BitVec.toNat_add]
    rfl
  -- all addresses and entries come from a base register, which is moved
  cases op with
  | setBase b v => exact absurd rfl (hop b v)
  | addBase b v => exact ⟨h.addBase b v, rfl⟩
  | store lanes relu addr shift =>
    have ea := moved h.sbp addr
    refine h.guarded Iff.rfl rfl ?_
    exact (h.setByte _ ea (by rw [h.acc0])).setByte _ (behind ea 1) (by rw [h.acc1])
  | save lanes addr =>
    have ea := moved h.sbp addr
    refine h.guarded (parity ea) (misaligned _ ea) ?_
    have saved := h.setWord lanes.has0 ea h.acc0
    exact saved.setWord _ (behind ea 4) saved.acc1
  | fetch combine lanes addr =>
    have ea := moved h.lbp addr
    refine h.guarded (parity ea) (misaligned _ ea) ?_
    rw [h.acc0, h.acc1, behind ea, ea, h.mem.word, h.mem.word]
    exact h.withAcc _ _
  | macc reduce addr slot =>
    have ea := moved h.vbp addr
    refine h.guarded (parity ea) (misaligned _ ea) ?_
    have entry : n.cbp + slot.setWidth 9 = m.cbp + slot.setWidth 9 + e := by
      rw [h.cbp, add_right_comm]
    have coeff0 {i i' : Slot} (hi : i' = i + e) : n.coeff0[i'.toFin] = m.coeff0[i.toFin] := by
      subst hi
      exact h.coeff0 i
    have coeff1 {i i' : Slot} (hi : i' = i + e) : n.coeff1[i'.toFin] = m.coeff1[i.toFin] := by
      subst hi
      exact h.coeff1 i
    rw [h.acc0, h.acc1, ea, h.mem.dword, coeff0 entry, coeff1 entry]
    exact h.withAcc _ _
  | _ => exact ⟨h, rfl⟩

end Machine

/-! ### Sessions -/

namespace Session

/-- Carry out instructions of the datapath, up to the first fault.  The fault is given with the
number of the instructions in front of the one at fault. -/
def execAll : List Op → Session → Session × Option (Nat × Fault)
  | [], s => (s, none)
  | op :: ops, s =>
    match s.exec op with
    | (s, .ok ()) => (execAll ops s).map id (Option.map (Prod.map (· + 1) id))
    | (s, .error f) => (s, some (0, f))

/-- Sessions without a trace whose counters agree and whose machines are rotated. -/
structure Rotated (d : Address) (e : Slot) (s t : Session) : Prop where
  machine : s.machine.Rotated d e t.machine
  counters : t.counters = s.counters
  trace : s.trace = none ∧ t.trace = none

variable {d : Address} {e : Slot} {s t : Session}

theorem Rotated.addCycles (h : s.Rotated d e t) (n : Nat) :
    (s.addCycles n).Rotated d e (t.addCycles n) :=
  ⟨h.machine, by rw [Session.addCycles, Session.addCycles, h.counters], h.trace⟩

theorem Rotated.addOp (h : s.Rotated d e t) : s.addOp.Rotated d e t.addOp :=
  ⟨h.machine, by rw [Session.addOp, Session.addOp, h.counters], h.trace⟩

/-- An instruction that does not set a base register takes as long in a rotated session and comes to
the same. -/
theorem Rotated.exec (h : s.Rotated d e t) (hd : Even d.toNat) {op : Op}
    (hop : ∀ b v, op ≠ .setBase b v) :
    (s.exec op).1.Rotated d e (t.exec op).1 ∧
      (t.exec op).2 = (s.exec op).2.mapError (Fault.rotate d) := by
  obtain ⟨machine, fault⟩ := h.machine.apply hd hop
  rcases s.exec_cases op with ⟨f, hs, hx⟩ | ⟨m, effect, hs, hx⟩ <;>
    rcases t.exec_cases op with ⟨g, ht, hy⟩ | ⟨n, effect', ht, hy⟩ <;>
    rw [hs, ht] at machine fault <;> cases fault <;> rw [hx, hy]
  · exact ⟨h.addCycles 1, rfl⟩
  · have applied : Rotated d e { s with machine := m } { t with machine := n } :=
      ⟨machine, h.counters, h.trace⟩
    have recorded {u v : Session} (huv : u.Rotated d e v) :
        (u.record op effect).1.Rotated d e (v.record op effect').1 ∧
          (v.record op effect').2 = (u.record op effect).2.mapError (Fault.rotate d) := by
      rw [record_of_trace_eq_none huv.trace.1, record_of_trace_eq_none huv.trace.2]
      exact ⟨huv, rfl⟩
    dsimp only
    split
    · exact recorded (applied.addCycles 1).addOp
    · exact recorded (applied.addCycles 1)

/-- In a rotated session, instructions that do not set a base register take as long, stop at the
same place with the same fault, but for the address of misaligned data, and leave a rotated
session. -/
theorem rotated_execAll (h : s.Rotated d e t) (hd : Even d.toNat) {ops : List Op}
    (hops : ∀ b v, .setBase b v ∉ ops) :
    (execAll ops s).1.Rotated d e (execAll ops t).1 ∧
      (execAll ops t).2 = (execAll ops s).2.map (Prod.map id (Fault.rotate d)) := by
  induction ops generalizing s t with
  | nil => exact ⟨h, rfl⟩
  | cons op ops ih =>
    have hop : ∀ b v, op ≠ .setBase b v := fun b v hop => hops b v (hop ▸ List.mem_cons_self)
    obtain ⟨rotated, result⟩ := h.exec hd hop
    rw [execAll, execAll]
    generalize s.exec op = x at rotated result
    generalize t.exec op = y at rotated result
    obtain ⟨u, outcome⟩ := x
    obtain ⟨v, outcome'⟩ := y
    obtain rfl : outcome' = _ := result
    cases outcome with
    | error f => exact ⟨rotated, rfl⟩
    | ok =>
      obtain ⟨rest, fault⟩ := ih rotated fun b v hmem => hops b v (List.mem_cons_of_mem op hmem)
      refine ⟨rest, ?_⟩
      dsimp only [Except.mapError, Prod.map]
      rw [fault, Option.map_map, Option.map_map]
      rfl

/-- A machine with data and coefficients at the ends of its rings. -/
def atTheEnds : Session where
  machine :=
    { vbp := 0x1fffa
      sbp := 0x1ffff
      cbp := 0x1ff
      acc0 := 5
      acc1 := 7
      coeff0 := (Vector.replicate cacheSize 0).set 0 0x0101010101010101
      mem := Image.empty.setByte 0 3 }

/-- A store and a reduction across the end of memory, with coefficients behind the end of their
cache, and a save to an address that is not even. -/
def acrossTheEnds : List Op :=
  [.store .both false 0 0, .addBase .cbp 1, .macc (.sum false) 0 0, .save .both 0]

theorem rotated_execAll_acrossTheEnds :
    let rotated : Session := { machine := atTheEnds.machine.rotate 6 3 }
    (execAll acrossTheEnds atTheEnds).2 = some (3, .misaligned .save 0x1ffff) ∧
      (execAll acrossTheEnds rotated).2 = some (3, .misaligned .save 5) ∧
      (execAll acrossTheEnds rotated).1.machine.mem.byte 6 = 7 ∧
      (execAll acrossTheEnds rotated).1.counters = ⟨4, 1, 0⟩ := by
  intro rotated
  have h : atTheEnds.Rotated 6 3 rotated :=
    ⟨atTheEnds.machine.rotated_rotate 6 3, rfl, rfl, rfl⟩
  have noSet : ∀ b v, .setBase b v ∉ acrossTheEnds := by simp [acrossTheEnds]
  obtain ⟨after, fault⟩ := rotated_execAll h (by decide) noSet
  have first : (execAll acrossTheEnds atTheEnds).2 = some (3, .misaligned .save 0x1ffff) := rfl
  have counters : (execAll acrossTheEnds atTheEnds).1.counters = ⟨4, 1, 0⟩ := rfl
  have moved := after.machine.mem.byte 0#17
  rw [BitVec.zero_add] at moved
  rw [first] at fault
  exact ⟨first, fault, moved.trans (by decide +kernel), after.counters.trans counters⟩

end Session

end Macc
