import Macc.Machine.Basic
import Macc.Machine.Fault
import Macc.Machine.Trace

/-!
# The datapath

`Machine.apply` is the meaning of the instructions that work on data: base registers, transfers
between accumulators and memory, and reductions.  An instruction either faults and leaves the
machine as it was, or succeeds and reports its `Effect`.  The instructions that steer the program
are not the datapath's and fault.
-/

namespace Macc

/-! ### Arithmetic -/

/-- The larger of two words as signed numbers. -/
def signedMax (v w : Word) : Word := if v.slt w then w else v

/-- An accumulator as a byte: shifted right with its sign, then moved into the range of a signed
byte, or into its non-negative half. -/
def saturate (relu : Bool) (shift : Nat) (acc : Word) : Byte :=
  BitVec.ofInt 8 (max (if relu then 0 else -128) (min 127 (acc.sshiftRight shift).toInt))

/-- The accumulator after a word is loaded. -/
def Combine.apply (c : Combine) (acc v : Word) : Word :=
  match c with
  | set => v
  | add => acc + v
  | max => signedMax acc v

/-- The signed byte of a double word in one of its eight lanes. -/
def laneByte (v : Dword) (lane : Nat) : Int := (v.extractLsb' (8 * lane) 8).toInt

/-- The accumulators that a reduction begins with. -/
def Seed.apply (s : Seed) (acc : Word × Word) : Word × Word :=
  match s with
  | keep => acc
  | zero => (0, 0)
  | min => (BitVec.intMin 32, 0)

/-- The first accumulator after one more product.  A maximum passes over zero coefficients. -/
def Reduce.apply (r : Reduce) (acc : Word) (coeff data : Int) : Word :=
  match r with
  | sum _ => acc + BitVec.ofInt 32 (coeff * data)
  | max _ => if coeff = 0 then acc else signedMax acc (BitVec.ofInt 32 (coeff * data))

/-- The accumulators after the eight products of a reduction.  The second one always sums. -/
def Reduce.fold (r : Reduce) (acc : Word × Word) (data coeff0 coeff1 : Dword) : Word × Word :=
  let lanes := List.range 8
  (lanes.foldl (fun a i => r.apply a (laneByte coeff0 i) (laneByte data i)) acc.1,
    lanes.foldl (fun a i => a + BitVec.ofInt 32 (laneByte coeff1 i * laneByte data i)) acc.2)

/-! ### Instructions -/

namespace Machine

/-- Carry out an instruction of the datapath.  After a fault the machine is what it was. -/
def apply (m : Machine) (op : Op) : Machine × Except Fault Effect :=
  match op with
  | .setBase b v =>
    let m := m.setBase b v
    (m, .ok (.base (m.base b)))
  | .addBase b v =>
    let m := m.setBase b (m.base b + v)
    (m, .ok (.base (m.base b)))
  | .store lanes relu addr shift =>
    if 32 ≤ shift.toNat then (m, .error (.shiftTooLarge shift))
    else
      let ea := m.sbp + addr.setWidth 17
      let byte0 := saturate relu shift.toNat m.acc0
      let byte1 := saturate relu shift.toNat m.acc1
      let effect := .stored m.acc0 m.acc1 byte0 byte1 ea
      let m := if lanes.has0 then { m with mem := m.mem.setByte ea byte0 } else m
      let m := if lanes.has1 then { m with mem := m.mem.setByte (ea + 1) byte1 } else m
      (m, .ok effect)
  | .save lanes addr =>
    let ea := m.sbp + addr.setWidth 17
    if ea.getLsbD 0 then (m, .error (.misaligned .save ea.toNat))
    else
      let effect := .saved m.acc0 m.acc1 ea
      let m := if lanes.has0 then { m with mem := m.mem.setWord ea m.acc0 } else m
      let m := if lanes.has1 then { m with mem := m.mem.setWord (ea + 4) m.acc1 } else m
      (m, .ok effect)
  | .fetch combine lanes addr =>
    let ea := m.lbp + addr.setWidth 17
    if ea.getLsbD 0 then (m, .error (.misaligned .load ea.toNat))
    else
      let acc0 := if lanes.has0 then combine.apply m.acc0 (m.mem.word ea) else m.acc0
      let acc1 := if lanes.has1 then combine.apply m.acc1 (m.mem.word (ea + 4)) else m.acc1
      ({ m with acc0, acc1 }, .ok (.fetched acc0 acc1))
  | .macc reduce addr slot =>
    let ea := m.vbp + addr.setWidth 17
    if ea.getLsbD 0 then (m, .error (.misaligned .vector ea.toNat))
    else
      let ci := m.cbp + slot.setWidth 9
      let data := m.mem.dword ea
      let coeff0 := m.coeff0[ci.toFin]
      let coeff1 := m.coeff1[ci.toFin]
      let (acc0, acc1) := reduce.fold (reduce.seed.apply (m.acc0, m.acc1)) data coeff0 coeff1
      ({ m with acc0, acc1 }, .ok (.reduced data ea coeff0 coeff1 ci acc0 acc1))
  | op => (m, .error (.notDatapath op.opcode))

theorem fst_apply_of_error {m : Machine} {op : Op} {f : Fault} (h : (m.apply op).2 = .error f) :
    (m.apply op).1 = m := by
  revert h
  fun_cases apply m op <;> simp_all

end Machine

end Macc
