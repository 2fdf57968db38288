import Macc.Proofs.Machine.WordArithmetic

/-!
# What always holds of a machine

Whatever is done with a fresh machine (`Session.Use`), its registers, caches and memory keep their
sizes, the program counter stays within an instruction of memory and the call stack holds addresses
behind instructions (`Machine.Architectural`).  Most of this the types say; what they do not say
(`Machine.ControlInRange`) every change of the machine preserves.  So indices that are cut to the
width of an address are in bounds (`Machine.IndicesInRange`).
-/

namespace Macc

open Relation

namespace Machine

/-! ### The invariant -/

/-- Where the program counter may be and what may be on the call stack.  A load and its repeat at
the end of memory put the program counter furthest. -/
structure ControlInRange (m : Machine) : Prop where
  pc_le : m.pc ≤ memorySize + 4
  back : ∀ back ∈ m.stack, back % 4 = 0 ∧ 0 < back ∧ back ≤ memorySize

/-- The values of the registers and the sizes of the arrays. -/
structure Architectural (m : Machine) : Prop extends ControlInRange m where
  base_lt : ∀ b, (m.base b).toNat < if b = .cbp then 2 ^ 9 else 2 ^ 17
  size_code : m.code.toArray.size = 512
  size_coeff0 : m.coeff0.toArray.size = 512
  size_coeff1 : m.coeff1.toArray.size = 512
  size_bytes : m.mem.bytes.toArray.size = 131072
  size_mask : m.mem.mask.toArray.size = 131072

variable {m n : Machine}

theorem toNat_setWidth_lt {w : Nat} (h : w ≤ 32) (v : BitVec w) :
    (v.setWidth 32).toNat < 2 ^ w := by
  rw [BitVec.toNat_setWidth_of_le h]
  exact v.isLt

theorem ControlInRange.toArchitectural (h : m.ControlInRange) : m.Architectural where
  toControlInRange := h
  base_lt b := by
    cases b with
    | cbp => exact toNat_setWidth_lt (by decide) m.cbp
    | vbp => exact toNat_setWidth_lt (by decide) m.vbp
    | lbp => exact toNat_setWidth_lt (by decide) m.lbp
    | sbp => exact toNat_setWidth_lt (by decide) m.sbp
  size_code := m.code.size_toArray
  size_coeff0 := m.coeff0.size_toArray
  size_coeff1 := m.coeff1.size_toArray
  size_bytes := m.mem.bytes.size_toArray
  size_mask := m.mem.mask.size_toArray

theorem Change.controlInRange (h : m.Change n) (hm : m.ControlInRange) : n.ControlInRange := by
  cases h with
  | apply op =>
    have same := m.sameControl_apply op
    exact ⟨same.pc ▸ hm.pc_le, same.stack ▸ hm.back⟩
  | load cache src slot =>
    exact ⟨m.pc_load cache src slot ▸ hm.pc_le, m.stack_load cache src slot ▸ hm.back⟩
  | pushReturn hpc =>
    obtain ⟨inside, aligned⟩ := (pcFault?_eq_none_iff _).1 hpc
    refine ⟨hm.pc_le, fun back hback => ?_⟩
    rcases Array.mem_push.1 hback with before | rfl
    · exact hm.back back before
    · rw [memorySize] at *
      omega
  | @returnTo back hback =>
    have top : back ∈ m.stack := Array.mem_of_back? hback
    refine ⟨Nat.le_trans (hm.back back top).2.2 (Nat.le_add_right _ _), fun b hb => ?_⟩
    obtain ⟨i, hi, rfl⟩ := Array.mem_iff_getElem.1 hb
    exact hm.back _ (Array.getElem_pop hi ▸ Array.getElem_mem _)
  | jump hpc => exact ⟨Nat.le_add_right_of_le (Nat.le_of_lt hpc), hm.back⟩
  | skip hpc hn =>
    obtain ⟨inside, aligned⟩ := (pcFault?_eq_none_iff _).1 hpc
    refine ⟨?_, hm.back⟩
    dsimp only
    rw [memorySize] at *
    omega

theorem ControlInRange.of_changes (h : ReflTransGen Change m n) (hm : m.ControlInRange) :
    n.ControlInRange := by
  induction h with
  | refl => exact hm
  | tail _ change ih => exact change.controlInRange ih

/-! ### Indices -/

/-- Whatever 32-bit number an index is computed as, its low bits are the index that the types
allow, and it is in bounds. -/
structure IndicesInRange (m : Machine) : Prop where
  memory : ∀ addr : Word, addr &&& 0x1ffff = (addr.setWidth 17).setWidth 32 ∧
    (addr &&& 0x1ffff).toNat < m.mem.bytes.toArray.size ∧
    (addr &&& 0x1ffff).toNat < m.mem.mask.toArray.size
  cache : ∀ slot : Word, slot &&& 0x1ff = (slot.setWidth 9).setWidth 32 ∧
    (slot &&& 0x1ff).toNat < m.code.toArray.size ∧
    (slot &&& 0x1ff).toNat < m.coeff0.toArray.size ∧
    (slot &&& 0x1ff).toNat < m.coeff1.toArray.size

/-- To keep the low bits of a number is to cut it to their width. -/
theorem and_mask_eq {w : Nat} (h : w ≤ 32) (v : Word) :
    v &&& .ofNat 32 (2 ^ w - 1) = (v.setWidth w).setWidth 32 := by
  have mask : 2 ^ w - 1 < 2 ^ 32 :=
    Nat.lt_of_lt_of_le (Nat.sub_one_lt (Nat.ne_of_gt (Nat.two_pow_pos w)))
      (Nat.pow_le_pow_right (by decide) h)
  apply BitVec.eq_of_toNat_eq
  rw [BitVec.toNat_and, BitVec.toNat_ofNat, Nat.mod_eq_of_lt mask, Nat.and_two_pow_sub_one_eq_mod,
    BitVec.toNat_setWidth_of_le h, BitVec.toNat_setWidth]

theorem Architectural.indicesInRange (h : m.Architectural) : m.IndicesInRange where
  memory addr := by
    have masked : addr &&& 0x1ffff = _ := and_mask_eq (w := 17) (by decide) addr
    rw [h.size_bytes, h.size_mask, masked]
    exact ⟨rfl, toNat_setWidth_lt (by decide) _, toNat_setWidth_lt (by decide) _⟩
  cache slot := by
    have masked : slot &&& 0x1ff = _ := and_mask_eq (w := 9) (by decide) slot
    rw [h.size_code, h.size_coeff0, h.size_coeff1, masked]
    exact ⟨rfl, toNat_setWidth_lt (by decide) _, toNat_setWidth_lt (by decide) _,
      toNat_setWidth_lt (by decide) _⟩

end Machine

namespace Session

/-- What can be done with a session: instructions of the datapath, runs, and changes of the
accumulators, the memory, the counters and the trace from outside. -/
inductive Use (s : Session) : Session → Prop
  | exec (op : Op) : Use s (s.exec op).1
  | run (limits : Limits) (start : Nat) : Use s (s.run limits start).1
  | setAcc (acc0 acc1 : Word) : Use s { s with machine := { s.machine with acc0, acc1 } }
  | setMem (mem : Image) : Use s { s with machine := { s.machine with mem } }
  | setContext (counters : Counters) (trace : Option Trace) : Use s { s with counters, trace }

/-- What can become of a fresh machine with any memory. -/
def Reachable (s : Session) : Prop :=
  ∃ mem, ReflTransGen Use { machine := { mem } } s

variable {s t : Session}

theorem Use.controlInRange (h : s.Use t) (hs : s.machine.ControlInRange) :
    t.machine.ControlInRange := by
  cases h with
  | exec op => exact .of_changes (s.evolves_exec op).changes hs
  | run limits start => exact .of_changes (changes_run limits start s) hs
  | setAcc acc0 acc1 => exact ⟨hs.pc_le, hs.back⟩
  | setMem mem => exact ⟨hs.pc_le, hs.back⟩
  | setContext counters trace => exact hs

theorem Reachable.controlInRange (h : s.Reachable) : s.machine.ControlInRange := by
  obtain ⟨mem, uses⟩ := h
  induction uses with
  | refl => exact ⟨Nat.zero_le _, fun _ h => nomatch h⟩
  | tail _ use ih => exact use.controlInRange ih

/-- The invariant of the machine, and what follows from it: indices are in bounds, and a run needs no
more than 32 bits for the arithmetic of the sequencer. -/
theorem Reachable.architectural (h : s.Reachable) :
    s.machine.Architectural ∧ s.machine.IndicesInRange ∧
      ∀ limits start, s.run? limits start = some (s.run limits start) :=
  have architectural := h.controlInRange.toArchitectural
  ⟨architectural, architectural.indicesInRange, fun limits start => run?_eq limits start s⟩

/-- A program that calls a procedure and stops in another one that it calls. -/
def interruptedCalls : Session :=
  ((ofProgram [.call 8, .ret, .load .code 0 511, .continueLoad 1, .call 24, .ret, .sync]).run
    { maxSteps := 3 } 0).1

theorem architectural_interruptedCalls :
    interruptedCalls.Reachable ∧ interruptedCalls.machine.pc = 24 ∧
      interruptedCalls.machine.stack = #[4, 20] ∧
      interruptedCalls.machine.Architectural ∧ interruptedCalls.machine.IndicesInRange ∧
      ∀ limits start,
        interruptedCalls.run? limits start = some (interruptedCalls.run limits start) :=
  have reachable : interruptedCalls.Reachable := ⟨_, .single (.run _ 0)⟩
  ⟨reachable, rfl, rfl, reachable.architectural⟩

end Session

end Macc
