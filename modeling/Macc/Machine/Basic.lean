import Macc.Image.Basic

/-!
# The machine

A `Machine` is the architectural state of the accelerator: program counter, base registers,
accumulators, caches, memory and call stack.  The types of the registers and caches bound their
values; accumulators are words read as signed numbers.  `setBase` and `load` are the two ways in
which instructions change registers and caches as a whole.
-/

namespace Macc

abbrev cacheSize : Nat := 0x200

/-- The state of the accelerator.  The newest entry of the call stack is its last. -/
structure Machine where
  pc : Nat := 0
  vbp : Address := 0
  lbp : Address := 0
  sbp : Address := 0
  cbp : Slot := 0
  acc0 : Word := 0
  acc1 : Word := 0
  code : Vector Word cacheSize := Vector.replicate cacheSize 0
  coeff0 : Vector Dword cacheSize := Vector.replicate cacheSize 0
  coeff1 : Vector Dword cacheSize := Vector.replicate cacheSize 0
  mem : Image := .empty
  stack : Array Nat := #[]

namespace Machine

/-! ### Call stack -/

def depth (m : Machine) : Nat := m.stack.size

/-- Put a return address onto the call stack. -/
def pushReturn (m : Machine) (back : Nat) : Machine := { m with stack := m.stack.push back }

/-- Go back to an address, the newest on the call stack, and take it off. -/
def returnTo (m : Machine) (back : Nat) : Machine := { m with pc := back, stack := m.stack.pop }

/-! ### Base registers -/

def base (m : Machine) : Base → Word
  | .vbp => m.vbp.setWidth 32
  | .lbp => m.lbp.setWidth 32
  | .sbp => m.sbp.setWidth 32
  | .cbp => m.cbp.setWidth 32

/-- Set a base register, which keeps as many low bits as it has. -/
def setBase (m : Machine) (b : Base) (v : Word) : Machine :=
  match b with
  | .vbp => { m with vbp := v.setWidth 17 }
  | .lbp => { m with lbp := v.setWidth 17 }
  | .sbp => { m with sbp := v.setWidth 17 }
  | .cbp => { m with cbp := v.setWidth 9 }

theorem base_setBase_of_ne (m : Machine) {b b' : Base} (h : b' ≠ b) (v : Word) :
    (m.setBase b v).base b' = m.base b' := by
  cases b <;> cases b' <;> first | rfl | exact absurd rfl h

/-! ### Caches -/

/-- Load one entry of a cache from memory. -/
def load (m : Machine) (cache : Cache) (src : Address) (slot : Slot) : Machine :=
  match cache with
  | .code => { m with code := m.code.set slot.toNat (m.mem.word src) slot.isLt }
  | .coeff0 => { m with coeff0 := m.coeff0.set slot.toNat (m.mem.dword src) slot.isLt }
  | .coeff1 => { m with coeff1 := m.coeff1.set slot.toNat (m.mem.dword src) slot.isLt }

/-- Load `n` consecutive entries of a cache from consecutive addresses.  Both wrap around. -/
def loadMany (m : Machine) (cache : Cache) (src : Address) (slot : Slot) : Nat → Machine
  | 0 => m
  | n + 1 =>
    (m.load cache src slot).loadMany cache (src + BitVec.ofNat 17 cache.stride) (slot + 1) n

theorem mem_load (m : Machine) (cache : Cache) (src : Address) (slot : Slot) :
    (m.load cache src slot).mem = m.mem := by
  cases cache <;> rfl

end Machine

end Macc
