import Macc.Proofs.Image.WordAccess
import Macc.Proofs.Machine.Faults
import Macc.Proofs.Machine.Loads

/-!
# Repeated loads

A load with a repeat behind it fills several entries of a cache.  The entries and the addresses that
they are loaded from both go around the end of their rings.  A repeat counts to less than the number
of entries, so none of them is loaded twice (`Machine.loaded_loadMany`).
`Session.exists_loadsRepeatedly` says that this is what the step does, in the cycles and with the
result of as many single loads.
-/

namespace Macc

theorem repeats?_of_continueLoad {w len : Word} (h : Op.decode w = .ok (.continueLoad len)) :
    repeats? w = .ok (some len) := by
  have number : (opcodeField w).toNat = Opcode.continueLoad.number := by
    rcases Op.decode_cases w with ⟨-, hd⟩ | ⟨o, ho, ⟨f, -, -, hd⟩ | ⟨-, hd⟩⟩ <;> rw [h] at hd
    · cases hd
    · cases hd
    · have same := congrArg Op.opcode (Except.ok.inj hd)
      rw [Op.ofFields, Opcode.opcode_toOp] at same
      rw [← ho, ← same]
      rfl
  rw [repeats?, if_neg (Decidable.not_not.2 number), h]

/-! ### Entries of caches -/

namespace Machine

variable {m n : Machine} {cache : Cache} {src : Address} {slot : Slot}

/-- The number in an entry of a cache. -/
def entry (m : Machine) (cache : Cache) (i : Slot) : Nat :=
  match cache with
  | .code => (m.code.get i.toFin).toNat
  | .coeff0 => (m.coeff0.get i.toFin).toNat
  | .coeff1 => (m.coeff1.get i.toFin).toNat

/-- The second machine has `n` entries of a cache, from `slot` on, loaded from the addresses from
`src` on.  It may be at another instruction, and everything else is the same. -/
structure Loaded (cache : Cache) (src : Address) (slot : Slot) (n : Nat) (m k : Machine) :
    Prop where
  loaded : ∀ i < n, k.entry cache (slot + .ofNat 9 i) =
    m.mem.littleEndian (src + .ofNat 17 (i * cache.stride)) cache.stride
  kept : ∀ c x, (c = cache → ∀ i < n, x ≠ slot + .ofNat 9 i) → k.entry c x = m.entry c x
  rest : k = { m with pc := k.pc, code := k.code, coeff0 := k.coeff0, coeff1 := k.coeff1 }

theorem get_set_toNat {α : Type} (v : Vector α cacheSize) (i x : Slot) (a : α) :
    (v.set i.toNat a i.isLt).get x.toFin = if x = i then a else v.get x.toFin := by
  have read (v : Vector α cacheSize) : v.get x.toFin = v[x.toFin] := rfl
  simp only [read, Fin.getElem_fin, BitVec.val_toFin, Vector.getElem_set, BitVec.toNat_inj, eq_comm]

/-- A load changes one entry of its cache. -/
theorem entry_load (m : Machine) (cache c : Cache) (src : Address) (slot x : Slot) :
    (m.load cache src slot).entry c x =
      if c = cache ∧ x = slot then m.mem.littleEndian src cache.stride else m.entry c x := by
  cases cache <;> cases c <;>
    simp only [load, entry, get_set_toNat, apply_ite BitVec.toNat, Image.toNat_word,
      Image.toNat_dword, Cache.stride, reduceCtorEq, true_and, false_and, if_false]

/-- Entries less than a whole cache apart are not the same. -/
theorem slot_ne_of_lt {i j : Nat} (slot : Slot) (hi : i < j) (hj : j < cacheSize) :
    slot + .ofNat 9 i ≠ slot + .ofNat 9 j := by
  intro h
  have same := congrArg BitVec.toNat ((BitVec.add_right_inj slot).1 h)
  rw [BitVec.toNat_ofNat, BitVec.toNat_ofNat] at same
  rw [cacheSize] at hj
  omega

theorem loaded_loadMany (m : Machine) (cache : Cache) (src : Address) (slot : Slot) {n : Nat}
    (h : n ≤ cacheSize) : Loaded cache src slot n m (m.loadMany cache src slot n) := by
  induction n generalizing m src slot with
  | zero => exact ⟨fun i hi => absurd hi (Nat.not_lt_zero i), fun c x _ => rfl, rfl⟩
  | succ n ih =>
    obtain ⟨loaded, kept, rest⟩ := ih (m.load cache src slot) (src + .ofNat 17 cache.stride)
      (slot + 1) (Nat.le_of_succ_le h)
    rw [mem_load] at loaded
    refine ⟨fun i hi => ?_, fun c x hx => ?_, ?_⟩
    · cases i with
      | zero =>
        -- the loads behind the first are of other entries
        have first : ∀ i < n, slot + .ofNat 9 0 ≠ slot + 1 + .ofNat 9 i := fun i hi => by
          rw [slot_succ]
          exact slot_ne_of_lt slot (Nat.succ_pos i) (by omega)
        rw [loadMany, kept cache _ fun _ => first, entry_load, Nat.zero_mul, BitVec.add_zero,
          BitVec.add_zero, if_pos ⟨rfl, rfl⟩]
      | succ i =>
        have next : src + .ofNat 17 cache.stride + .ofNat 17 (i * cache.stride) =
            src + .ofNat 17 ((i + 1) * cache.stride) := by
          rw [BitVec.add_assoc, ← BitVec.ofNat_add, Nat.add_comm, ← Nat.succ_mul]
        rw [loadMany, ← slot_succ, loaded i (Nat.lt_of_succ_lt_succ hi), next]
    · have spared : ¬ (c = cache ∧ x = slot) := by
        rintro ⟨rfl, rfl⟩
        exact hx rfl 0 (Nat.succ_pos n) (BitVec.add_zero _).symm
      rw [loadMany, kept c x fun same i hi => ?_, entry_load, if_neg spared]
      rw [slot_succ]
      exact hx same (i + 1) (Nat.succ_lt_succ hi)
    · cases cache <;> exact rest

theorem Loaded.withPc {n : Nat} {k : Machine} (h : Loaded cache src slot n m k) (pc : Nat) :
    Loaded cache src slot n m { k with pc } where
  loaded := h.loaded
  kept := h.kept
  rest := congrArg (fun k : Machine => { k with pc }) h.rest

/-- Loads of the same numbers into the same entries of equal caches leave equal caches. -/
theorem Loaded.entry_eq {n : Nat} {m' k k' : Machine} (h : Loaded cache src slot n m k)
    (h' : Loaded cache src slot n m' k') (caches : ∀ c x, m'.entry c x = m.entry c x)
    (data : ∀ i < n, m'.mem.littleEndian (src + .ofNat 17 (i * cache.stride)) cache.stride =
      m.mem.littleEndian (src + .ofNat 17 (i * cache.stride)) cache.stride)
    (c : Cache) (x : Slot) : k'.entry c x = k.entry c x := by
  by_cases inside : c = cache ∧ ∃ i < n, x = slot + .ofNat 9 i
  · obtain ⟨rfl, i, hi, rfl⟩ := inside
    rw [h.loaded i hi, h'.loaded i hi, data i hi]
  · have outside (same : c = cache) (i : Nat) (hi : i < n) : x ≠ slot + .ofNat 9 i :=
      fun hx => inside ⟨same, i, hi, hx⟩
    rw [h.kept c x outside, h'.kept c x outside, caches]

/-! ### Single loads -/

theorem fetch_congr (pc : n.pc = m.pc) (mem : n.mem = m.mem) : n.fetch = m.fetch := by
  rw [fetch, fetch, pc, mem]

theorem loadMany_withPc (m : Machine) (pc : Nat) (cache : Cache) (src : Address) (slot : Slot)
    (n : Nat) : ({ m with pc } : Machine).loadMany cache src slot n =
      { m.loadMany cache src slot n with pc } := by
  induction n generalizing m src slot with
  | zero => rfl
  | succ n ih =>
    have one : ({ m with pc } : Machine).load cache src slot =
        { m.load cache src slot with pc } := by
      cases cache <;> rfl
    rw [loadMany, one, ih]
    rfl

/-- The instructions stand in memory, one behind the other from the program counter on. -/
def Ahead (m : Machine) (ops : List Op) : Prop :=
  ∀ i op, ops[i]? = some op → ({ m with pc := m.pc + 4 * i } : Machine).fetch = .ok op

theorem Ahead.tail {op : Op} {ops : List Op} (h : m.Ahead (op :: ops)) (pc : n.pc = m.pc + 4)
    (mem : n.mem = m.mem) : n.Ahead ops := by
  intro i op' hi
  rw [← h (i + 1) op' hi]
  refine fetch_congr ?_ mem
  dsimp only
  rw [pc]
  omega

end Machine

/-- Single loads of `n` consecutive entries from consecutive addresses. -/
def loadsFrom (cache : Cache) (src : Address) (slot : Slot) : Nat → List Op
  | 0 => []
  | n + 1 =>
    .load cache (src.setWidth 32) (slot.setWidth 32) ::
      loadsFrom cache (src + .ofNat 17 cache.stride) (slot + 1) n

namespace Session

variable {limits : Limits} {s t : Session} {cache : Cache}

/-- Single loads that another instruction than a repeat stands behind are carried out as loads of
consecutive entries, in a cycle each. -/
theorem exists_passes_loadsFrom (limits : Limits) (unbounded : s.TraceUnbounded) (src : Address)
    (slot : Slot) (n : Nat) (ahead : s.machine.Ahead (loadsFrom cache src slot n))
    (last : (opcodeField (s.machine.mem.word (.ofNat 17 (s.machine.pc + 4 * n)))).toNat ≠
      Opcode.continueLoad.number) :
    ∃ t, Passes limits s (loadsFrom cache src slot n) t ∧
      t.machine =
        { s.machine.loadMany cache src slot n with pc := s.machine.pc + 4 * n } ∧
      t.counters.cycles = s.counters.cycles + n := by
  induction n generalizing s src slot with
  | zero => exact ⟨s, .nil s, rfl, rfl⟩
  | succ n ih =>
    have fetch : s.machine.fetch = .ok (.load cache (src.setWidth 32) (slot.setWidth 32)) :=
      ahead 0 _ rfl
    have alone : s.machine.lookAhead = .ok none := by
      cases n with
      | zero => exact if_pos last
      | succ n => exact Machine.lookAhead_of_fetch (ahead 1 _ rfl) fun len => Op.noConfusion
    have single : ∃ t, LoadsSingly limits s.addStep cache _ _ t :=
      loadsSingly_of_lookAhead fetch (refuses_of_traceUnbounded unbounded _) alone
    obtain ⟨t, loads⟩ := single
    have first : Completes limits s _ t := ⟨fetch, loads.step⟩
    have machine : t.machine = (s.machine.load cache src slot).advance := by
      rw [loads.machine, BitVec.setWidth_setWidth_of_le src (by decide),
        BitVec.setWidth_setWidth_of_le slot (by decide), BitVec.setWidth_eq, BitVec.setWidth_eq]
      rfl
    have pc : t.machine.pc = s.machine.pc + 4 := by
      rw [machine, Machine.advance, Machine.pc_load]
    have mem : t.machine.mem = s.machine.mem := by
      rw [machine, Machine.advance, Machine.mem_load]
    have count (k : Nat) : k + 4 + 4 * n = k + 4 * (n + 1) := by omega
    obtain ⟨u, rest, machine', cycles⟩ := ih (first.traceUnbounded unbounded) _ _
      (ahead.tail pc mem) (by rwa [pc, mem, count])
    refine ⟨u, .cons first rest, ?_, ?_⟩
    · rw [machine', pc, count, machine, Machine.advance, Machine.loadMany_withPc]
      rfl
    · rw [cycles, loads.counters]
      exact Nat.add_right_comm _ 1 n

/-- A step from `s` to `t` loads `n` consecutive entries of a cache from consecutive addresses, in a
cycle each, and goes on behind the repeat. -/
structure LoadsRepeatedly (limits : Limits) (s : Session) (cache : Cache) (src slot : Word)
    (n : Nat) (t : Session) : Prop where
  step : s.step limits = (t, .ok .next)
  pc : t.machine.pc = s.machine.pc + 8
  loaded : Machine.Loaded cache (src.setWidth 17) (slot.setWidth 9) n s.machine t.machine
  counters : t.counters = (s.addCycles n).counters

/-- The session `t` has single loads ahead, and another instruction than a repeat behind them.  Its
caches are those of `s`, and so is what it loads from memory. -/
structure SingleLoads (s : Session) (cache : Cache) (src : Address) (slot : Slot) (n : Nat)
    (t : Session) : Prop where
  traceUnbounded : t.TraceUnbounded
  ahead : t.machine.Ahead (loadsFrom cache src slot n)
  last : (opcodeField (t.machine.mem.word (.ofNat 17 (t.machine.pc + 4 * n)))).toNat ≠
    Opcode.continueLoad.number
  caches : ∀ c x, t.machine.entry c x = s.machine.entry c x
  data : ∀ i < n, t.machine.mem.littleEndian (src + .ofNat 17 (i * cache.stride)) cache.stride =
    s.machine.mem.littleEndian (src + .ofNat 17 (i * cache.stride)) cache.stride

/-- A load in front of a repeat loads one entry more than the repeat says, and changes nothing else.
As many single loads take as many cycles and leave the same in the caches. -/
theorem exists_loadsRepeatedly (limits : Limits) {src slot len : Word}
    (fetch : s.machine.fetch = .ok (.load cache src slot))
    (repeated : Op.decode s.machine.behind = .ok (.continueLoad len))
    (short : len.toNat < cacheSize)
    (room : s.refuses ⟨.load cache src slot, .loaded (some len.toNat)⟩ = false) :
    let n := len.toNat + 1
    ∃ t, LoadsRepeatedly limits s cache src slot n t ∧
      ∀ u, SingleLoads s cache (src.setWidth 17) (slot.setWidth 9) n u →
        ∃ v, Passes limits u (loadsFrom cache (src.setWidth 17) (slot.setWidth 9) n) v ∧
          (∀ c x, v.machine.entry c x = t.machine.entry c x) ∧
          v.counters.cycles = u.counters.cycles + n := by
  intro n
  have loaded (m : Machine) : Machine.Loaded cache (src.setWidth 17) (slot.setWidth 9) n m
      (m.loadMany cache (src.setWidth 17) (slot.setWidth 9) n) :=
    m.loaded_loadMany _ _ _ short
  let line : TraceLine := ⟨.load cache src slot, .loaded (some len.toNat)⟩
  let all := (s.loadOne cache src slot).loadRest cache src slot len.toNat
  have recorded : all.record (.load cache src slot) (.loaded (some len.toNat)) =
      (all.write line, .ok ()) := if_neg (Bool.eq_false_iff.1 room)
  have pc : all.machine.pc = s.machine.pc := Machine.pc_loadMany s.machine cache _ _ n
  have load := s.load_eq cache src slot
  rw [show s.machine.lookAhead = _ from repeats?_of_continueLoad repeated] at load
  dsimp only at load
  rw [if_neg (Nat.not_le.2 short), recorded] at load
  have here := (loaded s.machine).withPc (all.machine.pc + 8)
  refine ⟨(all.write line).jump (all.machine.pc + 8), ⟨?_, ?_, here, ?_⟩, fun u single => ?_⟩
  · exact (step_of_fetch_eq_ok fetch).trans load
  · exact congrArg (· + 8) pc
  · exact congrArg (fun cycles => ({ s.counters with cycles } : Counters))
      (Nat.add_right_comm s.counters.cycles 1 len.toNat)
  · obtain ⟨v, passes, machine, cycles⟩ :=
      exists_passes_loadsFrom limits single.traceUnbounded _ _ n single.ahead single.last
    have there := (loaded u.machine).withPc (u.machine.pc + 4 * n)
    rw [← machine] at there
    exact ⟨v, passes, here.entry_eq there single.caches single.data, cycles⟩

/-- A repeated load of the last two coefficients of a cache and the first one, single loads of the
same, and a return. -/
def repeatedAndSingle : List Op :=
  .load .coeff1 0x40 0x1fe :: .continueLoad 2 :: (loadsFrom .coeff1 0x40 0x1fe 3 ++ [.ret])

/-- A machine with these instructions and three coefficients in memory. -/
def threeCoefficients : Session where
  machine :=
    { mem := Image.empty.setWords (Image.wordsAt 0 (repeatedAndSingle.map Op.encode) ++
        Image.wordsAt 0x40 [3, 2, 1, 0, 0xffffffff, 0xffffffff]) }

theorem singleLoads_threeCoefficients :
    SingleLoads threeCoefficients .coeff1 0x40 0x1fe 3 (threeCoefficients.jump 8) where
  traceUnbounded _ ht := by cases ht
  ahead i op hi := by
    rcases i with _ | _ | _ | i
    · cases hi
      rfl
    · cases hi
      rfl
    · cases hi
      rfl
    · cases hi
  last := by decide +kernel
  caches _ _ := rfl
  data _ _ := rfl

theorem exists_loadsRepeatedly_threeCoefficients :
    ∃ t v, threeCoefficients.step {} = (t, .ok .next) ∧ t.machine.pc = 8 ∧
      t.counters.cycles = 3 ∧ t.machine.entry .coeff1 0x1fe = 0x200000003 ∧
      t.machine.entry .coeff1 0x1ff = 1 ∧ t.machine.entry .coeff1 0 = 2 ^ 64 - 1 ∧
      t.machine.entry .coeff1 1 = 0 ∧
      Passes {} (threeCoefficients.jump 8) (loadsFrom .coeff1 0x40 0x1fe 3) v ∧
      v.machine.entry .coeff1 0 = 2 ^ 64 - 1 ∧ v.counters.cycles = 3 := by
  have fetch : threeCoefficients.machine.fetch = .ok (.load .coeff1 0x40 0x1fe) := rfl
  have repeated : Op.decode threeCoefficients.machine.behind = .ok (.continueLoad 2) := rfl
  obtain ⟨t, ⟨step, pc, loaded, counters⟩, again⟩ :=
    exists_loadsRepeatedly {} fetch repeated (by decide) rfl
  obtain ⟨v, passes, same, cycles⟩ := again _ singleLoads_threeCoefficients
  have numbers : threeCoefficients.machine.mem.littleEndian 0x40 8 = 0x200000003 ∧
    threeCoefficients.machine.mem.littleEndian 0x48 8 = 1 ∧
    threeCoefficients.machine.mem.littleEndian 0x50 8 = 2 ^ 64 - 1 := by decide +kernel
  have last : t.machine.entry .coeff1 0 = 2 ^ 64 - 1 :=
    (loaded.loaded 2 (by decide)).trans numbers.2.2
  have kept : t.machine.entry .coeff1 1 = 0 :=
    (loaded.kept .coeff1 1 fun _ => by decide).trans rfl
  exact ⟨t, v, step, pc, congrArg Counters.cycles counters,
    (loaded.loaded 0 (by decide)).trans numbers.1, (loaded.loaded 1 (by decide)).trans numbers.2.1,
    last, kept, passes, (same .coeff1 0).trans last, cycles⟩

end Session

end Macc
