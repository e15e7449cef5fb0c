import NCMalloc.Allocator.Layout
import NCMalloc.Lib.BoundedStack
import NCMalloc.Lib.Reach

/-!
# The per-CPU free caches

`free_cache<cache_size>` sits at offset 16 of each slab manager: `current_idx` (read by the
assembly together with its padding as one 64-bit counter) and `ptrs[cache_size]` at offset
24. `object_allocator::try_push` and `try_pop` reach it from the rseq `cpu_id` with hard-coded
displacements. Here the slab managers are a map from byte addresses to 64-bit words, and
both operations are one run of their critical section.

The cache of a CPU behaves as a bounded stack of the pointers pushed onto it: `try_push`
pushes unless the stack is full, `try_pop` pops unless it is empty, and neither touches a word
outside its slab manager.
-/

namespace NCMalloc

open StateMachine

/-- The words of the slab-manager array, by byte address. Every access to the array is an
aligned eight-byte word. -/
abbrev Mem := ℕ → BitVec 64

namespace FreeCache

/-- The slab manager an asm block addresses: `movl` of the rseq `cpu_id`, `salq
$LOG_SIZEOF_SM`, `addq sm_base`. -/
def smOf (smBase : BitVec 64) (cpu : ℕ) : BitVec 64 :=
  (BitVec.ofNat 64 cpu <<< logSizeofSlabManager) + smBase

/-- `object_allocator::try_pop(size_idx)`: 0 from an empty cache, otherwise the word at
`16(fc_cache, ret, 8)` with the counter decremented. -/
def tryPop (μ : Mem) (smBase : BitVec 64) (cpu : ℕ) : Mem × BitVec 64 :=
  let fcCache := smOf smBase cpu
  let ret := μ (fcCache + 16#64).toNat
  if ret = 0#64 then (μ, ret)
  else
    let ret := μ (fcCache + 16#64 + ret * 8#64).toNat
    (Function.update μ (fcCache + 16#64).toNat (μ (fcCache + 16#64).toNat - 1#64), ret)

/-- `object_allocator::try_push(ptr, size_idx)`: 1 from a full cache, otherwise `ptr` is
stored at `24(fc_cache, idx, 8)` and the counter incremented. -/
def tryPush (μ : Mem) (ptr smBase : BitVec 64) (cpu : ℕ) : Mem × BitVec 64 :=
  let fcCache := smOf smBase cpu
  let idx := μ (fcCache + 16#64).toNat
  if idx = BitVec.ofNat 64 cacheSize then (μ, 1#64)
  else
    let μ := Function.update μ (fcCache + 24#64 + idx * 8#64).toNat ptr
    (Function.update μ (fcCache + 16#64).toNat (μ (fcCache + 16#64).toNat + 1#64), 0#64)

/-- `current_idx` with its padding, at offset 16 of the slab manager at `sm`. -/
def currentIdx (μ : Mem) (sm : ℕ) : ℕ := (μ (sm + 16)).toNat

/-- `ptrs[j]`, at offset `24 + 8 j`. -/
def ptrs (μ : Mem) (sm j : ℕ) : BitVec 64 := μ (sm + 24 + 8 * j)

/-- The free cache at `sm` as a stack, under the bound its counter keeps. -/
def stack (μ : Mem) (sm : ℕ) (h : currentIdx μ sm ≤ cacheSize) :
    BoundedStack (BitVec 64) cacheSize :=
  BoundedStack.ofCells (ptrs μ sm) (currentIdx μ sm) h

/-- The words of the slab manager at `sm`. -/
def InManager (sm a : ℕ) : Prop := sm ≤ a ∧ a < sm + sizeofSlabManager

/-! ## Addresses -/

section Addr

variable {fc : BitVec 64} (hroom : fc.toNat + sizeofSlabManager ≤ 2 ^ 64)
include hroom

theorem manager_addr {k : ℕ} (hk : k < sizeofSlabManager) :
    (fc + BitVec.ofNat 64 k).toNat = fc.toNat + k := by
  rw [BitVec.toNat_add, BitVec.toNat_ofNat, Nat.mod_eq_of_lt (a := k) (by omega)]
  exact Nat.mod_eq_of_lt (by omega)

theorem counter_addr : (fc + 16#64).toNat = fc.toNat + 16 :=
  manager_addr hroom (by rw [sizeofSlabManager_eq]; omega)

theorem push_addr {idx : BitVec 64} (h : idx.toNat < cacheSize) :
    (fc + 24#64 + idx * 8#64).toNat = fc.toNat + 24 + 8 * idx.toNat := by
  rw [sizeofSlabManager_eq] at hroom
  rw [cacheSize_eq] at h
  rw [BitVec.toNat_add, BitVec.toNat_add, BitVec.toNat_mul, BitVec.toNat_ofNat,
    BitVec.toNat_ofNat]
  rw [Nat.mod_eq_of_lt (a := 24) (by omega), Nat.mod_eq_of_lt (a := idx.toNat * 8) (by omega),
    Nat.mod_eq_of_lt (a := fc.toNat + 24) (by omega), Nat.mod_eq_of_lt (by omega)]
  omega

theorem pop_addr {ret : BitVec 64} (h0 : 0 < ret.toNat) (h : ret.toNat ≤ cacheSize) :
    (fc + 16#64 + ret * 8#64).toNat = fc.toNat + 24 + 8 * (ret.toNat - 1) := by
  rw [sizeofSlabManager_eq] at hroom
  rw [cacheSize_eq] at h
  rw [BitVec.toNat_add, BitVec.toNat_add, BitVec.toNat_mul, BitVec.toNat_ofNat,
    BitVec.toNat_ofNat]
  rw [Nat.mod_eq_of_lt (a := 16) (by omega), Nat.mod_eq_of_lt (a := ret.toNat * 8) (by omega),
    Nat.mod_eq_of_lt (a := fc.toNat + 16) (by omega), Nat.mod_eq_of_lt (by omega)]
  omega

end Addr

/-- The slab manager the asm blocks of CPU `cpu` address from `m->slab_managers[i]` is
`m->slab_managers[i][cpu]`. -/
theorem smOf_smBase {nprocs m i cpu : ℕ} (hi : i < numSizeClasses) (hc : cpu < nprocs)
    (hm : m + sizeofMemoryLayoutOf nprocs ≤ 2 ^ 64) :
    (smOf (BitVec.ofNat 64 (smBase nprocs m i)) cpu).toNat = smAddr nprocs m i cpu := by
  have hlt := smAddr_add_lt (m := m) hi hc
  rw [smAddr, sizeofSlabManager_eq] at hlt ⊢
  rw [smOf, logSizeofSlabManager_eq, BitVec.toNat_add, BitVec.toNat_shiftLeft,
    BitVec.toNat_ofNat, BitVec.toNat_ofNat, Nat.shiftLeft_eq]
  rw [Nat.mod_eq_of_lt (a := cpu) (by omega), Nat.mod_eq_of_lt (a := cpu * 2 ^ 7) (by omega),
    Nat.mod_eq_of_lt (a := smBase nprocs m i) (by omega), Nat.mod_eq_of_lt (by omega)]
  omega

/-! ## Views of the memory after a store -/

section Views

variable (μ : Mem) (sm : ℕ)

@[simp] theorem currentIdx_update_counter (x : BitVec 64) :
    currentIdx (Function.update μ (sm + 16) x) sm = x.toNat := by
  simp [currentIdx]

@[simp] theorem ptrs_update_counter (x : BitVec 64) :
    ptrs (Function.update μ (sm + 16) x) sm = ptrs μ sm := by
  funext j
  exact Function.update_of_ne (by omega) _ _

@[simp] theorem currentIdx_update_ptrs (n : ℕ) (x : BitVec 64) :
    currentIdx (Function.update μ (sm + 24 + 8 * n) x) sm = currentIdx μ sm := by
  unfold currentIdx
  rw [Function.update_of_ne (by omega)]

theorem ptrs_update_ptrs (n : ℕ) (x : BitVec 64) :
    ptrs (Function.update μ (sm + 24 + 8 * n) x) sm = Function.update (ptrs μ sm) n x := by
  funext j
  by_cases hj : j = n
  · subst hj
    simp [ptrs]
  · rw [Function.update_of_ne hj]
    exact Function.update_of_ne (by omega) _ _

theorem stack_length (h : currentIdx μ sm ≤ cacheSize) :
    (stack μ sm h).items.length = currentIdx μ sm :=
  BoundedStack.length_cellsList _ _

theorem stack_eq_nil_iff (h : currentIdx μ sm ≤ cacheSize) :
    (stack μ sm h).items = [] ↔ currentIdx μ sm = 0 :=
  BoundedStack.cellsList_eq_nil_iff

end Views

/-! ## One run of each critical section -/

section Ops

variable {μ : Mem} {smBase : BitVec 64} {cpu sm : ℕ} (hsm : (smOf smBase cpu).toNat = sm)
  (hroom : sm + sizeofSlabManager ≤ 2 ^ 64)
include hsm hroom

theorem tryPush_of_full (h : currentIdx μ sm = cacheSize) (ptr : BitVec 64) :
    tryPush μ ptr smBase cpu = (μ, 1#64) := by
  subst hsm
  have hidx : μ ((smOf smBase cpu).toNat + 16) = BitVec.ofNat 64 cacheSize := by
    apply BitVec.eq_of_toNat_eq
    rw [BitVec.toNat_ofNat, cacheSize_eq]
    exact h.trans cacheSize_eq
  simp only [tryPush, counter_addr hroom, hidx, if_true]

theorem tryPush_of_lt (h : currentIdx μ sm < cacheSize) (ptr : BitVec 64) :
    tryPush μ ptr smBase cpu =
      (Function.update (Function.update μ (sm + 24 + 8 * currentIdx μ sm) ptr) (sm + 16)
        (μ (sm + 16) + 1#64), 0#64) := by
  subst hsm
  have hidx : μ ((smOf smBase cpu).toNat + 16) ≠ BitVec.ofNat 64 cacheSize := fun he => by
    have := congrArg BitVec.toNat he
    rw [BitVec.toNat_ofNat, cacheSize_eq] at this
    unfold currentIdx at h
    rw [cacheSize_eq] at h
    omega
  have hne : (smOf smBase cpu).toNat + 16 ≠
      (smOf smBase cpu).toNat + 24 + 8 * currentIdx μ (smOf smBase cpu).toNat := by omega
  simp only [tryPush, counter_addr hroom, push_addr hroom h, hidx, if_false]
  unfold currentIdx at hne ⊢
  rw [Function.update_of_ne hne]

theorem tryPop_of_zero (h : currentIdx μ sm = 0) : tryPop μ smBase cpu = (μ, 0#64) := by
  subst hsm
  have hret : μ ((smOf smBase cpu).toNat + 16) = 0#64 := BitVec.eq_of_toNat_eq h
  simp only [tryPop, counter_addr hroom, hret, if_true]

theorem tryPop_of_pos (h0 : 0 < currentIdx μ sm) (h : currentIdx μ sm ≤ cacheSize) :
    tryPop μ smBase cpu =
      (Function.update μ (sm + 16) (μ (sm + 16) - 1#64), ptrs μ sm (currentIdx μ sm - 1)) := by
  subst hsm
  have hret : μ ((smOf smBase cpu).toNat + 16) ≠ 0#64 := fun he => by
    unfold currentIdx at h0
    rw [he] at h0
    simp at h0
  simp only [tryPop, counter_addr hroom, pop_addr hroom h0 h, hret, if_false]
  rfl

/-! ## The stack the cache holds -/

theorem stack_tryPush (h : currentIdx μ sm < cacheSize) (ptr : BitVec 64) :
    ∃ h' : currentIdx (tryPush μ ptr smBase cpu).1 sm ≤ cacheSize,
      (stack μ sm h.le).push ptr = some (stack (tryPush μ ptr smBase cpu).1 sm h') := by
  have hpush := tryPush_of_lt hsm hroom h ptr
  have hc : currentIdx (tryPush μ ptr smBase cpu).1 sm = currentIdx μ sm + 1 := by
    rw [hpush, currentIdx_update_counter, BitVec.toNat_add, BitVec.toNat_ofNat]
    unfold currentIdx at h ⊢
    rw [cacheSize_eq] at h
    omega
  refine ⟨by omega, ?_⟩
  unfold stack
  rw [BoundedStack.push_ofCells h]
  congr 1
  apply BoundedStack.ofCells_congr hc.symm
  intro j _
  rw [hpush, ptrs_update_counter, ptrs_update_ptrs]

theorem stack_tryPop (h0 : 0 < currentIdx μ sm) (h : currentIdx μ sm ≤ cacheSize) :
    ∃ h' : currentIdx (tryPop μ smBase cpu).1 sm ≤ cacheSize,
      (stack μ sm h).pop = some ((tryPop μ smBase cpu).2, stack (tryPop μ smBase cpu).1 sm h') := by
  have hpop := tryPop_of_pos hsm hroom h0 h
  obtain ⟨k, hk⟩ : ∃ k, currentIdx μ sm = k + 1 := ⟨_, (Nat.succ_pred_eq_of_pos h0).symm⟩
  have hc : currentIdx (tryPop μ smBase cpu).1 sm = k := by
    rw [hpop, currentIdx_update_counter, BitVec.toNat_sub, BitVec.toNat_ofNat]
    unfold currentIdx at hk
    omega
  have hret : (tryPop μ smBase cpu).2 = ptrs μ sm k := by
    rw [hpop, hk]
    rfl
  refine ⟨by omega, ?_⟩
  unfold stack
  rw [BoundedStack.ofCells_congr hk (fun _ _ => rfl) h (hk ▸ h), BoundedStack.pop_ofCells, hret]
  congr 2
  exact BoundedStack.ofCells_congr hc.symm (fun _ _ => by rw [hpop, ptrs_update_counter]) _ _

/-! ## Every access stays inside the slab manager -/

theorem tryPush_frame (h : currentIdx μ sm ≤ cacheSize) (ptr : BitVec 64) {a : ℕ}
    (ha : ¬InManager sm a) : (tryPush μ ptr smBase cpu).1 a = μ a := by
  rcases Nat.lt_or_ge (currentIdx μ sm) cacheSize with hlt | hge
  · unfold InManager at ha
    rw [sizeofSlabManager_eq] at ha
    have hn : currentIdx μ sm < 13 := cacheSize_eq ▸ hlt
    have h1 : a ≠ sm + 16 := by omega
    have h2 : a ≠ sm + 24 + 8 * currentIdx μ sm := by omega
    rw [tryPush_of_lt hsm hroom hlt]
    dsimp only
    rw [Function.update_of_ne h1, Function.update_of_ne h2]
  · rw [tryPush_of_full hsm hroom (le_antisymm h hge)]

theorem tryPop_frame (h : currentIdx μ sm ≤ cacheSize) {a : ℕ} (ha : ¬InManager sm a) :
    (tryPop μ smBase cpu).1 a = μ a := by
  rcases Nat.eq_zero_or_pos (currentIdx μ sm) with h0 | h0
  · rw [tryPop_of_zero hsm hroom h0]
  · unfold InManager at ha
    rw [sizeofSlabManager_eq] at ha
    have h1 : a ≠ sm + 16 := by omega
    rw [tryPop_of_pos hsm hroom h0 h]
    dsimp only
    rw [Function.update_of_ne h1]

/-- `try_push` reads only its slab manager: on memories that agree there it returns the same
result and leaves the same words there. -/
theorem tryPush_congr (h : currentIdx μ sm ≤ cacheSize) {μ₂ : Mem}
    (hag : ∀ a, InManager sm a → μ₂ a = μ a) (ptr : BitVec 64) :
    (tryPush μ₂ ptr smBase cpu).2 = (tryPush μ ptr smBase cpu).2 ∧
      ∀ a, InManager sm a → (tryPush μ₂ ptr smBase cpu).1 a = (tryPush μ ptr smBase cpu).1 a := by
  have hsz := sizeofSlabManager_eq
  have hctr : μ₂ (sm + 16) = μ (sm + 16) := hag _ ⟨by omega, by omega⟩
  have hidx : currentIdx μ₂ sm = currentIdx μ sm := by
    unfold currentIdx
    rw [hctr]
  rcases Nat.lt_or_ge (currentIdx μ sm) cacheSize with hlt | hge
  · rw [tryPush_of_lt hsm hroom hlt, tryPush_of_lt hsm hroom (hidx ▸ hlt), hidx, hctr]
    refine ⟨rfl, fun a ha => ?_⟩
    by_cases h1 : a = sm + 16
    · subst h1
      simp
    · by_cases h2 : a = sm + 24 + 8 * currentIdx μ sm
      · subst h2
        simp only [Function.update_of_ne h1, Function.update_self]
      · simp only [Function.update_of_ne h1, Function.update_of_ne h2]
        exact hag a ha
  · have hfull := le_antisymm h hge
    rw [tryPush_of_full hsm hroom hfull, tryPush_of_full hsm hroom (hidx.trans hfull)]
    exact ⟨rfl, hag⟩

theorem tryPop_congr (h : currentIdx μ sm ≤ cacheSize) {μ₂ : Mem}
    (hag : ∀ a, InManager sm a → μ₂ a = μ a) :
    (tryPop μ₂ smBase cpu).2 = (tryPop μ smBase cpu).2 ∧
      ∀ a, InManager sm a → (tryPop μ₂ smBase cpu).1 a = (tryPop μ smBase cpu).1 a := by
  have hsz := sizeofSlabManager_eq
  have hctr : μ₂ (sm + 16) = μ (sm + 16) := hag _ ⟨by omega, by omega⟩
  have hidx : currentIdx μ₂ sm = currentIdx μ sm := by
    unfold currentIdx
    rw [hctr]
  rcases Nat.eq_zero_or_pos (currentIdx μ sm) with h0 | h0
  · rw [tryPop_of_zero hsm hroom h0, tryPop_of_zero hsm hroom (hidx.trans h0)]
    exact ⟨rfl, hag⟩
  · have hn : currentIdx μ sm < 14 := by
      have := cacheSize_eq
      omega
    rw [tryPop_of_pos hsm hroom h0 h, tryPop_of_pos hsm hroom (hidx ▸ h0) (hidx ▸ h), hidx, hctr]
    refine ⟨hag _ ⟨by omega, by omega⟩, fun a ha => ?_⟩
    by_cases h1 : a = sm + 16
    · subst h1
      simp
    · simp only [Function.update_of_ne h1]
      exact hag a ha

end Ops

/-! ## Runs of one CPU on one cache -/

/-- The operations of the threads of one CPU on its free cache of one class, each critical
section run to completion. The pointers pushed are nonzero, as those `_free` pushes are. -/
inductive CacheStep (smBase : BitVec 64) (cpu : ℕ) : Mem → Mem → Prop
  | push (μ : Mem) (ptr : BitVec 64) (hptr : ptr ≠ 0#64) :
      CacheStep smBase cpu μ (tryPush μ ptr smBase cpu).1
  | pop (μ : Mem) : CacheStep smBase cpu μ (tryPop μ smBase cpu).1

/-- The counter stays within `cache_size` and the cache holds no null pointer. -/
structure CacheInv (sm : ℕ) (μ : Mem) : Prop where
  bound : currentIdx μ sm ≤ cacheSize
  nonzero : ∀ j < currentIdx μ sm, ptrs μ sm j ≠ 0#64

/-- What the free cache at `sm` guarantees in a memory `μ`, for the CPU `cpu` whose asm
blocks address it from `smBase`. -/
structure StackSpec (smBase : BitVec 64) (cpu sm : ℕ) (μ : Mem) : Prop where
  bound : currentIdx μ sm ≤ cacheSize
  push_one_iff : ∀ ptr, (tryPush μ ptr smBase cpu).2 = 1#64 ↔
    (stack μ sm bound).items.length = cacheSize
  push_full : ∀ ptr, (stack μ sm bound).items.length = cacheSize →
    (tryPush μ ptr smBase cpu).1 = μ
  push_store : ∀ ptr, (stack μ sm bound).items.length < cacheSize →
    (tryPush μ ptr smBase cpu).2 = 0#64 ∧
    (tryPush μ ptr smBase cpu).1 = Function.update
      (Function.update μ (sm + 24 + 8 * currentIdx μ sm) ptr) (sm + 16) (μ (sm + 16) + 1#64)
  push_stack : ∀ ptr, (stack μ sm bound).items.length < cacheSize →
    ∃ h', (stack μ sm bound).push ptr = some (stack (tryPush μ ptr smBase cpu).1 sm h')
  pop_zero_iff : (tryPop μ smBase cpu).2 = 0#64 ↔ (stack μ sm bound).items = []
  pop_empty : (stack μ sm bound).items = [] → (tryPop μ smBase cpu).1 = μ
  pop_load : (stack μ sm bound).items ≠ [] →
    (tryPop μ smBase cpu).2 = μ (sm + 16 + 8 * currentIdx μ sm) ∧
    (tryPop μ smBase cpu).1 = Function.update μ (sm + 16) (μ (sm + 16) - 1#64)
  pop_stack : (stack μ sm bound).items ≠ [] →
    ∃ h', (stack μ sm bound).pop =
      some ((tryPop μ smBase cpu).2, stack (tryPop μ smBase cpu).1 sm h')
  frame : ∀ ptr a, ¬InManager sm a →
    (tryPush μ ptr smBase cpu).1 a = μ a ∧ (tryPop μ smBase cpu).1 a = μ a
  congr : ∀ μ₂ : Mem, (∀ a, InManager sm a → μ₂ a = μ a) → ∀ ptr,
    (tryPush μ₂ ptr smBase cpu).2 = (tryPush μ ptr smBase cpu).2 ∧
    (tryPop μ₂ smBase cpu).2 = (tryPop μ smBase cpu).2 ∧
    ∀ a, InManager sm a → (tryPush μ₂ ptr smBase cpu).1 a = (tryPush μ ptr smBase cpu).1 a ∧
      (tryPop μ₂ smBase cpu).1 a = (tryPop μ smBase cpu).1 a

section Run

variable {smBase : BitVec 64} {cpu sm : ℕ} (hsm : (smOf smBase cpu).toNat = sm)
  (hroom : sm + sizeofSlabManager ≤ 2 ^ 64)
include hsm hroom

theorem cacheInv_step {μ μ' : Mem} (hi : CacheInv sm μ) (hs : CacheStep smBase cpu μ μ') :
    CacheInv sm μ' := by
  cases hs with
  | push ptr hptr =>
    rcases Nat.lt_or_ge (currentIdx μ sm) cacheSize with hlt | hge
    · have hpush := tryPush_of_lt hsm hroom hlt ptr
      have hc : currentIdx (tryPush μ ptr smBase cpu).1 sm = currentIdx μ sm + 1 := by
        rw [hpush, currentIdx_update_counter, BitVec.toNat_add, BitVec.toNat_ofNat]
        unfold currentIdx at hlt ⊢
        rw [cacheSize_eq] at hlt
        omega
      refine ⟨by omega, fun j hj => ?_⟩
      rw [hpush, ptrs_update_counter, ptrs_update_ptrs]
      by_cases hjn : j = currentIdx μ sm
      · subst hjn
        simpa using hptr
      · rw [Function.update_of_ne hjn]
        exact hi.nonzero j (by omega)
    · rw [tryPush_of_full hsm hroom (le_antisymm hi.bound hge)]
      exact hi
  | pop =>
    rcases Nat.eq_zero_or_pos (currentIdx μ sm) with h0 | h0
    · rw [tryPop_of_zero hsm hroom h0]
      exact hi
    · have hpop := tryPop_of_pos hsm hroom h0 hi.bound
      have hc : currentIdx (tryPop μ smBase cpu).1 sm = currentIdx μ sm - 1 := by
        rw [hpop, currentIdx_update_counter, BitVec.toNat_sub, BitVec.toNat_ofNat]
        unfold currentIdx at h0 ⊢
        omega
      refine ⟨by have := hi.bound; omega, fun j hj => ?_⟩
      rw [hpop, ptrs_update_counter]
      exact hi.nonzero j (by omega)

theorem cacheInv_reachable {μ₀ μ : Mem} (h₀ : μ₀ (sm + 16) = 0#64)
    (h : Reachable (CacheStep smBase cpu) μ₀ μ) : CacheInv sm μ := by
  have hinit : CacheInv sm μ₀ := ⟨by simp [currentIdx, h₀], fun j hj => by simp [currentIdx, h₀] at hj⟩
  exact Reachable.invariant hinit (fun _ _ hi hs => cacheInv_step hsm hroom hi hs) h

theorem stackSpec_of_inv {μ : Mem} (hi : CacheInv sm μ) : StackSpec smBase cpu sm μ where
  bound := hi.bound
  push_one_iff ptr := by
    rw [stack_length]
    rcases Nat.lt_or_ge (currentIdx μ sm) cacheSize with hlt | hge
    · rw [tryPush_of_lt hsm hroom hlt]
      simp only [show (0#64 : BitVec 64) ≠ 1#64 by decide, false_iff]
      omega
    · rw [tryPush_of_full hsm hroom (le_antisymm hi.bound hge)]
      simp only [true_iff]
      exact le_antisymm hi.bound hge
  push_full ptr hfull := by
    rw [stack_length] at hfull
    rw [tryPush_of_full hsm hroom hfull]
  push_store ptr hlt := by
    rw [stack_length] at hlt
    rw [tryPush_of_lt hsm hroom hlt]
    exact ⟨rfl, rfl⟩
  push_stack ptr hlt := by
    rw [stack_length] at hlt
    exact stack_tryPush hsm hroom hlt ptr
  pop_zero_iff := by
    rw [stack_eq_nil_iff]
    rcases Nat.eq_zero_or_pos (currentIdx μ sm) with h0 | h0
    · rw [tryPop_of_zero hsm hroom h0]
      simp [h0]
    · -- a nonempty cache holds no null pointer, so its top is not 0
      have hnz := hi.nonzero (currentIdx μ sm - 1) (by omega)
      rw [tryPop_of_pos hsm hroom h0 hi.bound]
      dsimp only
      constructor
      · intro h
        exact absurd h hnz
      · intro h
        omega
  pop_empty hnil := by
    rw [stack_eq_nil_iff] at hnil
    rw [tryPop_of_zero hsm hroom hnil]
  pop_load hne := by
    rw [ne_eq, stack_eq_nil_iff] at hne
    rw [tryPop_of_pos hsm hroom (Nat.pos_of_ne_zero hne) hi.bound]
    refine ⟨?_, rfl⟩
    -- `ptrs[current_idx - 1]` is the word at `16 + 8 current_idx`
    show μ (sm + 24 + 8 * (currentIdx μ sm - 1)) = _
    congr 1
    omega
  pop_stack hne := by
    rw [ne_eq, stack_eq_nil_iff] at hne
    exact stack_tryPop hsm hroom (Nat.pos_of_ne_zero hne) hi.bound
  frame ptr a ha := ⟨tryPush_frame hsm hroom hi.bound ptr ha, tryPop_frame hsm hroom hi.bound ha⟩
  congr μ₂ hag ptr := by
    obtain ⟨hpush, hpush'⟩ := tryPush_congr hsm hroom hi.bound hag ptr
    obtain ⟨hpop, hpop'⟩ := tryPop_congr hsm hroom hi.bound hag
    exact ⟨hpush, hpop, fun a ha => ⟨hpush' a ha, hpop' a ha⟩⟩

end Run

/-- A CPU's free cache of class `i` is a bounded stack of the nonzero pointers pushed onto it.
The slab manager its asm blocks compute from the CPU number is `slab_managers[i][cpu]`, and
over every run of `try_push` and `try_pop` from a zero counter the cache meets its
specification: the counter stays within `cache_size`, `try_push` returns 1 and changes nothing
exactly on a full stack and otherwise stores at offset `24 + 8 current_idx` and pushes,
`try_pop` returns 0 and changes nothing exactly on an empty stack and otherwise returns the
word at offset `16 + 8 current_idx` and pops it, and neither operation reads or writes a word
outside the slab manager. -/
theorem free_cache_stack {m i cpu : ℕ} (hi : i < numSizeClasses) (hc : cpu < NPROCS)
    (hm : m + sizeofMemoryLayout ≤ 2 ^ 64) {μ₀ : Mem} (h₀ : μ₀ (smAddr NPROCS m i cpu + 16) = 0#64) :
    (smOf (BitVec.ofNat 64 (smBase NPROCS m i)) cpu).toNat = smAddr NPROCS m i cpu ∧
    ∀ μ, Reachable (CacheStep (BitVec.ofNat 64 (smBase NPROCS m i)) cpu) μ₀ μ →
      StackSpec (BitVec.ofNat 64 (smBase NPROCS m i)) cpu (smAddr NPROCS m i cpu) μ := by
  have hsm := smOf_smBase hi hc hm
  have hroom : smAddr NPROCS m i cpu + sizeofSlabManager ≤ 2 ^ 64 :=
    le_trans (smAddr_add_lt hi hc) hm
  exact ⟨hsm, fun μ hμ => stackSpec_of_inv hsm hroom (cacheInv_reachable hsm hroom h₀ hμ)⟩

/-- CPU 3's cache of class 5, in a region at `0x7f0000000000`. -/
theorem free_cache_stack_cpu3 :
    (smOf (BitVec.ofNat 64 (smBase NPROCS 0x7f0000000000 5)) 3).toNat = smAddr NPROCS 0x7f0000000000 5 3 :=
  (@free_cache_stack 0x7f0000000000 5 3 (by decide) (by decide) (by decide) (fun _ => 0#64)
    rfl).1

/-- A null pointer pushed onto an empty cache makes a one-entry stack from which `try_pop`
returns 0, the value it returns for an empty cache. -/
theorem tryPop_after_push_null :
    currentIdx (tryPush (fun _ => 0#64) 0#64 (BitVec.ofNat 64 (smBase NPROCS 0x7f0000000000 5)) 3).1
        (smAddr NPROCS 0x7f0000000000 5 3) = 1 ∧
      (tryPop (tryPush (fun _ => 0#64) 0#64 (BitVec.ofNat 64 (smBase NPROCS 0x7f0000000000 5)) 3).1
        (BitVec.ofNat 64 (smBase NPROCS 0x7f0000000000 5)) 3).2 = 0#64 := by
  decide

end FreeCache

end NCMalloc
