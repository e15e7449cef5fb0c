import NCMalloc.Allocator.ObjectAllocator

/-!
# The allocator's state as lists and caches

What the allocator's invariants read of a heap: the slabs, the bump pointer, and for every
slab manager `slab_managers[i][c]` its head, its tail and the pointers of its free cache, read
as a list bottom first. A manager outside the array reads as empty.

Each store the allocator makes to a manager is one update of this view: `_send_slab` appends
to a list (`View.append`), the `cmpxchg` of `_cas_set_next_available_slab` moves a head,
`try_push` and `try_pop` push to and pop from a cache. The stores land where they should
because the managers' words are disjoint and the caches' counters stay within `cache_size`,
so a cache never reads past its manager.
-/

namespace NCMalloc

open ObjSlab FreeCache

/-- `slab_managers[ic.1][ic.2]` exists. -/
def InRange (ic : ℕ × ℕ) : Prop := ic.1 < numSizeClasses ∧ ic.2 < NPROCS

instance : DecidablePred InRange := fun ic =>
  inferInstanceAs (Decidable (ic.1 < numSizeClasses ∧ ic.2 < NPROCS))

/-- The allocator's state as the lists and caches of its slab managers. -/
@[ext] structure View where
  slabs : ℕ → ObjSlab
  currentSlab : ℕ
  heads : ℕ × ℕ → ℕ
  tails : ℕ × ℕ → ℕ
  caches : ℕ × ℕ → List ℕ

namespace View

/-- `_send_slab` of `x` to list `ic`: on an empty list `x` becomes the head, otherwise the
tail's successor; either way it becomes the tail. -/
def append (v : View) (ic : ℕ × ℕ) (x : ℕ) : View :=
  if v.heads ic = 0 then
    { v with heads := Function.update v.heads ic x, tails := Function.update v.tails ic x }
  else
    { v with
      slabs := Function.update v.slabs (v.tails ic) { v.slabs (v.tails ic) with next := x }
      tails := Function.update v.tails ic x }

end View

/-- The view of a heap of the allocator on region `A`. -/
def Heap.view (A : Region) (h : Heap) : View where
  slabs := h.slabs
  currentSlab := h.currentSlab
  heads ic := if InRange ic then (h.mem (smAddr NPROCS A.m ic.1 ic.2)).toNat else 0
  tails ic := if InRange ic then (h.mem (smAddr NPROCS A.m ic.1 ic.2 + 8)).toNat else 0
  caches ic :=
    if InRange ic then
      (BoundedStack.cellsList (ptrs h.mem (smAddr NPROCS A.m ic.1 ic.2))
        (currentIdx h.mem (smAddr NPROCS A.m ic.1 ic.2))).map BitVec.toNat
    else []

/-! ## The region -/

namespace Region

variable (A : Region)

-- these unfold by rewriting: left to unfold them itself, the kernel evaluates
-- `sizeof(memory_layout)` down to `next_p2` and recurses too deeply
theorem start_mod : A.start % sizeofObjSlab = 0 := by
  rw [start, calculateStart, roundup]
  exact Nat.mul_mod_right _ _

theorem layout_le_start : A.m + sizeofMemoryLayout ≤ A.start := by
  rw [start, calculateStart, roundup, sizeofObjSlab_eq]
  omega

theorem start_le_region : A.start ≤ A.m + A.regionSize := A.large

theorem layout_lt : A.m + sizeofMemoryLayout ≤ 2 ^ 64 :=
  (A.layout_le_start.trans A.start_le_region).trans A.below

theorem regionEnd_eq :
    A.regionEnd = A.start + sizeofObjSlab * ((A.m + A.regionSize - A.start) / sizeofObjSlab) := by
  have hl := A.start_le_region
  have hs := A.layout_le_start
  have hsub : A.regionSize - sizeofMemoryLayout - (A.start - (A.m + sizeofMemoryLayout)) =
      A.m + A.regionSize - A.start := by omega
  rw [start] at hsub ⊢
  rw [regionEnd, calculateEnd, hsub, rounddown]

theorem start_le_end : A.start ≤ A.regionEnd := by
  rw [regionEnd_eq]
  omega

theorem end_mod : A.regionEnd % sizeofObjSlab = 0 := by
  rw [regionEnd_eq, Nat.add_mul_mod_self_left]
  exact A.start_mod

theorem end_le : A.regionEnd ≤ A.m + A.regionSize := by
  have hl := A.start_le_region
  rw [regionEnd_eq, sizeofObjSlab_eq]
  omega

/-- The bounds on natural numbers are those the constructor computes in `uint64_t`, for a
region a slab's size below the top of the address space. -/
theorem bounds_toNat (hA : A.m + A.regionSize + sizeofObjSlab ≤ 2 ^ 64) :
    (Word64.bounds (BitVec.ofNat 64 A.m) (BitVec.ofNat 64 A.regionSize)).1.toNat = A.start ∧
      (Word64.bounds (BitVec.ofNat 64 A.m) (BitVec.ofNat 64 A.regionSize)).2.toNat =
        A.regionEnd := by
  have hl := A.layout_le_start
  have hr := A.start_le_region
  have hL := sizeofMemoryLayout_eq
  have hS := sizeofObjSlab_eq
  have hlay : BitVec.ofNat 64 A.m + BitVec.ofNat 64 sizeofMemoryLayout =
      BitVec.ofNat 64 (A.m + sizeofMemoryLayout) := by
    apply BitVec.eq_of_toNat_eq
    simp only [BitVec.toNat_add, BitVec.toNat_ofNat, Nat.add_mod_mod, Nat.mod_add_mod]
  have hrest : BitVec.ofNat 64 A.regionSize - BitVec.ofNat 64 sizeofMemoryLayout =
      BitVec.ofNat 64 (A.regionSize - sizeofMemoryLayout) := by
    apply BitVec.eq_of_toNat_eq
    rw [BitVec.toNat_sub_of_le (BitVec.le_def.mpr ?_)] <;> simp only [BitVec.toNat_ofNat] <;> omega
  simp only [Word64.bounds, hlay, hrest]
  exact ⟨Word64.calculateStart_toNat (by omega),
    Word64.calculateEnd_toNat (by omega) (by rw [← start]; omega) (by omega)⟩

/-- The first slab and `end` as the constructor computes them in `uint64_t`. -/
def bounds : BitVec 64 × BitVec 64 :=
  Word64.bounds (BitVec.ofNat 64 A.m) (BitVec.ofNat 64 A.regionSize)

/-- The constructor `object_allocator(mem, region_size)` lays the allocator out inside its
region: computed in `uint64_t` its bounds do not wrap; `memory_layout` ends at or before the
first slab, the slabs end within the region less than a slab before its end, and both bounds
are slab-aligned, so `_new` carves whole slabs after the metadata and inside the region. -/
theorem constructor_layout (hA : A.m + A.regionSize + sizeofObjSlab ≤ 2 ^ 64) :
    A.bounds.1.toNat = A.start ∧ A.bounds.2.toNat = A.regionEnd ∧
      A.m + sizeofMemoryLayout ≤ A.start ∧ A.start ≤ A.regionEnd ∧
      A.regionEnd ≤ A.m + A.regionSize ∧ A.m + A.regionSize < A.regionEnd + sizeofObjSlab ∧
      A.start % sizeofObjSlab = 0 ∧ A.regionEnd % sizeofObjSlab = 0 := by
  obtain ⟨h1, h2⟩ := A.bounds_toNat hA
  have hrest : A.m + A.regionSize < A.regionEnd + sizeofObjSlab := by
    have hl := A.start_le_region
    have hmod := Nat.mod_lt (A.m + A.regionSize - A.start) (show 0 < sizeofObjSlab by
      rw [sizeofObjSlab_eq]; norm_num)
    have hdiv := Nat.div_add_mod (A.m + A.regionSize - A.start) sizeofObjSlab
    rw [regionEnd_eq]
    omega
  exact ⟨h1, h2, A.layout_le_start, A.start_le_end, A.end_le, hrest, A.start_mod, A.end_mod⟩

end Region

/-! ## The managers' words -/

section Managers

variable {m : ℕ} {ic ic' : ℕ × ℕ}

/-- Words of slab managers are distinct unless manager and offset agree: the address is
`m` plus the digits `i`, `c` and `a` in the radices `nprocs` and `sizeof(slab_manager)`. -/
theorem smAddr_add_eq_iff {nprocs i c i' c' a a' : ℕ} (hc : c < nprocs) (hc' : c' < nprocs)
    (ha : a < sizeofSlabManager) (ha' : a' < sizeofSlabManager) :
    smAddr nprocs m i c + a = smAddr nprocs m i' c' + a' ↔ i = i' ∧ c = c' ∧ a = a' := by
  have hdigits : ∀ i c a, smAddr nprocs m i c + a = m + ((i * nprocs + c) * sizeofSlabManager + a) := by
    intro i c a
    rw [smAddr, smBase]
    ring
  rw [hdigits, hdigits]
  constructor
  · intro h
    obtain ⟨hrow, rfl⟩ := Nat.eq_of_mul_add_eq ha ha' (Nat.add_left_cancel h)
    obtain ⟨rfl, rfl⟩ := Nat.eq_of_mul_add_eq hc hc' hrow
    exact ⟨rfl, rfl, rfl⟩
  · rintro ⟨rfl, rfl, rfl⟩
    rfl

theorem not_inManager (hic : InRange ic) (hic' : InRange ic') (hne : ic ≠ ic') {a : ℕ}
    (ha : a < sizeofSlabManager) :
    ¬InManager (smAddr NPROCS m ic'.1 ic'.2) (smAddr NPROCS m ic.1 ic.2 + a) := by
  rintro ⟨hlo, hhi⟩
  have hx : smAddr NPROCS m ic.1 ic.2 + a =
      smAddr NPROCS m ic'.1 ic'.2 + (smAddr NPROCS m ic.1 ic.2 + a - smAddr NPROCS m ic'.1 ic'.2) := by
    omega
  have heq := (smAddr_add_eq_iff hic.2 hic'.2 ha (by omega)).mp hx
  exact hne (Prod.ext heq.1 heq.2.1)

end Managers

/-! ## Reading the view -/

section Read

variable {A : Region} {h : Heap} {i c : ℕ}

theorem heads_of_inRange (hic : InRange (i, c)) :
    (h.view A).heads (i, c) = (h.mem (smAddr NPROCS A.m i c)).toNat := if_pos hic

theorem tails_of_inRange (hic : InRange (i, c)) :
    (h.view A).tails (i, c) = (h.mem (smAddr NPROCS A.m i c + 8)).toNat := if_pos hic

theorem caches_of_inRange (hic : InRange (i, c)) :
    (h.view A).caches (i, c) =
      (BoundedStack.cellsList (ptrs h.mem (smAddr NPROCS A.m i c)) (currentIdx h.mem (smAddr NPROCS A.m i c))).map
        BitVec.toNat := if_pos hic

theorem length_caches (hic : InRange (i, c)) :
    ((h.view A).caches (i, c)).length = currentIdx h.mem (smAddr NPROCS A.m i c) := by
  rw [caches_of_inRange hic, List.length_map, BoundedStack.length_cellsList]

/-- A manager's part of the view reads only the manager's words, the cache only those below
its counter. -/
theorem view_congr_manager {μ : Mem} (hic : InRange (i, c))
    (hbound : currentIdx h.mem (smAddr NPROCS A.m i c) ≤ cacheSize)
    (hμ : ∀ a, InManager (smAddr NPROCS A.m i c) a → μ a = h.mem a) :
    ({ h with mem := μ }.view A).heads (i, c) = (h.view A).heads (i, c) ∧
      ({ h with mem := μ }.view A).tails (i, c) = (h.view A).tails (i, c) ∧
      ({ h with mem := μ }.view A).caches (i, c) = (h.view A).caches (i, c) := by
  have hsz := sizeofSlabManager_eq
  have hcs := cacheSize_eq
  have hctr : currentIdx μ (smAddr NPROCS A.m i c) = currentIdx h.mem (smAddr NPROCS A.m i c) := by
    unfold currentIdx
    rw [hμ _ ⟨by omega, by omega⟩]
  refine ⟨?_, ?_, ?_⟩
  · rw [heads_of_inRange hic, heads_of_inRange hic]
    exact congrArg BitVec.toNat (hμ _ ⟨by omega, by omega⟩)
  · rw [tails_of_inRange hic, tails_of_inRange hic]
    exact congrArg BitVec.toNat (hμ _ ⟨by omega, by omega⟩)
  · rw [caches_of_inRange hic, caches_of_inRange hic, hctr]
    congr 1
    apply BoundedStack.cellsList_congr
    intro j hj
    exact hμ _ ⟨by omega, by omega⟩

theorem caches_store_low (hic : InRange (i, c)) {a : ℕ} (ha : a < 16) (x : BitVec 64) :
    ({ h with mem := Function.update h.mem (smAddr NPROCS A.m i c + a) x }.view A).caches (i, c) =
      (h.view A).caches (i, c) := by
  have hctr : currentIdx (Function.update h.mem (smAddr NPROCS A.m i c + a) x) (smAddr NPROCS A.m i c) =
      currentIdx h.mem (smAddr NPROCS A.m i c) := by
    unfold currentIdx
    rw [Function.update_of_ne (by omega)]
  have hptrs : ptrs (Function.update h.mem (smAddr NPROCS A.m i c + a) x) (smAddr NPROCS A.m i c) =
      ptrs h.mem (smAddr NPROCS A.m i c) := by
    funext j
    exact Function.update_of_ne (by omega) _ _
  rw [caches_of_inRange hic, caches_of_inRange hic]
  dsimp only
  rw [hctr, hptrs]

@[simp] theorem view_slabs (S : ℕ → ObjSlab) :
    { h with slabs := S }.view A = { h.view A with slabs := S } := rfl

@[simp] theorem view_currentSlab (n : ℕ) :
    { h with currentSlab := n }.view A = { h.view A with currentSlab := n } := rfl

end Read

/-! ## Stores to a manager -/

section Store

variable {A : Region} {h : Heap} {i c : ℕ}
  (hb : ∀ ic, ((h.view A).caches ic).length ≤ cacheSize)
include hb

theorem currentIdx_le (hic : InRange (i, c)) : currentIdx h.mem (smAddr NPROCS A.m i c) ≤ cacheSize :=
  length_caches hic ▸ hb (i, c)

theorem view_store_ne (hic : InRange (i, c)) {μ : Mem}
    (hμ : ∀ a, ¬InManager (smAddr NPROCS A.m i c) a → μ a = h.mem a) {ic' : ℕ × ℕ} (hne : ic' ≠ (i, c)) :
    ({ h with mem := μ }.view A).heads ic' = (h.view A).heads ic' ∧
      ({ h with mem := μ }.view A).tails ic' = (h.view A).tails ic' ∧
      ({ h with mem := μ }.view A).caches ic' = (h.view A).caches ic' := by
  obtain ⟨i', c'⟩ := ic'
  by_cases hic' : InRange (i', c')
  · refine view_congr_manager hic' (currentIdx_le hb hic') fun a ha => hμ a fun ha' => ?_
    have hoff : a - smAddr NPROCS A.m i' c' < sizeofSlabManager := by
      unfold InManager at ha
      omega
    have hnot := not_inManager (m := A.m) hic' hic hne hoff
    rw [Nat.add_sub_cancel' ha.1] at hnot
    exact hnot ha'
  · simp [Heap.view, hic']

theorem view_store_other (hic : InRange (i, c)) {a : ℕ} (ha : a < sizeofSlabManager)
    (x : BitVec 64) {ic' : ℕ × ℕ} (hne : ic' ≠ (i, c)) :
    let h' : Heap := { h with mem := Function.update h.mem (smAddr NPROCS A.m i c + a) x }
    (h'.view A).heads ic' = (h.view A).heads ic' ∧ (h'.view A).tails ic' = (h.view A).tails ic' ∧
      (h'.view A).caches ic' = (h.view A).caches ic' := by
  refine view_store_ne hb hic (fun a' ha' => Function.update_of_ne ?_ _ _) hne
  rintro rfl
  exact ha' ⟨by omega, by omega⟩

/-- The store of the `cmpxchg` of `_cas_set_next_available_slab`, and the last of
`_send_slab` on an empty list: the head of `(i, c)`. -/
theorem view_store_head (hic : InRange (i, c)) (x : BitVec 64) :
    { h with mem := Function.update h.mem (smAddr NPROCS A.m i c) x }.view A =
      { h.view A with heads := Function.update (h.view A).heads (i, c) x.toNat } := by
  have hsz := sizeofSlabManager_eq
  have hother := fun ic' (hne : ic' ≠ (i, c)) => view_store_other hb hic (a := 0) (by omega) x hne
  simp only [Nat.add_zero] at hother
  ext1
  · rfl
  · rfl
  all_goals dsimp only
  · funext ic'
    by_cases hne : ic' = (i, c)
    · subst hne
      rw [Function.update_self, heads_of_inRange hic]
      simp
    · rw [Function.update_of_ne hne]
      exact (hother ic' hne).1
  · funext ic'
    by_cases hne : ic' = (i, c)
    · subst hne
      rw [tails_of_inRange hic, tails_of_inRange hic]
      simp
    · exact (hother ic' hne).2.1
  · funext ic'
    by_cases hne : ic' = (i, c)
    · subst hne
      simpa using caches_store_low hic (a := 0) (by omega) x
    · exact (hother ic' hne).2.2

theorem view_store_tail (hic : InRange (i, c)) (x : BitVec 64) :
    { h with mem := Function.update h.mem (smAddr NPROCS A.m i c + 8) x }.view A =
      { h.view A with tails := Function.update (h.view A).tails (i, c) x.toNat } := by
  have hsz := sizeofSlabManager_eq
  have hother := fun ic' (hne : ic' ≠ (i, c)) => view_store_other hb hic (a := 8) (by omega) x hne
  ext1
  · rfl
  · rfl
  all_goals dsimp only
  · funext ic'
    by_cases hne : ic' = (i, c)
    · subst hne
      rw [heads_of_inRange hic, heads_of_inRange hic]
      simp
    · exact (hother ic' hne).1
  · funext ic'
    by_cases hne : ic' = (i, c)
    · subst hne
      rw [Function.update_self, tails_of_inRange hic]
      simp
    · rw [Function.update_of_ne hne]
      exact (hother ic' hne).2.1
  · funext ic'
    by_cases hne : ic' = (i, c)
    · subst hne
      exact caches_store_low hic (by omega) x
    · exact (hother ic' hne).2.2

end Store

/-! ## The operations as updates of the view -/

section Addr

variable {A : Region} {sizeIdx : BitVec 32} {cpu : ℕ} (hic : InRange (sizeIdx.toNat, cpu))
include hic

theorem smOf_smBaseOf : (smOf (smBaseOf A sizeIdx) cpu).toNat = smAddr NPROCS A.m sizeIdx.toNat cpu :=
  smOf_smBase hic.1 hic.2 A.layout_lt

theorem smAddr_room : smAddr NPROCS A.m sizeIdx.toNat cpu + sizeofSlabManager ≤ 2 ^ 64 :=
  (smAddr_add_lt hic.1 hic.2).trans A.layout_lt

end Addr

section Ops

variable {A : Region} {h : Heap} {sizeIdx : BitVec 32} {cpu : ℕ}
  (hb : ∀ ic, ((h.view A).caches ic).length ≤ cacheSize) (hic : InRange (sizeIdx.toNat, cpu))
include hb hic

/-- `_send_slab` appends to the list of its class on its CPU. -/
theorem view_sendSlab {x : ℕ} (hx : x < 2 ^ 64) :
    (sendSlab h x (smBaseOf A sizeIdx) cpu).view A = (h.view A).append (sizeIdx.toNat, cpu) x := by
  have hsm := smOf_smBaseOf (A := A) hic
  have hroom := smAddr_room (A := A) hic
  have hx' : (BitVec.ofNat 64 x).toNat = x := by
    rw [BitVec.toNat_ofNat]
    exact Nat.mod_eq_of_lt hx
  unfold View.append
  by_cases h0 : h.mem (smAddr NPROCS A.m sizeIdx.toNat cpu) = 0#64
  · have hhead : (h.view A).heads (sizeIdx.toNat, cpu) = 0 := by
      rw [heads_of_inRange hic, h0]
      rfl
    rw [sendSlab_of_empty hsm hroom x h0, if_pos hhead]
    -- the tail is stored first, then the head
    let h₁ : Heap := { h with
      mem := Function.update h.mem (smAddr NPROCS A.m sizeIdx.toNat cpu + 8) (BitVec.ofNat 64 x) }
    have hv₁ : h₁.view A =
        { h.view A with tails := Function.update (h.view A).tails (sizeIdx.toNat, cpu) x } := by
      rw [view_store_tail hb hic, hx']
    have hb₁ : ∀ ic, ((h₁.view A).caches ic).length ≤ cacheSize := by
      rw [hv₁]
      exact hb
    show { h₁ with mem := Function.update h₁.mem _ _ }.view A = _
    rw [view_store_head hb₁ hic, hv₁, hx']
  · have hhead : (h.view A).heads (sizeIdx.toNat, cpu) ≠ 0 := by
      rw [heads_of_inRange hic]
      exact fun e => h0 (BitVec.eq_of_toNat_eq e)
    rw [sendSlab_of_ne hsm hroom x h0, if_neg hhead]
    let h₁ : Heap := { h with
      slabs := Function.update h.slabs (h.mem (smAddr NPROCS A.m sizeIdx.toNat cpu + 8)).toNat
        { h.slabs (h.mem (smAddr NPROCS A.m sizeIdx.toNat cpu + 8)).toNat with next := x } }
    have hb₁ : ∀ ic, ((h₁.view A).caches ic).length ≤ cacheSize := hb
    show { h₁ with mem := Function.update h₁.mem _ _ }.view A = _
    rw [view_store_tail hb₁ hic, hx', tails_of_inRange hic]
    rfl

theorem view_store_head_of (x : ℕ) (hx : x < 2 ^ 64) :
    { h with mem := Function.update h.mem (smAddr NPROCS A.m sizeIdx.toNat cpu) (BitVec.ofNat 64 x) }.view A =
      { h.view A with heads := Function.update (h.view A).heads (sizeIdx.toNat, cpu) x } := by
  rw [view_store_head hb hic, BitVec.toNat_ofNat, Nat.mod_eq_of_lt hx]

end Ops

/-- A store above the tail word leaves head and tail of `(i, c)`; the caches' stores. -/
private theorem heads_tails_congr {A : Region} {h : Heap} {i c : ℕ} (hic : InRange (i, c)) {μ : Mem}
    (h0 : μ (smAddr NPROCS A.m i c) = h.mem (smAddr NPROCS A.m i c))
    (h8 : μ (smAddr NPROCS A.m i c + 8) = h.mem (smAddr NPROCS A.m i c + 8)) :
    ({ h with mem := μ }.view A).heads (i, c) = (h.view A).heads (i, c) ∧
      ({ h with mem := μ }.view A).tails (i, c) = (h.view A).tails (i, c) := by
  rw [heads_of_inRange hic, heads_of_inRange hic, tails_of_inRange hic, tails_of_inRange hic]
  exact ⟨congrArg BitVec.toNat h0, congrArg BitVec.toNat h8⟩

section Cache

variable {A : Region} {h : Heap} {sizeIdx : BitVec 32} {cpu : ℕ}
  (hb : ∀ ic, ((h.view A).caches ic).length ≤ cacheSize) (hic : InRange (sizeIdx.toNat, cpu))
include hb hic

theorem view_tryPush (p : BitVec 64)
    (hlt : ((h.view A).caches (sizeIdx.toNat, cpu)).length < cacheSize) :
    (tryPush h.mem p (smBaseOf A sizeIdx) cpu).2 = 0#64 ∧
      { h with mem := (tryPush h.mem p (smBaseOf A sizeIdx) cpu).1 }.view A =
        { h.view A with
          caches := Function.update (h.view A).caches (sizeIdx.toNat, cpu)
            ((h.view A).caches (sizeIdx.toNat, cpu) ++ [p.toNat]) } := by
  have hsm := smOf_smBaseOf (A := A) hic
  have hroom := smAddr_room (A := A) hic
  have hsz := sizeofSlabManager_eq
  have hcs := cacheSize_eq
  have hlt' : currentIdx h.mem (smAddr NPROCS A.m sizeIdx.toNat cpu) < cacheSize := length_caches hic ▸ hlt
  have hpush := tryPush_of_lt hsm hroom hlt' p
  refine ⟨by rw [hpush], ?_⟩
  have hother := fun ic' (hne : ic' ≠ (sizeIdx.toNat, cpu)) =>
    view_store_ne hb hic (fun a ha => tryPush_frame hsm hroom (currentIdx_le hb hic) p ha) hne
  have hlow : ∀ a < 16, (tryPush h.mem p (smBaseOf A sizeIdx) cpu).1 (smAddr NPROCS A.m sizeIdx.toNat cpu + a) =
      h.mem (smAddr NPROCS A.m sizeIdx.toNat cpu + a) := by
    intro a ha
    have n16 : smAddr NPROCS A.m sizeIdx.toNat cpu + a ≠ smAddr NPROCS A.m sizeIdx.toNat cpu + 16 := by omega
    have ncell : smAddr NPROCS A.m sizeIdx.toNat cpu + a ≠ smAddr NPROCS A.m sizeIdx.toNat cpu + 24 +
        8 * currentIdx h.mem (smAddr NPROCS A.m sizeIdx.toNat cpu) := by omega
    rw [hpush]
    exact (Function.update_of_ne n16 _ _).trans (Function.update_of_ne ncell _ _)
  have hown := heads_tails_congr (A := A) (h := h) hic (hlow 0 (by omega)) (hlow 8 (by omega))
  obtain ⟨_, hstack⟩ := stack_tryPush hsm hroom hlt' p
  have hitems := BoundedStack.items_of_push hstack
  ext1
  · rfl
  · rfl
  all_goals dsimp only
  · funext ic'
    by_cases hne : ic' = (sizeIdx.toNat, cpu)
    · subst hne
      exact hown.1
    · exact (hother ic' hne).1
  · funext ic'
    by_cases hne : ic' = (sizeIdx.toNat, cpu)
    · subst hne
      exact hown.2
    · exact (hother ic' hne).2.1
  · funext ic'
    by_cases hne : ic' = (sizeIdx.toNat, cpu)
    · subst hne
      rw [Function.update_self, caches_of_inRange hic, caches_of_inRange hic]
      exact (congrArg (List.map BitVec.toNat) hitems).trans (List.map_append ..)
    · rw [Function.update_of_ne hne]
      exact (hother ic' hne).2.2

theorem view_tryPop {l : List ℕ} {p : ℕ} (hl : (h.view A).caches (sizeIdx.toNat, cpu) = l ++ [p]) :
    (tryPop h.mem (smBaseOf A sizeIdx) cpu).2.toNat = p ∧
      { h with mem := (tryPop h.mem (smBaseOf A sizeIdx) cpu).1 }.view A =
        { h.view A with caches := Function.update (h.view A).caches (sizeIdx.toNat, cpu) l } := by
  have hsm := smOf_smBaseOf (A := A) hic
  have hroom := smAddr_room (A := A) hic
  have hsz := sizeofSlabManager_eq
  have hbound := currentIdx_le hb hic
  have hpos : 0 < currentIdx h.mem (smAddr NPROCS A.m sizeIdx.toNat cpu) := by
    rw [← length_caches hic, hl, List.length_append, List.length_singleton]
    omega
  have hpop := tryPop_of_pos hsm hroom hpos hbound
  have hother := fun ic' (hne : ic' ≠ (sizeIdx.toNat, cpu)) =>
    view_store_ne hb hic (fun a ha => tryPop_frame hsm hroom hbound ha) hne
  have hlow : ∀ a < 16, (tryPop h.mem (smBaseOf A sizeIdx) cpu).1 (smAddr NPROCS A.m sizeIdx.toNat cpu + a) =
      h.mem (smAddr NPROCS A.m sizeIdx.toNat cpu + a) := by
    intro a ha
    have n16 : smAddr NPROCS A.m sizeIdx.toNat cpu + a ≠ smAddr NPROCS A.m sizeIdx.toNat cpu + 16 := by omega
    rw [hpop]
    exact Function.update_of_ne n16 _ _
  have hown := heads_tails_congr (A := A) (h := h) hic (hlow 0 (by omega)) (hlow 8 (by omega))
  obtain ⟨_, hstack⟩ := stack_tryPop hsm hroom hpos hbound
  have hsplit : (h.view A).caches (sizeIdx.toNat, cpu) =
      ({ h with mem := (tryPop h.mem (smBaseOf A sizeIdx) cpu).1 }.view A).caches (sizeIdx.toNat, cpu) ++
        [(tryPop h.mem (smBaseOf A sizeIdx) cpu).2.toNat] := by
    rw [caches_of_inRange hic, caches_of_inRange hic]
    exact (congrArg (List.map BitVec.toNat) (BoundedStack.items_of_pop hstack)).trans
      (List.map_append ..)
  rw [hl] at hsplit
  obtain ⟨hrest, hlast⟩ := List.append_inj' hsplit rfl
  refine ⟨(List.singleton_inj.mp hlast).symm, ?_⟩
  ext1
  · rfl
  · rfl
  all_goals dsimp only
  · funext ic'
    by_cases hne : ic' = (sizeIdx.toNat, cpu)
    · subst hne
      exact hown.1
    · exact (hother ic' hne).1
  · funext ic'
    by_cases hne : ic' = (sizeIdx.toNat, cpu)
    · subst hne
      exact hown.2
    · exact (hother ic' hne).2.1
  · funext ic'
    by_cases hne : ic' = (sizeIdx.toNat, cpu)
    · subst hne
      rw [Function.update_self, hrest]
    · rw [Function.update_of_ne hne]
      exact (hother ic' hne).2.2

end Cache

section CacheEnds

variable {A : Region} {h : Heap} {sizeIdx : BitVec 32} {cpu : ℕ} (hic : InRange (sizeIdx.toNat, cpu))
include hic

theorem tryPush_of_full_cache (p : BitVec 64)
    (hfull : ((h.view A).caches (sizeIdx.toNat, cpu)).length = cacheSize) :
    tryPush h.mem p (smBaseOf A sizeIdx) cpu = (h.mem, 1#64) :=
  tryPush_of_full (smOf_smBaseOf hic) (smAddr_room hic) (length_caches hic ▸ hfull) p

theorem tryPop_of_empty_cache (hl : (h.view A).caches (sizeIdx.toNat, cpu) = []) :
    tryPop h.mem (smBaseOf A sizeIdx) cpu = (h.mem, 0#64) := by
  have h0 : currentIdx h.mem (smAddr NPROCS A.m sizeIdx.toNat cpu) = 0 := by
    rw [← length_caches hic, hl, List.length_nil]
  exact tryPop_of_zero (smOf_smBaseOf hic) (smAddr_room hic) h0

end CacheEnds

end NCMalloc
