import NCMalloc.Allocator.Sequential

/-!
# What the allocator hands out

Consequences of the accounting invariant for the blocks themselves, over every sequence of
operations from a fresh allocator: live blocks lie in the payloads of slabs inside the slab
region and never overlap; `_allocate(size)` returns a block that was not live, of the class
of `size` and so of at least `size` bytes, that `addr_to_slab` maps back to its slab; and a
`_free` followed by an `_allocate` of the same class on the same CPU returns the freed block
and leaves the allocator as it was.
-/

namespace NCMalloc

open ObjSlab FreeCache

/-! ## Blocks of slabs -/

theorem blockAddr_add_le_of_lt {s b k k' : ℕ} (h : k < k') :
    blockAddr s b k + b ≤ blockAddr s b k' := by
  have hmul : b * (k + 1) ≤ b * k' := Nat.mul_le_mul_left b h
  unfold blockAddr
  rw [Nat.mul_succ] at hmul
  omega

theorem blockAddr_add_le_of_slab_lt {s s' b b' k k' : ℕ} (hs : s % sizeofObjSlab = 0)
    (hs' : s' % sizeofObjSlab = 0) (hk : k < nblocks b) (h : s < s') :
    blockAddr s b k + b ≤ blockAddr s' b' k' := by
  have hle := blockAddr_add_le (s := s) hk
  have hpay : payloadOffset + payloadSize ≤ sizeofObjSlab := by decide
  obtain ⟨q, rfl⟩ := Nat.dvd_of_mod_eq_zero hs
  obtain ⟨q', rfl⟩ := Nat.dvd_of_mod_eq_zero hs'
  have hq : sizeofObjSlab * (q + 1) ≤ sizeofObjSlab * q' :=
    Nat.mul_le_mul_left _ (Nat.lt_of_mul_lt_mul_left h)
  have hlo : sizeofObjSlab * q' ≤ blockAddr (sizeofObjSlab * q') b' k' := by
    unfold blockAddr
    omega
  rw [Nat.mul_succ] at hq
  omega

theorem blockAddr_disjoint {s s' b b' k k' : ℕ} (hs : s % sizeofObjSlab = 0)
    (hs' : s' % sizeofObjSlab = 0) (hk : k < nblocks b) (hk' : k' < nblocks b')
    (hb : s = s' → b = b') (hne : blockAddr s b k ≠ blockAddr s' b' k') :
    blockAddr s b k + b ≤ blockAddr s' b' k' ∨ blockAddr s' b' k' + b' ≤ blockAddr s b k := by
  rcases lt_trichotomy s s' with hlt | rfl | hlt
  · exact .inl (blockAddr_add_le_of_slab_lt hs hs' hk hlt)
  · obtain rfl := hb rfl
    rcases lt_trichotomy k k' with hkk | rfl | hkk
    · exact .inl (blockAddr_add_le_of_lt hkk)
    · exact absurd rfl hne
    · exact .inr (blockAddr_add_le_of_lt hkk)
  · exact .inr (blockAddr_add_le_of_slab_lt hs' hs hk' hlt)

theorem dvd_blockAddr {d s b k : ℕ} (hs : d ∣ s) (ho : d ∣ payloadOffset) (hb : d ∣ b) :
    d ∣ blockAddr s b k :=
  dvd_add (dvd_add hs ho) (Dvd.dvd.mul_right hb k)

theorem eight_dvd_classSize : ∀ i : Fin numSizeClasses, 8 ∣ classSize i.val := by
  decide

theorem blockAddr_sub (s b k : ℕ) : blockAddr s b k - s - payloadOffset = b * k := by
  unfold blockAddr
  omega

section Blocks

variable {A : Region} {v : View} {L : ℕ × ℕ → List ℕ} {live : Finset ℕ}

theorem View.BlockOf.decode {i p : ℕ} (h : v.BlockOf A i p) :
    v.Carved A (addrToSlab p) ∧ (v.slabs (addrToSlab p)).blockSize = classSize i ∧
      ∃ k < nblocks (classSize i), p = blockAddr (addrToSlab p) (classSize i) k := by
  obtain ⟨s, k, hs, hbs, hk, rfl⟩ := h
  rw [addrToSlab_blockAddr hs.1 hk]
  exact ⟨hs, hbs, k, hk, rfl⟩

theorem Inv.blockOf_within (hI : Inv A v L live) {i p : ℕ} (h : v.BlockOf A i p) :
    A.start ≤ addrToSlab p ∧ addrToSlab p + payloadOffset ≤ p ∧
      p + classSize i ≤ addrToSlab p + payloadOffset + payloadSize ∧
      addrToSlab p + sizeofObjSlab ≤ A.regionEnd := by
  obtain ⟨hs, -, k, hk, hp⟩ := h.decode
  generalize addrToSlab p = s at hs hp ⊢
  subst hp
  have hend := (hI.add_le_current hs).trans hI.current_le
  refine ⟨hs.2.1, ?_, blockAddr_add_le hk, hend⟩
  unfold blockAddr
  omega

theorem Inv.blockOf_gt (hI : Inv A v L live) {i p : ℕ} (h : v.BlockOf A i p) : 128 < p := by
  have hlow := (hI.blockOf_bounds h).1
  have hpay : payloadOffset = 1280 := rfl
  omega

theorem Inv.blocks_disjoint {i j p q : ℕ} (hp : v.BlockOf A i p) (hq : v.BlockOf A j q)
    (hne : p ≠ q) : p + classSize i ≤ q ∨ q + classSize j ≤ p := by
  obtain ⟨hs, hbs, k, hk, hpk⟩ := hp.decode
  obtain ⟨hs', hbs', k', hk', hqk⟩ := hq.decode
  have hb : addrToSlab p = addrToSlab q → classSize i = classSize j := by
    intro he
    rw [← hbs, ← hbs', he]
  rw [hpk, hqk] at hne ⊢
  exact blockAddr_disjoint hs.1 hs'.1 hk hk' hb hne

end Blocks

/-! ## When `_allocate` returns `NULL` -/

section Null

variable {A : Region} {h h' : Heap} {sizeIdx : BitVec 32} {cpu : ℕ}

/-- A pass of `_allocate_inner` ends in `NULL` only on an empty list with the bump pointer at
the region's end: a pass that allocates from the head returns an address past its payload
offset, and every other pass loops. -/
theorem allocateInnerPass_null (hp : allocateInnerPass A h sizeIdx cpu = .done h' 0) :
    A.regionEnd ≤ h'.currentSlab ∧ (h'.mem (smAddr NPROCS A.m sizeIdx.toNat cpu)).toNat = 0 := by
  by_cases h0 : (h.mem (smAddr NPROCS A.m sizeIdx.toNat cpu)).toNat = 0
  · by_cases hoom : A.regionEnd ≤ h.currentSlab
    · rw [pass_of_oom A h sizeIdx cpu h0 hoom] at hp
      cases hp
      exact ⟨hoom, h0⟩
    · rw [pass_of_carve A h sizeIdx cpu h0 (not_le.mp hoom)] at hp
      cases hp
  · cases hres : (h.slabs (h.mem (smAddr NPROCS A.m sizeIdx.toNat cpu)).toNat).allocate cpu cpu with
    | mk s' ret =>
      by_cases hret : ret < SUCCESS_BOUND
      · rw [pass_of_success A h sizeIdx cpu h0 hres hret] at hp
        have hpay : payloadOffset = 1280 := rfl
        injection hp with _ hzero
        omega
      · -- `FULL` or `MIGRATED`: each branch loops
        simp only [allocateInnerPass, h0, hres, hret, if_false] at hp
        split_ifs at hp

theorem allocateInner_null {fuel : ℕ} (hres : allocateInner A fuel h sizeIdx cpu = some (h', 0)) :
    A.regionEnd ≤ h'.currentSlab ∧ (h'.mem (smAddr NPROCS A.m sizeIdx.toNat cpu)).toNat = 0 := by
  induction fuel generalizing h with
  | zero => cases hres
  | succ n ih =>
    cases hp : allocateInnerPass A h sizeIdx cpu with
    | done h₁ r =>
      simp only [allocateInner, hp, Option.some.injEq, Prod.mk.injEq] at hres
      obtain ⟨rfl, rfl⟩ := hres
      exact allocateInnerPass_null hp
    | loop h₁ =>
      simp only [allocateInner, hp] at hres
      exact ih hres

end Null

/-! ## Runs of operations -/

namespace World

variable {A : Region}

/-- The block size `_free` reads for `p`: that of the slab `addr_to_slab(p)`. -/
def blockSize (w : World) (p : ℕ) : ℕ := (w.heap.slabs (addrToSlab p)).blockSize

theorem Reachable.accounted {w : World} (hw : w.Reachable A) : Accounted A w :=
  StateMachine.Reachable.invariant (accounted_init A) (fun _ _ h hs => accounted_step h hs) hw

theorem blockSize_of_live {L : ℕ × ℕ → List ℕ} {w : World}
    (hI : Inv A (w.heap.view A) L w.live) {p : ℕ} (hp : p ∈ w.live) :
    ∃ i < numSizeClasses, (w.heap.view A).BlockOf A i p ∧ w.blockSize p = classSize i := by
  obtain ⟨i, hi, hblk⟩ := hI.live_block p hp
  exact ⟨i, hi, hblk, hblk.decode.2.1⟩

/-- After every sequence of operations from a fresh allocator, each live block lies in the
payload of the slab `addr_to_slab` gives for it, that slab inside the slab region, and two
distinct live blocks do not overlap. -/
theorem live_blocks_disjoint {w : World} (hw : w.Reachable A) :
    (∀ p ∈ w.live, 8 ≤ w.blockSize p ∧ A.start ≤ addrToSlab p ∧
      addrToSlab p + payloadOffset ≤ p ∧
      p + w.blockSize p ≤ addrToSlab p + payloadOffset + payloadSize ∧
      addrToSlab p + sizeofObjSlab ≤ A.regionEnd) ∧
    ∀ p ∈ w.live, ∀ q ∈ w.live, p ≠ q → p + w.blockSize p ≤ q ∨ q + w.blockSize q ≤ p := by
  obtain ⟨L, hI⟩ := hw.accounted
  constructor
  · intro p hp
    obtain ⟨i, hi, hblk, hsize⟩ := blockSize_of_live hI hp
    rw [hsize]
    exact ⟨(classSize_valid hi).1, hI.blockOf_within hblk⟩
  · intro p hp q hq hne
    obtain ⟨i, -, hblk, hsize⟩ := blockSize_of_live hI hp
    obtain ⟨j, -, hblk', hsize'⟩ := blockSize_of_live hI hq
    rw [hsize, hsize']
    exact Inv.blocks_disjoint hblk hblk' hne

theorem le_classSize_sizeToIdx {size : BitVec 32} (hsize : ValidSize size.toNat) :
    size.toNat ≤ classSize (sizeToIdx size).toNat := by
  have h := (sizeToIdx_valid ⟨size.toNat, Nat.lt_succ_of_le hsize.2⟩ hsize).2.1
  rw [BitVec.ofNat_toNat, BitVec.setWidth_eq] at h
  rwa [classSize_toNat]

/-- From every reachable world, `_allocate(size)` with `1 <= size <= 144` on any CPU returns
`NULL` or a block that was not live: a slot of the slab `addr_to_slab` gives for it, whose
block size is `idx_to_size(size_to_idx(size))` and so at least `size`, overlapping no live
block. -/
theorem allocate_fresh_block {w : World} (hw : w.Reachable A) {size : BitVec 32}
    (hsize : ValidSize size.toNat) {cpu fuel : ℕ} (hcpu : cpu < NPROCS) {h' : Heap} {ret : ℕ}
    (hres : NCMalloc.allocate A w.heap size cpu fuel = some (h', ret)) (hret : ret ≠ 0) :
    ret ∉ w.live ∧
      (h'.slabs (addrToSlab ret)).blockSize = (idxToSize (sizeToIdx size)).toNat ∧
      size.toNat ≤ (h'.slabs (addrToSlab ret)).blockSize ∧
      (∃ k < nblocks (h'.slabs (addrToSlab ret)).blockSize,
        ret = addrToSlab ret + payloadOffset + (h'.slabs (addrToSlab ret)).blockSize * k) ∧
      ∀ q ∈ w.live, ret + (h'.slabs (addrToSlab ret)).blockSize ≤ q ∨
        q + (h'.slabs (addrToSlab q)).blockSize ≤ ret := by
  obtain ⟨L, hI⟩ := hw.accounted
  rcases hI.of_allocate hsize hcpu hres with ⟨rfl, -⟩ | ⟨hnot, hblk, L', hI'⟩
  · exact absurd rfl hret
  obtain ⟨-, hbs, k, hk, hret'⟩ := hblk.decode
  have hbs' : (h'.slabs (addrToSlab ret)).blockSize = classSize (sizeToIdx size).toNat := hbs
  rw [hbs']
  refine ⟨hnot, classSize_toNat _, le_classSize_sizeToIdx hsize, ⟨k, hk, hret'⟩, ?_⟩
  intro q hq
  obtain ⟨j, -, hq'⟩ := hI'.live_block q (Finset.mem_insert_of_mem hq)
  have hne : ret ≠ q := fun he => hnot (he ▸ hq)
  have hbq : (h'.slabs (addrToSlab q)).blockSize = classSize j := hq'.decode.2.1
  rw [hbq]
  exact Inv.blocks_disjoint hblk hq' hne

theorem eq_some_getD_of_map_snd {o : Option (Heap × ℕ)} {r : ℕ} (d : Heap)
    (h : o.map Prod.snd = some r) : o = some ((o.map Prod.fst).getD d, r) := by
  cases o with
  | none => cases h
  | some x =>
    rw [Option.map_some, Option.some.injEq] at h
    rw [Option.map_some, Option.getD_some, ← h]

/-! ### Sample runs

Two allocators at address 4096: one over a mebibyte, and one whose region holds a single slab.
The witnesses below run on the worlds a call or two reaches from them; the calls are evaluated
once, by the kernel, in `sample_runs`. -/

/-- The heap after the first `_allocate(8)` on CPU 0 of an allocator over one mebibyte. -/
def firstHeap : Heap :=
  ((NCMalloc.allocate mebibyte (init mebibyte).heap 8#32 0 2).map Prod.fst).getD (init mebibyte).heap

/-- The world after that call: one live block. -/
def firstWorld : World := ⟨firstHeap, insert 35328 ∅⟩

/-- An allocator whose region holds one slab. -/
def oneSlab : Region := ⟨4096, 2 ^ 16, by norm_num, by decide⟩

/-- The heap after its first `_allocate(8)` on CPU 0, which carves its one slab. -/
def oneSlabHeap : Heap :=
  ((NCMalloc.allocate oneSlab (init oneSlab).heap 8#32 0 2).map Prod.fst).getD (init oneSlab).heap

def oneSlabWorld : World := ⟨oneSlabHeap, insert 35328 ∅⟩

/-- The heap after a following `_allocate(16)`, which finds no room for a second slab. -/
def nullHeap : Heap :=
  ((NCMalloc.allocate oneSlab oneSlabHeap 16#32 0 1).map Prod.fst).getD oneSlabHeap

/-- The heap after a second `_allocate(8)` on CPU 0 of the first world. -/
def secondHeap : Heap :=
  ((NCMalloc.allocate mebibyte firstHeap 8#32 0 2).map Prod.fst).getD firstHeap

/-- What the sample calls return, and the class and cache of the first world's block. -/
theorem sample_runs :
    (NCMalloc.allocate mebibyte (init mebibyte).heap 8#32 0 2).map Prod.snd = some 35328 ∧
      sizeToIdx 8#32 = sizeToIdx (BitVec.ofNat 32 (firstWorld.blockSize 35328)) ∧
      ((firstWorld.heap.view mebibyte).caches ((sizeToIdx 8#32).toNat, 0)).length < cacheSize ∧
      (NCMalloc.allocate oneSlab (init oneSlab).heap 8#32 0 2).map Prod.snd = some 35328 ∧
      (NCMalloc.allocate oneSlab oneSlabHeap 16#32 0 1).map Prod.snd = some 0 ∧
      (NCMalloc.allocate mebibyte firstHeap 8#32 0 2).map Prod.snd = some 35336 := by
  decide +kernel

/-- The first call carves the first slab, at 34048, and returns its first block. -/
theorem allocate_first :
    NCMalloc.allocate mebibyte (init mebibyte).heap 8#32 0 2 = some (firstHeap, 35328) :=
  eq_some_getD_of_map_snd _ sample_runs.1

theorem firstWorld_reachable : firstWorld.Reachable mebibyte :=
  StateMachine.Reachable.tail StateMachine.Reachable.refl
    (Step.allocate (init mebibyte) 8#32 0 2 firstHeap 35328 (by decide) (by decide) allocate_first)

theorem accounting_invariant_first :
    ∃ L, Inv mebibyte (firstWorld.heap.view mebibyte) L firstWorld.live :=
  accounting_invariant firstWorld_reachable

theorem allocate_oneSlab :
    NCMalloc.allocate oneSlab (init oneSlab).heap 8#32 0 2 = some (oneSlabHeap, 35328) :=
  eq_some_getD_of_map_snd _ sample_runs.2.2.2.1

theorem oneSlabWorld_reachable : oneSlabWorld.Reachable oneSlab :=
  StateMachine.Reachable.tail StateMachine.Reachable.refl
    (Step.allocate (init oneSlab) 8#32 0 2 oneSlabHeap 35328 (by decide) (by decide) allocate_oneSlab)

theorem allocate_oneSlab_null :
    NCMalloc.allocate oneSlab oneSlabWorld.heap 16#32 0 1 = some (nullHeap, 0) :=
  eq_some_getD_of_map_snd _ sample_runs.2.2.2.2.1

theorem allocate_second :
    NCMalloc.allocate mebibyte firstWorld.heap 8#32 0 2 = some (secondHeap, 35336) :=
  eq_some_getD_of_map_snd _ sample_runs.2.2.2.2.2

theorem allocate_fresh_block_second :
    35336 ∉ firstWorld.live ∧
      (secondHeap.slabs (addrToSlab 35336)).blockSize = (idxToSize (sizeToIdx 8#32)).toNat ∧
      (8#32 : BitVec 32).toNat ≤ (secondHeap.slabs (addrToSlab 35336)).blockSize ∧
      (∃ k < nblocks (secondHeap.slabs (addrToSlab 35336)).blockSize,
        35336 = addrToSlab 35336 + payloadOffset + (secondHeap.slabs (addrToSlab 35336)).blockSize * k) ∧
      ∀ q ∈ firstWorld.live, 35336 + (secondHeap.slabs (addrToSlab 35336)).blockSize ≤ q ∨
        q + (secondHeap.slabs (addrToSlab q)).blockSize ≤ 35336 :=
  allocate_fresh_block firstWorld_reachable (by decide) (by decide) allocate_second (by decide)

/-- From every reachable world, every live block passes the allocator's own address checks,
`in_range` and the asserts of `_valid_addr`. -/
theorem live_blocks_valid {w : World} (hw : w.Reachable A) :
    ∀ p ∈ w.live, A.inRange p = true ∧ A.validAddr p = true := by
  obtain ⟨L, hI⟩ := hw.accounted
  intro p hp
  obtain ⟨i, hi, hblk, -⟩ := blockSize_of_live hI hp
  obtain ⟨hstart, hlow, hhigh, hend⟩ := hI.blockOf_within hblk
  have hb := (classSize_valid hi).1
  have hlay := A.layout_le_start
  have hpay : payloadOffset = 1280 := rfl
  have hsize : payloadOffset + payloadSize ≤ sizeofObjSlab := by decide
  -- `addr % sizeof(slab_t)` is the offset of the block in its slab
  have hmod : p % sizeofObjSlab = p - addrToSlab p := Nat.mod_def p sizeofObjSlab
  simp only [Region.inRange, Region.validAddr, Bool.and_eq_true, Bool.or_eq_true,
    decide_eq_true_eq]
  exact ⟨⟨by omega, by omega⟩, .inr ⟨⟨by omega, by omega⟩, by omega⟩⟩

theorem live_blocks_valid_first :
    35328 ∈ firstWorld.live ∧ mebibyte.inRange 35328 = true ∧ mebibyte.validAddr 35328 = true :=
  ⟨Finset.mem_insert_self _ _, live_blocks_valid firstWorld_reachable 35328 (Finset.mem_insert_self _ _)⟩

/-- From every reachable world, `_free(p)` of a live block on a CPU whose free cache of its
class has room, followed by `_allocate(size)` of the same class on that CPU, returns `p` and
leaves the allocator's lists, caches, slabs and bump pointer as they were before the free. -/
theorem free_then_allocate {w : World} (hw : w.Reachable A) {p : ℕ} (hp : p ∈ w.live)
    {cpu : ℕ} (hcpu : cpu < NPROCS) {size : BitVec 32} (hsize : ValidSize size.toNat)
    (hcls : sizeToIdx size = sizeToIdx (BitVec.ofNat 32 (w.blockSize p)))
    (hroom : ((w.heap.view A).caches ((sizeToIdx size).toNat, cpu)).length < cacheSize)
    (fuel : ℕ) :
    ∃ h', NCMalloc.allocate A (NCMalloc.free A w.heap p cpu) size cpu fuel = some (h', p) ∧
      h'.view A = w.heap.view A := by
  obtain ⟨L, hI⟩ := hw.accounted
  have hic : InRange ((sizeToIdx size).toNat, cpu) := ⟨sizeToIdx_lt hsize, hcpu⟩
  obtain ⟨i, -, hblk⟩ := hI.live_block p hp
  have hbounds := hI.blockOf_bounds hblk
  have hp64 : (BitVec.ofNat 64 p).toNat = p := by
    rw [BitVec.toNat_ofNat]
    exact Nat.mod_eq_of_lt hbounds.2
  -- `_free` pushes `p` onto the cache
  obtain ⟨hpush, hview₁⟩ := view_tryPush hI.cache_bound hic (BitVec.ofNat 64 p) hroom
  rw [hp64] at hview₁
  rw [free_of_push hcls.symm (Prod.ext rfl hpush)]
  set h₁ : Heap := { w.heap with mem := (tryPush w.heap.mem (BitVec.ofNat 64 p)
    (smBaseOf A (sizeToIdx size)) cpu).1 } with hh₁
  have hb₁ : ∀ ic, ((h₁.view A).caches ic).length ≤ cacheSize := by
    intro ic
    rw [hview₁]
    dsimp only
    by_cases hne : ic = ((sizeToIdx size).toNat, cpu)
    · subst hne
      rw [Function.update_self, List.length_append, List.length_singleton]
      omega
    · rw [Function.update_of_ne hne]
      exact hI.cache_bound ic
  have hl : (h₁.view A).caches ((sizeToIdx size).toNat, cpu) =
      (w.heap.view A).caches ((sizeToIdx size).toNat, cpu) ++ [p] := by
    rw [hview₁]
    exact Function.update_self ..
  -- `_allocate` pops it again, a block above the slab managers
  obtain ⟨hpop, hview₂⟩ := view_tryPop hb₁ hic hl
  have hbig : (tryPop h₁.mem (smBaseOf A (sizeToIdx size)) cpu).2 > 1#64 <<< logSizeofSlabManager := by
    rw [one_shiftLeft_logSizeofSlabManager, gt_iff_lt, BitVec.lt_def, hpop]
    exact hI.blockOf_gt hblk
  refine ⟨{ h₁ with mem := (tryPop h₁.mem (smBaseOf A (sizeToIdx size)) cpu).1 }, ?_, ?_⟩
  · unfold NCMalloc.allocate
    dsimp only
    rw [if_pos hbig, hpop]
  · rw [hview₂, hview₁]
    dsimp only
    rw [Function.update_idem, Function.update_eq_self]

theorem free_then_allocate_first :
    ∃ h', NCMalloc.allocate mebibyte (NCMalloc.free mebibyte firstWorld.heap 35328 0) 8#32 0 1 =
      some (h', 35328) ∧ h'.view mebibyte = firstWorld.heap.view mebibyte :=
  free_then_allocate firstWorld_reachable (Finset.mem_insert_self _ _) (by decide) (by decide)
    sample_runs.2.1 sample_runs.2.2.1 1

/-- From every reachable world, every live block is 8-byte aligned, and 16-byte aligned when
its block size is a multiple of 16 (every class but 8 and 24): slabs are aligned to
`sizeof(obj_slab)`, a multiple of 16, and the payload starts 1280 bytes in. -/
theorem live_block_aligned {w : World} (hw : w.Reachable A) :
    ∀ p ∈ w.live, 8 ∣ p ∧ (16 ∣ w.blockSize p → 16 ∣ p) := by
  obtain ⟨L, hI⟩ := hw.accounted
  intro p hp
  obtain ⟨i, hi, hblk, hsize⟩ := blockSize_of_live hI hp
  obtain ⟨hs, -, k, -, hpk⟩ := hblk.decode
  have hs16 : 16 ∣ addrToSlab p :=
    dvd_trans (by decide : 16 ∣ sizeofObjSlab) (Nat.dvd_of_mod_eq_zero hs.1)
  refine ⟨?_, fun h16 => ?_⟩
  · rw [hpk]
    exact dvd_blockAddr (dvd_trans (by decide) hs16) (by decide) (eight_dvd_classSize ⟨i, hi⟩)
  · rw [hsize] at h16
    rw [hpk]
    exact dvd_blockAddr hs16 (by decide) h16

theorem live_block_aligned_first :
    35328 ∈ firstWorld.live ∧ 8 ∣ 35328 ∧ (16 ∣ firstWorld.blockSize 35328 → 16 ∣ 35328) :=
  ⟨Finset.mem_insert_self _ _, live_block_aligned firstWorld_reachable 35328 (Finset.mem_insert_self _ _)⟩

/-- From every reachable world, `obj_slab::_free` run on a live block meets none of its
`IMPOSSIBLE_COND`s: the offset from the slab is at least `payload_offset` and inside the
payload, `position_idx` is below `capacity` and `vec_idx` below 64; and the division by
`block_size` is exact, so `position_idx` is the block's own slot. -/
theorem free_position_exact {w : World} (hw : w.Reachable A) {p : ℕ} (hp : p ∈ w.live) :
    payloadOffset ≤ p - addrToSlab p ∧
      p - addrToSlab p - payloadOffset < payloadSize ∧
      (p - addrToSlab p - payloadOffset) / w.blockSize p < capacity ∧
      (p - addrToSlab p - payloadOffset) / w.blockSize p / numVecs < 64 ∧
      w.blockSize p * ((p - addrToSlab p - payloadOffset) / w.blockSize p) =
        p - addrToSlab p - payloadOffset := by
  obtain ⟨L, hI⟩ := hw.accounted
  obtain ⟨i, hi, hblk, hsize⟩ := blockSize_of_live hI hp
  obtain ⟨-, -, k, hk, hpk⟩ := hblk.decode
  have hvalid := classSize_valid hi
  have hend := blockAddr_add_le (s := addrToSlab p) hk
  have hk4 := (nblocks_bounds hvalid).2
  have hb : 0 < classSize i := by have := hvalid.1; omega
  rw [hsize]
  generalize addrToSlab p = s at hpk hend ⊢
  subst hpk
  rw [blockAddr_sub, Nat.mul_div_cancel_left k hb]
  unfold blockAddr at hend
  have hcap : capacity = 4096 := rfl
  have hvec : numVecs = 64 := rfl
  refine ⟨by unfold blockAddr; omega, by omega, by omega, by rw [hvec]; omega, rfl⟩

theorem free_position_exact_first :
    35328 ∈ firstWorld.live ∧
      payloadOffset ≤ 35328 - addrToSlab 35328 ∧
      35328 - addrToSlab 35328 - payloadOffset < payloadSize ∧
      (35328 - addrToSlab 35328 - payloadOffset) / firstWorld.blockSize 35328 < capacity ∧
      (35328 - addrToSlab 35328 - payloadOffset) / firstWorld.blockSize 35328 / numVecs < 64 ∧
      firstWorld.blockSize 35328 * ((35328 - addrToSlab 35328 - payloadOffset) /
        firstWorld.blockSize 35328) = 35328 - addrToSlab 35328 - payloadOffset :=
  ⟨Finset.mem_insert_self _ _,
    free_position_exact firstWorld_reachable (Finset.mem_insert_self _ _)⟩

/-- From every reachable world, `_allocate(size)` returns `NULL` only when the calling CPU's
free cache of the class was empty, and it leaves that CPU's list of the class empty with the
bump pointer at the end of the slab region: the allocator reports no memory only when it can
carve no slab. -/
theorem allocate_null_exhausted {w : World} (hw : w.Reachable A) {size : BitVec 32}
    (hsize : ValidSize size.toNat) {cpu fuel : ℕ} (hcpu : cpu < NPROCS) {h' : Heap}
    (hres : NCMalloc.allocate A w.heap size cpu fuel = some (h', 0)) :
    (w.heap.view A).caches ((sizeToIdx size).toNat, cpu) = [] ∧
      A.regionEnd ≤ h'.currentSlab ∧ (h'.view A).heads ((sizeToIdx size).toNat, cpu) = 0 := by
  obtain ⟨L, hI⟩ := hw.accounted
  have hic : InRange ((sizeToIdx size).toNat, cpu) := ⟨sizeToIdx_lt hsize, hcpu⟩
  simp only [NCMalloc.allocate, one_shiftLeft_logSizeofSlabManager] at hres
  rcases List.eq_nil_or_concat ((w.heap.view A).caches ((sizeToIdx size).toNat, cpu)) with
    hc | ⟨l, p, hc⟩
  · -- an empty cache: the `NULL` comes from `_allocate_inner`
    rw [tryPop_of_empty_cache hic hc, if_neg (by decide : ¬(0#64 > 128#64))] at hres
    obtain ⟨hend, hhead⟩ := allocateInner_null hres
    exact ⟨hc, hend, by rw [heads_of_inRange hic]; exact hhead⟩
  · -- a cached block is above the slab managers, so the call returns it
    rw [List.concat_eq_append] at hc
    obtain ⟨hpop, -⟩ := view_tryPop hI.cache_bound hic hc
    obtain ⟨-, hblk⟩ := hI.cached_block _ p (by rw [hc]; exact List.mem_append_right _ (List.mem_singleton_self _))
    have hp := hI.blockOf_gt hblk
    have hbig : (tryPop w.heap.mem (smBaseOf A (sizeToIdx size)) cpu).2 > 128#64 := by
      rw [gt_iff_lt, BitVec.lt_def, hpop]
      exact hp
    rw [if_pos hbig, Option.some.injEq, Prod.mk.injEq, hpop] at hres
    omega

theorem allocate_null_exhausted_oneSlab :
    (oneSlabWorld.heap.view oneSlab).caches ((sizeToIdx 16#32).toNat, 0) = [] ∧
      oneSlab.regionEnd ≤ nullHeap.currentSlab ∧
      (nullHeap.view oneSlab).heads ((sizeToIdx 16#32).toNat, 0) = 0 :=
  allocate_null_exhausted oneSlabWorld_reachable (by decide) (by decide) allocate_oneSlab_null

/-- The world with one live block satisfies the layout and disjointness of live blocks. -/
theorem live_blocks_disjoint_first :
    (∀ p ∈ firstWorld.live, 8 ≤ firstWorld.blockSize p ∧ mebibyte.start ≤ addrToSlab p ∧
      addrToSlab p + payloadOffset ≤ p ∧
      p + firstWorld.blockSize p ≤ addrToSlab p + payloadOffset + payloadSize ∧
      addrToSlab p + sizeofObjSlab ≤ mebibyte.regionEnd) ∧
    ∀ p ∈ firstWorld.live, ∀ q ∈ firstWorld.live, p ≠ q →
      p + firstWorld.blockSize p ≤ q ∨ q + firstWorld.blockSize q ≤ p :=
  live_blocks_disjoint firstWorld_reachable

end World

end NCMalloc
