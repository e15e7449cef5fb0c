import NCMalloc.Allocator.Accounting
import NCMalloc.Lib.Reach

/-!
# The allocator run one operation at a time

`_allocate` and `_free` on the heap, each run by one thread on one CPU from start to end, as
the transitions of `Accounting` on the heap's view. Every pass of `_allocate_inner`'s loop keeps
the accounting invariant, a pass that returns a block hands out one that was not live, and a
free of a live block keeps it; so the invariant holds after every sequence of operations from
a fresh allocator.
-/

namespace NCMalloc

open ObjSlab FreeCache LinkedList

theorem classSize_toNat (i : BitVec 32) : classSize i.toNat = (idxToSize i).toNat := by
  simp only [classSize, BitVec.ofNat_toNat, BitVec.setWidth_eq]

/-! ## Bounds the invariant gives -/

section Bounds

variable {A : Region} {v : View} {L : ℕ × ℕ → List ℕ} {live : Finset ℕ}

theorem Inv.add_le_current (hI : Inv A v L live) {s : ℕ} (hs : v.Carved A s) :
    s + sizeofObjSlab ≤ v.currentSlab := by
  obtain ⟨q, hq⟩ : sizeofObjSlab ∣ s := Nat.dvd_of_mod_eq_zero hs.1
  obtain ⟨r, hr⟩ : sizeofObjSlab ∣ v.currentSlab := Nat.dvd_of_mod_eq_zero hI.current_mod
  have hlt := hs.2.2
  rw [hq, hr] at hlt ⊢
  have hqr : q < r := Nat.lt_of_mul_lt_mul_left hlt
  calc sizeofObjSlab * q + sizeofObjSlab = sizeofObjSlab * (q + 1) := by ring
    _ ≤ sizeofObjSlab * r := Nat.mul_le_mul_left _ hqr

theorem Region.end_le_two_pow (A : Region) : A.regionEnd ≤ 2 ^ 64 := A.end_le.trans A.below

theorem Inv.current_le_two_pow (hI : Inv A v L live) : v.currentSlab ≤ 2 ^ 64 :=
  hI.current_le.trans A.end_le_two_pow

theorem Inv.blockOf_bounds (hI : Inv A v L live) {i p : ℕ} (hp : v.BlockOf A i p) :
    A.start + payloadOffset ≤ p ∧ p < 2 ^ 64 := by
  obtain ⟨s, k, hs, -, hk, rfl⟩ := hp
  have hle := blockAddr_add_le (s := s) hk
  have hend := hI.add_le_current hs
  have htop := hI.current_le_two_pow
  have hb : 0 < classSize i := Nat.pos_of_ne_zero fun h => by simp [h, nblocks] at hk
  have hpay : payloadOffset + payloadSize ≤ sizeofObjSlab := by decide
  constructor
  · unfold blockAddr
    have := hs.2.1
    omega
  · omega

theorem Inv.exists_head (hI : Inv A v L live) {ic : ℕ × ℕ} (h : v.heads ic ≠ 0) :
    ∃ rest, L ic = v.heads ic :: rest := by
  have hc := hI.chain ic
  cases hL : L ic with
  | nil =>
    rw [hL] at hc
    exact absurd (hc.head_eq_null_iff.mpr rfl) h
  | cons s rest =>
    rw [hL] at hc
    exact ⟨rest, by rw [hc.head_eq]⟩

theorem Inv.next_lt (hI : Inv A v L live) {ic : ℕ × ℕ} {s : ℕ} {rest : List ℕ}
    (hL : L ic = s :: rest) : (v.slabs s).next < 2 ^ 64 := by
  have hc := hI.chain ic
  rw [hL] at hc
  rw [hc.head_eq] at hc
  have ht := hc.tail
  show v.nextOf s < 2 ^ 64
  cases rest with
  | nil =>
    rw [ht.head_eq_null_iff.mpr rfl]
    exact Nat.two_pow_pos 64
  | cons t rest' =>
    rw [ht.head_eq]
    obtain ⟨-, hct, -, -⟩ := hI.listed ic t (by rw [hL]; simp)
    exact lt_of_lt_of_le hct.2.2 hI.current_le_two_pow

end Bounds

/-- What a call of `_allocate` for class `i` leaves when it returns `ret`, from live blocks
`live`: `NULL` with the accounting kept, or a block of class `i` that was not live and is now. -/
def Returned (A : Region) (i : ℕ) (live : Finset ℕ) (h : Heap) (ret : ℕ) : Prop :=
  (ret = 0 ∧ ∃ L, Inv A (h.view A) L live) ∨
    (ret ∉ live ∧ (h.view A).BlockOf A i ret ∧ ∃ L, Inv A (h.view A) L (insert ret live))

/-! ## The passes of `_allocate_inner` -/

section Pass

variable {A : Region} {h : Heap} {L : ℕ × ℕ → List ℕ} {live : Finset ℕ} {sizeIdx : BitVec 32}
  {cpu : ℕ} (hI : Inv A (h.view A) L live) (hic : InRange (sizeIdx.toNat, cpu))
include hI hic

theorem Inv.pass_carve (h0 : (h.mem (smAddr NPROCS A.m sizeIdx.toNat cpu)).toNat = 0)
    (hlt : h.currentSlab < A.regionEnd) :
    Inv A ((sendSlab
        { h with
          currentSlab := h.currentSlab + sizeofObjSlab
          slabs := Function.update h.slabs h.currentSlab
            (objSlab (h.slabs h.currentSlab) (idxToSize sizeIdx).toNat) }
        h.currentSlab (smBaseOf A sizeIdx) cpu).view A)
      (Function.update L (sizeIdx.toNat, cpu) [h.currentSlab]) live := by
  set h₁ : Heap :=
    { h with
      currentSlab := h.currentSlab + sizeofObjSlab
      slabs := Function.update h.slabs h.currentSlab
        (objSlab (h.slabs h.currentSlab) (idxToSize sizeIdx).toNat) }
  have hb : ∀ ic, ((h₁.view A).caches ic).length ≤ cacheSize := hI.cache_bound
  have hx : h.currentSlab < 2 ^ 64 := lt_of_lt_of_le hlt A.end_le_two_pow
  rw [view_sendSlab hb hic hx]
  have hI' := hI.carve hic (by rw [heads_of_inRange hic]; exact h0) hlt
  rw [classSize_toNat] at hI'
  exact hI'

theorem Inv.pass_take {s : ℕ} {rest : List ℕ} (hL : L (sizeIdx.toNat, cpu) = s :: rest) {k : ℕ}
    (hk : k ∈ (h.view A).avail s) {av : BitVec 64} {slots : Fin 64 → BitVec 64}
    (hslots : slotsOf slots = ((h.view A).avail s).erase k)
    (hrep : Rep { h.slabs s with availableVecs := av, availableSlots := slots }) :
    Returned A sizeIdx.toNat live
      { h with
        slabs := Function.update h.slabs s
          { h.slabs s with availableVecs := av, availableSlots := slots } }
      (s + payloadOffset + (idxToSize sizeIdx).toNat * (BitVec.ofNat 64 k).toNat) := by
  obtain ⟨-, hs, hbs, -⟩ := hI.listed _ s (by rw [hL]; exact List.mem_cons_self)
  have hkn : k < nblocks (classSize sizeIdx.toNat) := hbs ▸ (hI.rep s hs).available_lt k hk
  have hk64 : k < 2 ^ 64 :=
    lt_of_lt_of_le hkn ((nblocks_bounds (classSize_valid hic.1)).2.trans (by norm_num))
  have hret : s + payloadOffset + (idxToSize sizeIdx).toNat * (BitVec.ofNat 64 k).toNat =
      blockAddr s (classSize sizeIdx.toNat) k := by
    rw [BitVec.toNat_ofNat, Nat.mod_eq_of_lt hk64, ← classSize_toNat]
    rfl
  have hblock : (h.view A).block s k = blockAddr s (classSize sizeIdx.toNat) k := by
    unfold View.block
    rw [hbs]
  rw [hret]
  refine Or.inr ⟨hblock ▸ (hI.available_free s hs k hk).1, ⟨s, k, hs, ?_, hkn, rfl⟩,
    _, hI.take hL hk hslots hrep⟩
  show (Function.update h.slabs s _ s).blockSize = _
  rw [Function.update_self]
  exact hbs

theorem Inv.pass_full {s : ℕ} {rest : List ℕ} (hL : L (sizeIdx.toNat, cpu) = s :: rest)
    (hA : (h.view A).avail s = ∅) :
    let s' : ObjSlab := { h.slabs s with availableVecs := 0#64 }
    let h₁ : Heap :=
      { h with
        slabs := Function.update h.slabs s s'.tryRelease.1
        mem := Function.update h.mem (smAddr NPROCS A.m sizeIdx.toNat cpu) (BitVec.ofNat 64 s'.next) }
    (s'.tryRelease.2 = 0 → Inv A ((sendSlab
        { h₁ with slabs := Function.update h₁.slabs s { s'.tryRelease.1 with next := 0 } }
        s (smBaseOf A sizeIdx) cpu).view A) (Function.update L (sizeIdx.toNat, cpu) (rest ++ [s])) live) ∧
      (s'.tryRelease.2 ≠ 0 → Inv A (h₁.view A) (Function.update L (sizeIdx.toNat, cpu) rest) live) := by
  intro s' h₁
  set μ := Function.update h.mem (smAddr NPROCS A.m sizeIdx.toNat cpu) (BitVec.ofNat 64 s'.next)
  have hb : ∀ ic, ((h.view A).caches ic).length ≤ cacheSize := hI.cache_bound
  have hnext := hI.next_lt hL
  have hview : ∀ S : ℕ → ObjSlab, ({ h with slabs := S, mem := μ } : Heap).view A =
      { h.view A with
        slabs := S
        heads := Function.update (h.view A).heads (sizeIdx.toNat, cpu) ((h.view A).slabs s).next } := by
    intro S
    have hbS : ∀ ic, ((({ h with slabs := S } : Heap).view A).caches ic).length ≤ cacheSize := hb
    exact view_store_head_of hbS hic _ hnext
  refine ⟨fun hrel => ?_, fun hrel => ?_⟩
  · set S := Function.update h₁.slabs s { s'.tryRelease.1 with next := 0 }
    have hb₂ : ∀ ic, ((({ h with slabs := S, mem := μ } : Heap).view A).caches ic).length ≤
        cacheSize := by
      rw [hview]
      exact hI.cache_bound
    obtain ⟨-, hs, -, -⟩ := hI.listed _ s (by rw [hL]; exact List.mem_cons_self)
    have hslt : s < 2 ^ 64 := lt_of_lt_of_le (lt_of_lt_of_le hs.2.2 hI.current_le) A.end_le_two_pow
    show Inv A ((sendSlab { h with slabs := S, mem := μ } s (smBaseOf A sizeIdx) cpu).view A)
      (Function.update L (sizeIdx.toNat, cpu) (rest ++ [s])) live
    -- the slab is stored twice; the second store is what the view sees
    have hS : S = Function.update h.slabs s { s'.tryRelease.1 with next := 0 } :=
      Function.update_idem ..
    rw [view_sendSlab hb₂ hic hslt, hview, hS]
    exact hI.rotate hL hA hrel
  · show Inv A (({ h with slabs := Function.update h.slabs s s'.tryRelease.1, mem := μ } :
      Heap).view A) (Function.update L (sizeIdx.toNat, cpu) rest) live
    rw [hview]
    exact hI.drop hL hA hrel

theorem Inv.of_allocateInnerPass :
    match allocateInnerPass A h sizeIdx cpu with
    | .done h' ret => Returned A sizeIdx.toNat live h' ret
    | .loop h' => ∃ L', Inv A (h'.view A) L' live := by
  have hhead := heads_of_inRange (A := A) (h := h) hic
  by_cases h0 : (h.mem (smAddr NPROCS A.m sizeIdx.toNat cpu)).toNat = 0
  · -- the list is empty: `NULL` when the region is used up, else a slab is carved
    by_cases hoom : A.regionEnd ≤ h.currentSlab
    · rw [pass_of_oom A h sizeIdx cpu h0 hoom]
      exact Or.inl ⟨rfl, L, hI⟩
    · rw [pass_of_carve A h sizeIdx cpu h0 (not_le.mp hoom)]
      exact ⟨_, hI.pass_carve hic h0 (not_le.mp hoom)⟩
  · -- the list starts at the head `s`
    have hne : (h.view A).heads (sizeIdx.toNat, cpu) ≠ 0 := by rwa [hhead]
    obtain ⟨rest, hL⟩ := hI.exists_head hne
    rw [hhead] at hL
    set s := (h.mem (smAddr NPROCS A.m sizeIdx.toNat cpu)).toNat
    obtain ⟨-, hs, -, -⟩ := hI.listed _ s (by rw [hL]; exact List.mem_cons_self)
    by_cases hA : (h.view A).avail s = ∅
    · rw [pass_of_full A h sizeIdx cpu h0 (allocate_of_avail_empty hA cpu)]
      obtain ⟨hrot, hdrop⟩ := hI.pass_full hic hL hA
      split_ifs with hrel
      · exact ⟨_, hrot hrel⟩
      · exact ⟨_, hdrop hrel⟩
    · obtain ⟨k, hk, av, slots, hres, hslots, hrep⟩ := allocate_of_avail_ne (hI.rep s hs) hA cpu
      rw [pass_of_success A h sizeIdx cpu h0 hres (slot_lt_successBound hk)]
      exact hI.pass_take hic hL hk hslots hrep

end Pass

/-! ## The branches of `_free` -/

section FreeBranches

variable {A : Region} {h : Heap} {addr cpu : ℕ} {idx : BitVec 32}
  (hidx : sizeToIdx (BitVec.ofNat 32 (h.slabs (addrToSlab addr)).blockSize) = idx)
include hidx

theorem free_of_push {μ : Mem} (hpush : tryPush h.mem (BitVec.ofNat 64 addr) (smBaseOf A idx) cpu = (μ, 0#64)) :
    free A h addr cpu = { h with mem := μ } := by
  simp only [free, hidx, hpush, if_true]

theorem free_of_owned
    (hpush : tryPush h.mem (BitVec.ofNat 64 addr) (smBaseOf A idx) cpu = (h.mem, 1#64))
    (hfr : ((h.slabs (addrToSlab addr)).free (addr - addrToSlab addr)).2 = 0) :
    free A h addr cpu =
      { h with
        slabs := Function.update h.slabs (addrToSlab addr)
          ((h.slabs (addrToSlab addr)).free (addr - addrToSlab addr)).1 } := by
  have h1 : (1#64 : BitVec 64) ≠ 0#64 := by decide
  simp only [free, hidx, hpush, h1, if_false, Function.update_self, hfr, ne_eq, not_true_eq_false]

theorem free_of_unowned
    (hpush : tryPush h.mem (BitVec.ofNat 64 addr) (smBaseOf A idx) cpu = (h.mem, 1#64))
    (hfr : ((h.slabs (addrToSlab addr)).free (addr - addrToSlab addr)).2 ≠ 0)
    (hown : ((h.slabs (addrToSlab addr)).free (addr - addrToSlab addr)).1.setOwned.2 ≠ 0) :
    free A h addr cpu =
      sendSlab
        { h with
          slabs := Function.update h.slabs (addrToSlab addr)
            { ((h.slabs (addrToSlab addr)).free (addr - addrToSlab addr)).1.setOwned.1 with next := 0 } }
        (addrToSlab addr) (smBaseOf A idx) cpu := by
  have h1 : (1#64 : BitVec 64) ≠ 0#64 := by decide
  simp only [free, hidx, hpush, h1, if_false, Function.update_self, Function.update_idem, hfr, hown,
    ne_eq, not_false_eq_true, if_true]

end FreeBranches

/-! ## Whole calls -/

section Calls

variable {A : Region} {h : Heap} {L : ℕ × ℕ → List ℕ} {live : Finset ℕ} {sizeIdx : BitVec 32}
  {cpu : ℕ}

/-- `_allocate_inner` keeps the accounting whatever the number of passes it makes: by induction
on the passes, each of which keeps it. -/
theorem Inv.of_allocateInner (hI : Inv A (h.view A) L live) (hic : InRange (sizeIdx.toNat, cpu))
    {fuel : ℕ} {h' : Heap} {ret : ℕ} (hres : allocateInner A fuel h sizeIdx cpu = some (h', ret)) :
    Returned A sizeIdx.toNat live h' ret := by
  induction fuel generalizing h L with
  | zero => simp [allocateInner] at hres
  | succ n ih =>
    have hpass := hI.of_allocateInnerPass hic
    cases hp : allocateInnerPass A h sizeIdx cpu with
    | done h₁ r =>
      simp only [allocateInner, hp, Option.some.injEq, Prod.mk.injEq] at hres
      obtain ⟨rfl, rfl⟩ := hres
      rw [hp] at hpass
      exact hpass
    | loop h₁ =>
      simp only [allocateInner, hp] at hres
      rw [hp] at hpass
      obtain ⟨L', hI'⟩ := hpass
      exact ih hI' hres

theorem sizeToIdx_lt {size : BitVec 32} (hsize : ValidSize size.toNat) :
    (sizeToIdx size).toNat < numSizeClasses := by
  have h := (sizeToIdx_valid ⟨size.toNat, Nat.lt_succ_of_le hsize.2⟩ hsize).1
  rwa [BitVec.ofNat_toNat, BitVec.setWidth_eq] at h

theorem one_shiftLeft_logSizeofSlabManager : 1#64 <<< logSizeofSlabManager = 128#64 := by
  rw [logSizeofSlabManager_eq]
  decide

/-- `_allocate(size)` keeps the accounting: a pointer popped from the free cache, which is a
block and so above the slab managers, or what `_allocate_inner` returns. -/
theorem Inv.of_allocate (hI : Inv A (h.view A) L live) {size : BitVec 32}
    (hsize : ValidSize size.toNat) (hcpu : cpu < NPROCS) {fuel : ℕ} {h' : Heap} {ret : ℕ}
    (hres : allocate A h size cpu fuel = some (h', ret)) :
    Returned A (sizeToIdx size).toNat live h' ret := by
  have hic : InRange ((sizeToIdx size).toNat, cpu) := ⟨sizeToIdx_lt hsize, hcpu⟩
  have hb : ∀ ic, ((h.view A).caches ic).length ≤ cacheSize := hI.cache_bound
  simp only [allocate, one_shiftLeft_logSizeofSlabManager] at hres
  rcases List.eq_nil_or_concat ((h.view A).caches ((sizeToIdx size).toNat, cpu)) with
    hc | ⟨l, p, hc⟩
  · -- an empty cache: `try_pop` returns 0 and `_allocate_inner` runs
    rw [tryPop_of_empty_cache hic hc] at hres
    have h0 : ¬(0#64 > 128#64) := by decide
    rw [if_neg h0] at hres
    exact hI.of_allocateInner hic hres
  · -- the top of the cache, a block of the class and so above the slab managers
    rw [List.concat_eq_append] at hc
    obtain ⟨hpop, hview⟩ := view_tryPop hb hic hc
    have hpc : p ∈ (h.view A).caches ((sizeToIdx size).toNat, cpu) := by
      rw [hc]
      exact List.mem_append_right _ (List.mem_singleton_self _)
    obtain ⟨-, hblk⟩ := hI.cached_block _ p hpc
    have hbig : (tryPop h.mem (smBaseOf A (sizeToIdx size)) cpu).2 > 128#64 := by
      have hlow := (hI.blockOf_bounds hblk).1
      have hpay : payloadOffset = 1280 := rfl
      rw [gt_iff_lt, BitVec.lt_def, hpop]
      show 128 < p
      omega
    rw [if_pos hbig, Option.some.injEq, Prod.mk.injEq] at hres
    obtain ⟨rfl, rfl⟩ := hres
    rw [hpop]
    refine Or.inr ⟨fun hp => hI.live_cached p hp ⟨_, hpc⟩, ?_, ?_⟩
    · rw [hview]
      exact hblk
    · rw [hview]
      exact ⟨_, hI.pop hc⟩

/-- `_free(p)` of a live block keeps the accounting, with `p` no longer live: into the free
cache of its class when it has room, else back to its slab, which a free claims when it was
given up. -/
theorem Inv.of_free (hI : Inv A (h.view A) L live) {p : ℕ} (hp : p ∈ live) (hcpu : cpu < NPROCS) :
    ∃ L', Inv A ((free A h p cpu).view A) L' (live.erase p) := by
  have hb : ∀ ic, ((h.view A).caches ic).length ≤ cacheSize := hI.cache_bound
  obtain ⟨i, hi, hblk⟩ := hI.live_block p hp
  have hbounds := hI.blockOf_bounds hblk
  obtain ⟨s, k, hs, hbs, hk, rfl⟩ := hblk
  have hbs' : (h.slabs s).blockSize = classSize i := hbs
  have hslab : addrToSlab (blockAddr s (classSize i) k) = s := addrToSlab_blockAddr hs.1 hk
  have hi32 : (BitVec.ofNat 32 i).toNat = i := by
    rw [BitVec.toNat_ofNat]
    exact Nat.mod_eq_of_lt (hi.trans (by decide))
  have hidx : sizeToIdx (BitVec.ofNat 32 (h.slabs (addrToSlab (blockAddr s (classSize i) k))).blockSize) =
      BitVec.ofNat 32 i := by
    rw [hslab, hbs', classSize, BitVec.ofNat_toNat, BitVec.setWidth_eq]
    exact sizeToIdx_idxToSize ⟨i, hi⟩
  have hic : InRange ((BitVec.ofNat 32 i).toNat, cpu) := by
    rw [hi32]
    exact ⟨hi, hcpu⟩
  have hp64 : (BitVec.ofNat 64 (blockAddr s (classSize i) k)).toNat = blockAddr s (classSize i) k := by
    rw [BitVec.toNat_ofNat]
    exact Nat.mod_eq_of_lt hbounds.2
  have hblock : (h.view A).block s k = blockAddr s (classSize i) k := by
    unfold View.block
    rw [hbs]
  by_cases hroom : ((h.view A).caches ((BitVec.ofNat 32 i).toNat, cpu)).length < cacheSize
  · -- into the free cache
    obtain ⟨h0, hview⟩ := view_tryPush hb hic (BitVec.ofNat 64 (blockAddr s (classSize i) k)) hroom
    rw [free_of_push hidx (Prod.ext rfl h0), hview, hp64, hi32]
    rw [hi32] at hroom
    exact ⟨L, hI.push hp ⟨hi, hcpu⟩ ⟨s, k, hs, hbs, hk, rfl⟩ hroom⟩
  · -- back to the slab, at the offset of block `k`
    have hpush := tryPush_of_full_cache hic (BitVec.ofNat 64 (blockAddr s (classSize i) k))
      (le_antisymm (hb _) (not_lt.mp hroom))
    have hoff : blockAddr s (classSize i) k - s = payloadOffset + ((h.view A).slabs s).blockSize * k := by
      rw [hbs]
      unfold blockAddr
      omega
    have hk' : k < nblocks ((h.view A).slabs s).blockSize := hbs ▸ hk
    have hp' : (h.view A).block s k ∈ live := hblock ▸ hp
    by_cases hsL : ListFamily.Mem L s
    · obtain ⟨hfr, hI'⟩ := hI.free_listed hs hk' hp' hsL
      rw [free_of_owned hidx hpush (by rw [hslab, hoff]; exact hfr), hslab, hoff, ← hblock]
      exact ⟨L, hI'⟩
    · obtain ⟨hfr, hown, hI'⟩ := hI.reclaim hs hk' hp' hsL (show InRange (i, cpu) from ⟨hi, hcpu⟩) hbs
      rw [free_of_unowned hidx hpush (by rw [hslab, hoff]; exact hfr) (by rw [hslab, hoff]; exact hown),
        hslab, hoff]
      have hb' : ∀ ic, ((({ h with
          slabs := Function.update h.slabs s
            { ((h.slabs s).free (payloadOffset + ((h.view A).slabs s).blockSize * k)).1.setOwned.1 with
              next := 0 } } : Heap).view A).caches ic).length ≤ cacheSize := hb
      have hs64 : s < 2 ^ 64 := lt_of_lt_of_le (lt_of_lt_of_le hs.2.2 hI.current_le) A.end_le_two_pow
      rw [view_sendSlab hb' hic hs64, hi32, ← hblock]
      exact ⟨_, hI'⟩

end Calls

/-! ## Runs of operations -/

/-- The allocator's heap with the blocks handed out and not freed since. -/
structure World where
  heap : Heap
  live : Finset ℕ

namespace World

/-- A freshly constructed allocator over zeroed memory, nothing handed out. -/
def init (A : Region) : World := ⟨Heap.init A, ∅⟩

/-- One operation, run by one thread on one CPU from start to end: `_allocate(size)` with
`1 <= size <= 144`, whose result becomes live unless it is `NULL`, or `_free(p)` of a live
`p`. -/
inductive Step (A : Region) : World → World → Prop
  | allocate (w : World) (size : BitVec 32) (cpu fuel : ℕ) (h' : Heap) (ret : ℕ)
      (hsize : ValidSize size.toNat) (hcpu : cpu < NPROCS)
      (hres : NCMalloc.allocate A w.heap size cpu fuel = some (h', ret)) :
      Step A w ⟨h', if ret = 0 then w.live else insert ret w.live⟩
  | free (w : World) (p cpu : ℕ) (hp : p ∈ w.live) (hcpu : cpu < NPROCS) :
      Step A w ⟨NCMalloc.free A w.heap p cpu, w.live.erase p⟩

/-- The worlds a sequence of operations reaches from a fresh allocator. -/
def Reachable (A : Region) (w : World) : Prop := StateMachine.Reachable (Step A) (init A) w

/-- The accounting invariant holds of the heap for some available lists. -/
def Accounted (A : Region) (w : World) : Prop := ∃ L, Inv A (w.heap.view A) L w.live

theorem accounted_init (A : Region) : Accounted A (init A) := ⟨_, inv_init A⟩

/-- Every operation keeps the accounting. -/
theorem accounted_step {A : Region} {w w' : World} (hw : Accounted A w) (hs : Step A w w') :
    Accounted A w' := by
  obtain ⟨L, hI⟩ := hw
  cases hs with
  | allocate size cpu fuel h' ret hsize hcpu hres =>
    rcases hI.of_allocate hsize hcpu hres with ⟨rfl, hacc⟩ | ⟨-, hblk, hacc⟩
    · simpa only [Accounted, if_true] using hacc
    · -- a block lies above the managers, so it is not `NULL`
      obtain ⟨L', hI'⟩ := hacc
      have hpos : ret ≠ 0 := by
        have := (hI'.blockOf_bounds hblk).1
        have hpay : payloadOffset = 1280 := rfl
        omega
      show ∃ L, Inv A (h'.view A) L (if ret = 0 then w.live else insert ret w.live)
      rw [if_neg hpos]
      exact ⟨L', hI'⟩
  | free p cpu hp hcpu => exact hI.of_free hp hcpu

/-- After every sequence of operations from a fresh allocator, each run by one thread on one
CPU, the heap satisfies the accounting invariant: the lists are null-terminated chains from
head to tail of owned slabs of their class, no slab on two lists or twice on one; a carved
slab on no list is given up with nothing available or freed; every free cache holds at most
`cache_size` blocks of its class; and every block of a carved slab is in exactly one of its
slab's available set, its freed set, a free cache and the live blocks. -/
theorem accounting_invariant {A : Region} {w : World} (hw : w.Reachable A) :
    ∃ L, Inv A (w.heap.view A) L w.live :=
  StateMachine.Reachable.invariant (I := Accounted A) (accounted_init A)
    (fun _ _ h hs => accounted_step h hs) hw

/-- An allocator over one mebibyte at address 4096. -/
def mebibyte : Region := ⟨4096, 2 ^ 20, by norm_num, by decide⟩

/-- Its slabs run from 34048 to 1052672, the last whole slab below 4096 + 2^20. -/
theorem constructor_layout_mebibyte :
    mebibyte.m + mebibyte.regionSize + sizeofObjSlab ≤ 2 ^ 64 ∧
      mebibyte.bounds.1.toNat = mebibyte.start ∧ mebibyte.bounds.2.toNat = mebibyte.regionEnd ∧
      mebibyte.m + sizeofMemoryLayout ≤ mebibyte.start ∧ mebibyte.start ≤ mebibyte.regionEnd ∧
      mebibyte.regionEnd ≤ mebibyte.m + mebibyte.regionSize ∧
      mebibyte.m + mebibyte.regionSize < mebibyte.regionEnd + sizeofObjSlab ∧
      mebibyte.start % sizeofObjSlab = 0 ∧ mebibyte.regionEnd % sizeofObjSlab = 0 := by
  have h : mebibyte.m + mebibyte.regionSize + sizeofObjSlab ≤ 2 ^ 64 := by
    rw [sizeofObjSlab_eq]
    show 4096 + 2 ^ 20 + 34048 ≤ 2 ^ 64
    norm_num
  exact ⟨h, mebibyte.constructor_layout h⟩

end World

end NCMalloc
