import NCMalloc.Allocator.FreeCache
import NCMalloc.Allocator.SlabInvariant

/-!
# The object allocator

`object_allocator<>` run by one thread at a time, each operation on one CPU from start to
end. The shared memory is the slab managers' words, the slabs (records at their addresses, so
that a store at offset `next_offset` of a slab sets its `next`) and the bump pointer
`current_slab` of `shared_memory_slab_allocator`.

`_allocate_inner`'s `while (1)` loop is one pass (`allocateInnerPass`) iterated with fuel;
how much fuel a pass sequence needs is the subject of `Termination`.
-/

namespace NCMalloc

open ObjSlab FreeCache

/-- An `object_allocator` constructed on the region `[m, m + regionSize)`. The region lies
below `2^64` and holds at least `memory_layout` up to the first slab boundary. -/
structure Region where
  m : ℕ
  regionSize : ℕ
  below : m + regionSize ≤ 2 ^ 64
  large : calculateStart (m + sizeofMemoryLayout) ≤ m + regionSize

namespace Region

/-- The first slab: `current_slab` as `memory_layout`'s constructor sets it. -/
def start (A : Region) : ℕ := calculateStart (A.m + sizeofMemoryLayout)

/-- `object_allocator::end`. -/
def regionEnd (A : Region) : ℕ :=
  calculateEnd (A.m + sizeofMemoryLayout) (A.regionSize - sizeofMemoryLayout)

/-- `object_allocator::in_range(p)`: `p` lies above `m` and below `end`. -/
def inRange (A : Region) (p : ℕ) : Bool := A.m < p && p < A.regionEnd

/-- `object_allocator::_valid_addr(addr)`: its asserts hold. A non-`NULL` address lies at least
`payload_offset` into its slab, above `calculate_start<slab_t>((uint64_t)(m + 1))` (`m + 1` is
`m + sizeof(memory_layout_t)` bytes) and below `end`. -/
def validAddr (A : Region) (addr : ℕ) : Bool :=
  addr = 0 || (payloadOffset ≤ addr % sizeofObjSlab && A.start < addr && addr < A.regionEnd)

end Region

/-- The memory the allocator shares between threads. -/
structure Heap where
  /-- the words of `m->slab_managers` -/
  mem : Mem
  /-- the slab at each address -/
  slabs : ℕ → ObjSlab
  /-- `m->slab_allocator.current_slab` -/
  currentSlab : ℕ

namespace Heap

/-- A freshly constructed allocator over zeroed memory. -/
def init (A : Region) : Heap := ⟨fun _ => 0#64, fun _ => zeroed, A.start⟩

end Heap

/-- `&m->slab_managers[size_idx]` as the asm blocks receive it. -/
def smBaseOf (A : Region) (sizeIdx : BitVec 32) : BitVec 64 :=
  BitVec.ofNat 64 (smBase NPROCS A.m sizeIdx.toNat)

/-- `object_allocator::_send_slab(slab, size_idx)` run on CPU `cpu`, the variant
`SEND_SLAB_BRANCHES == 1`: on an empty list `slab` becomes head and tail; otherwise it is
stored in the tail's `next` and becomes the tail. -/
def sendSlab (h : Heap) (slab : ℕ) (smBase : BitVec 64) (cpu : ℕ) : Heap :=
  let sm := smOf smBase cpu
  if h.mem sm.toNat = 0#64 then
    -- `temp_ptr` stays `&available_slabs_tail`, `sm` the head
    let mem := Function.update h.mem (sm + 8#64).toNat (BitVec.ofNat 64 slab)
    { h with mem := Function.update mem sm.toNat (BitVec.ofNat 64 slab) }
  else
    -- `temp_ptr` becomes `&tail->next`, `sm` becomes `&available_slabs_tail`
    let tail := (h.mem (sm + 8#64).toNat).toNat
    let slabs := Function.update h.slabs tail { h.slabs tail with next := slab }
    { h with
      slabs := slabs
      mem := Function.update h.mem (sm + 8#64).toNat (BitVec.ofNat 64 slab) }

/-- `slab_manager::_cas_set_next_available_slab(start_cpu, expected_slab)` on the slab
manager at `sm`, run on CPU `curCpu`: 0 when the head was `expected_slab` and is now its
`next`, `ANY` (1) when the thread migrated or the head changed. -/
def casSetNextAvailableSlab (h : Heap) (sm curCpu startCpu expected : ℕ) : Heap × ℕ :=
  if curCpu ≠ startCpu then (h, 1)
  else
    let tempPtr := h.mem sm
    if tempPtr ≠ BitVec.ofNat 64 expected then (h, 1)
    else ({ h with mem := Function.update h.mem sm (BitVec.ofNat 64 (h.slabs tempPtr.toNat).next) }, 0)

/-- How one pass of `_allocate_inner`'s loop ends. -/
inductive Pass
  | done (h : Heap) (ret : ℕ)
  | loop (h : Heap)

/-- One pass of the `while (1)` loop of `object_allocator::_allocate_inner(size_idx)` on CPU
`cpu`: carve and send a slab when the list is empty, else allocate from its head; a `FULL`
head is taken off the list and either given up or, with freed blocks, sent back. -/
def allocateInnerPass (A : Region) (h : Heap) (sizeIdx : BitVec 32) (cpu : ℕ) : Pass :=
  let startCpu := cpu
  let sm := smAddr NPROCS A.m sizeIdx.toNat startCpu
  let availableSlabsHead := (h.mem sm).toNat
  if availableSlabsHead = 0 then
    if h.currentSlab ≥ A.regionEnd then .done h 0
    else
      -- `_new`: the bump pointer's old value
      let newSlab := h.currentSlab
      let h := { h with currentSlab := h.currentSlab + sizeofObjSlab }
      if newSlab ≥ A.regionEnd then .done h 0
      else
        let h := { h with
          slabs := Function.update h.slabs newSlab
            (objSlab (h.slabs newSlab) (idxToSize sizeIdx).toNat) }
        .loop (sendSlab h newSlab (smBaseOf A sizeIdx) cpu)
  else
    let res := (h.slabs availableSlabsHead).allocate cpu startCpu
    let ret := res.2
    let h := { h with slabs := Function.update h.slabs availableSlabsHead res.1 }
    if ret < SUCCESS_BOUND then
      .done h (availableSlabsHead + payloadOffset + (idxToSize sizeIdx).toNat * ret.toNat)
    else if ret ≠ MIGRATED then
      let cas := casSetNextAvailableSlab h sm cpu startCpu availableSlabsHead
      let h := cas.1
      if cas.2 = 0 then
        let rel := (h.slabs availableSlabsHead).tryRelease
        let h := { h with slabs := Function.update h.slabs availableSlabsHead rel.1 }
        if rel.2 = 0 then
          let h := { h with
            slabs := Function.update h.slabs availableSlabsHead
              { h.slabs availableSlabsHead with next := 0 } }
          .loop (sendSlab h availableSlabsHead (smBaseOf A sizeIdx) cpu)
        else .loop h
      else .loop h
    else .loop h

/-- `_allocate_inner(size_idx)` given `fuel` passes; `none` when they do not suffice. The
result is the returned pointer, 0 for `NULL`. -/
def allocateInner (A : Region) : ℕ → Heap → BitVec 32 → ℕ → Option (Heap × ℕ)
  | 0, _, _, _ => none
  | fuel + 1, h, sizeIdx, cpu =>
    match allocateInnerPass A h sizeIdx cpu with
    | .done h ret => some (h, ret)
    | .loop h => allocateInner A fuel h sizeIdx cpu

/-- `object_allocator::_allocate(size)` on CPU `cpu`: a pointer from the free cache when it
holds one, else `_allocate_inner` with `fuel` passes. -/
def allocate (A : Region) (h : Heap) (size : BitVec 32) (cpu fuel : ℕ) : Option (Heap × ℕ) :=
  let sizeIdx := sizeToIdx size
  let pop := tryPop h.mem (smBaseOf A sizeIdx) cpu
  let h := { h with mem := pop.1 }
  if pop.2 > 1#64 <<< logSizeofSlabManager then some (h, pop.2.toNat)
  else allocateInner A fuel h sizeIdx cpu

/-- `object_allocator::_free(addr)` on CPU `cpu`: into the free cache of the block's class
when it has room, else back to the slab; the first free of a given-up slab claims it and
sends it to this CPU's list. -/
def free (A : Region) (h : Heap) (addr cpu : ℕ) : Heap :=
  let slab := addrToSlab addr
  let size := (h.slabs slab).blockSize
  let sizeIdx := sizeToIdx (BitVec.ofNat 32 size)
  let push := tryPush h.mem (BitVec.ofNat 64 addr) (smBaseOf A sizeIdx) cpu
  let h := { h with mem := push.1 }
  if push.2 = 0#64 then h
  else
    let fr := (h.slabs slab).free (addr - slab)
    let h := { h with slabs := Function.update h.slabs slab fr.1 }
    if fr.2 ≠ 0 then
      let own := (h.slabs slab).setOwned
      let h := { h with slabs := Function.update h.slabs slab own.1 }
      if own.2 ≠ 0 then
        let h := { h with slabs := Function.update h.slabs slab { h.slabs slab with next := 0 } }
        sendSlab h slab (smBaseOf A sizeIdx) cpu
      else h
    else h

/-! ## One lemma per operation -/

section SendSlab

variable {h : Heap} {base : BitVec 64} {cpu sm : ℕ} (hsm : (smOf base cpu).toNat = sm)
  (hroom : sm + sizeofSlabManager ≤ 2 ^ 64)
include hsm hroom

theorem sendSlab_of_empty (x : ℕ) (h0 : h.mem sm = 0#64) :
    sendSlab h x base cpu =
      { h with
        mem := Function.update (Function.update h.mem (sm + 8) (BitVec.ofNat 64 x)) sm
          (BitVec.ofNat 64 x) } := by
  subst hsm
  have h8 : (smOf base cpu + 8#64).toNat = (smOf base cpu).toNat + 8 :=
    manager_addr hroom (by rw [sizeofSlabManager_eq]; omega)
  simp only [sendSlab, h8, h0, if_true]

theorem sendSlab_of_ne (x : ℕ) (h0 : h.mem sm ≠ 0#64) :
    sendSlab h x base cpu =
      { h with
        slabs := Function.update h.slabs (h.mem (sm + 8)).toNat
          { h.slabs (h.mem (sm + 8)).toNat with next := x }
        mem := Function.update h.mem (sm + 8) (BitVec.ofNat 64 x) } := by
  subst hsm
  have h8 : (smOf base cpu + 8#64).toNat = (smOf base cpu).toNat + 8 :=
    manager_addr hroom (by rw [sizeofSlabManager_eq]; omega)
  simp only [sendSlab, h8, h0, if_false]

end SendSlab

@[simp] theorem sendSlab_currentSlab (h : Heap) (x : ℕ) (base : BitVec 64) (cpu : ℕ) :
    (sendSlab h x base cpu).currentSlab = h.currentSlab := by
  simp only [sendSlab]
  split <;> rfl

theorem casSetNextAvailableSlab_self (h : Heap) (sm cpu : ℕ) :
    casSetNextAvailableSlab h sm cpu cpu (h.mem sm).toNat =
      ({ h with mem := Function.update h.mem sm (BitVec.ofNat 64 (h.slabs (h.mem sm).toNat).next) },
        0) := by
  simp [casSetNextAvailableSlab]

/-! ## The passes of `_allocate_inner` on the thread's own CPU -/

section Pass

variable (A : Region) (h : Heap) (sizeIdx : BitVec 32) (cpu : ℕ)

theorem pass_of_oom (h0 : (h.mem (smAddr NPROCS A.m sizeIdx.toNat cpu)).toNat = 0)
    (hoom : A.regionEnd ≤ h.currentSlab) :
    allocateInnerPass A h sizeIdx cpu = .done h 0 := by
  simp [allocateInnerPass, h0, hoom]

theorem pass_of_carve (h0 : (h.mem (smAddr NPROCS A.m sizeIdx.toNat cpu)).toNat = 0)
    (hlt : h.currentSlab < A.regionEnd) :
    allocateInnerPass A h sizeIdx cpu =
      .loop (sendSlab
        { h with
          currentSlab := h.currentSlab + sizeofObjSlab
          slabs := Function.update h.slabs h.currentSlab
            (objSlab (h.slabs h.currentSlab) (idxToSize sizeIdx).toNat) }
        h.currentSlab (smBaseOf A sizeIdx) cpu) := by
  simp [allocateInnerPass, h0, not_le.mpr hlt]

theorem pass_of_success (hne : (h.mem (smAddr NPROCS A.m sizeIdx.toNat cpu)).toNat ≠ 0) {s' : ObjSlab}
    {ret : BitVec 64}
    (hres : (h.slabs (h.mem (smAddr NPROCS A.m sizeIdx.toNat cpu)).toNat).allocate cpu cpu = (s', ret))
    (hret : ret < SUCCESS_BOUND) :
    allocateInnerPass A h sizeIdx cpu =
      .done { h with slabs := Function.update h.slabs (h.mem (smAddr NPROCS A.m sizeIdx.toNat cpu)).toNat s' }
        ((h.mem (smAddr NPROCS A.m sizeIdx.toNat cpu)).toNat + payloadOffset +
          (idxToSize sizeIdx).toNat * ret.toNat) := by
  simp only [allocateInnerPass, hne, if_false, hres, hret, if_true]

/-- The head is full: it leaves the list, and `_try_release` either gives it up or, with
freed blocks, it is sent back to the tail. -/
theorem pass_of_full (hne : (h.mem (smAddr NPROCS A.m sizeIdx.toNat cpu)).toNat ≠ 0) {s' : ObjSlab}
    (hres : (h.slabs (h.mem (smAddr NPROCS A.m sizeIdx.toNat cpu)).toNat).allocate cpu cpu = (s', FULL)) :
    let head := (h.mem (smAddr NPROCS A.m sizeIdx.toNat cpu)).toNat
    let h₁ : Heap :=
      { h with
        slabs := Function.update h.slabs head s'.tryRelease.1
        mem := Function.update h.mem (smAddr NPROCS A.m sizeIdx.toNat cpu) (BitVec.ofNat 64 s'.next) }
    allocateInnerPass A h sizeIdx cpu =
      if s'.tryRelease.2 = 0 then
        .loop (sendSlab
          { h₁ with slabs := Function.update h₁.slabs head { s'.tryRelease.1 with next := 0 } }
          head (smBaseOf A sizeIdx) cpu)
      else .loop h₁ := by
  intro head h₁
  have hfull : ¬FULL < SUCCESS_BOUND := by decide
  have hmig : FULL ≠ MIGRATED := by decide
  simp only [allocateInnerPass, hne, if_false, hres, hfull, ne_eq, hmig, not_false_eq_true,
    if_true]
  rw [casSetNextAvailableSlab_self]
  simp [head, h₁]

end Pass

end NCMalloc
