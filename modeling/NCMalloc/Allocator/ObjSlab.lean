import NCMalloc.Bits.Word
import NCMalloc.Allocator.SizeClasses

/-!
# Object slabs

`obj_slab.h`: a slab of `capacity` slots of one block size. A slot is available when its bit
is set in `available_slots`; the owning CPU allocates from these bits inside an rseq critical
section (`_allocate`, hand-written x86). Any thread frees a block by setting its bit in
`freed_slots` (`_free`), and the owner moves the freed bits back to the available ones when
the slab is full (`_try_release`). `available_vecs` and `freed_vecs` summarise which words may
be nonzero.

The model here is sequential: each operation runs to completion. Registers of the assembly are
the `let`s of the definitions, and the labels of its loop are recursive calls.
-/

namespace NCMalloc

namespace ObjSlab

/-- `obj_slab::vec_size`, the bits of one word. -/
def vecSize : Nat := 64
/-- `obj_slab::num_vecs`, the words of one bitmap. -/
def numVecs : Nat := 64
/-- `obj_slab::capacity`. -/
def capacity : Nat := numVecs * vecSize
/-- `obj_slab::payload_size`: room for `capacity` blocks of the smallest size, 8 bytes. -/
def payloadSize : Nat := capacity * 8
/-- `obj_slab::next_offset` (checked by a `static_assert` against `offsetof(obj_slab, next)`). -/
def nextOffset : Nat := 520
/-- `obj_slab::payload_offset` (checked by a `static_assert` against `offsetof(obj_slab, payload)`). -/
def payloadOffset : Nat := 1280
/-- `L2_CACHE_LOAD_SIZE`, the alignment of `obj_slab` and `slab_manager`. -/
def l2LoadAlign : Nat := 128
/-- `sizeof(obj_slab)`: the payload ends the struct, rounded up to its 128-byte alignment. -/
def sizeofObjSlab : Nat := (payloadOffset + payloadSize + l2LoadAlign - 1) / l2LoadAlign * l2LoadAlign

theorem sizeofObjSlab_eq : sizeofObjSlab = 34048 := by decide

/-- `OWNED`. -/
def OWNED : BitVec 64 := 0
/-- `UNOWNED`. -/
def UNOWNED : BitVec 64 := 1
/-- `FAILURE::MIGRATED`. -/
def MIGRATED : BitVec 64 := BitVec.ofNat 64 capacity
/-- `FAILURE::FULL`. -/
def FULL : BitVec 64 := BitVec.ofNat 64 (capacity + 1)
/-- `SUCCESS_BOUND`: results below it are slot indices. -/
def SUCCESS_BOUND : BitVec 64 := MIGRATED

end ObjSlab

/-- The fields of `obj_slab` the allocator reads and writes; the payload is not modelled. -/
structure ObjSlab where
  availableVecs : BitVec 64
  availableSlots : Fin 64 → BitVec 64
  next : Nat
  blockSize : Nat
  freedVecs : BitVec 64
  state : BitVec 64
  freedSlots : Fin 64 → BitVec 64

namespace ObjSlab

/-- A slab-sized piece of the zeroed memory the allocator carves slabs from. -/
def zeroed : ObjSlab where
  availableVecs := 0
  availableSlots := fun _ => 0
  next := 0
  blockSize := 0
  freedVecs := 0
  state := 0
  freedSlots := fun _ => 0

/-- `bits::tzcnt<uint64_t>` and the `tzcntq` instruction: trailing zeros, 64 for zero. -/
def tzcnt (x : BitVec 64) : BitVec 64 := x.ctz

/-- The word index a 64-bit register selects in a bitmap, as in `8(this, idx, 8)`; it is
below 64 wherever it is used. -/
def word (i : BitVec 64) : Fin 64 := Fin.ofNat 64 i.toNat

/-- The constructor `obj_slab(_block_size)` run on the memory `mem`: `nslots` words hold
`nblocks` available bits, the words past them keep what `mem` held. -/
def objSlab (mem : ObjSlab) (blockSize : Nat) : ObjSlab :=
  let nblocks := payloadSize / blockSize
  let nslots := (nblocks + 63) / 64
  { mem with
    blockSize := blockSize
    availableVecs := (if nslots ≥ 64 then 0#64 else 1#64 <<< nslots) - 1#64
    availableSlots := fun i =>
      -- `memset` fills the first `nslots - 1` words, then the last one is written
      if i.val + 1 < nslots then BitVec.allOnes 64
      else if i.val + 1 = nslots then
        (if nblocks % 64 ≠ 0 then (1#64 <<< (nblocks % 64)) - 1#64 else BitVec.allOnes 64)
      else mem.availableSlots i }

/-- The loop of `obj_slab::_allocate` between labels 5 and 7. `tempAv` is the working copy of
`available_vecs`. A word found empty has its summary bit reset and `tempAv` is stored back
(label 7); the first nonempty word has its lowest bit taken (commit). The second component
is the `idx` register: `FULL`, or `(idx_av << 6) + tzcnt(temp_as)`. -/
def allocateLoop (s : ObjSlab) (tempAv : BitVec 64) : ObjSlab × BitVec 64 :=
  if _h : tempAv = 0#64 then (s, FULL)
  else
    let idxAv := tzcnt tempAv
    let tempAs := s.availableSlots (word idxAv)
    if tempAs = 0#64 then
      allocateLoop { s with availableVecs := BitVec.blsr tempAv } (BitVec.blsr tempAv)
    else
      ({ s with availableSlots := Function.update s.availableSlots (word idxAv) (BitVec.blsr tempAs) },
        (idxAv <<< 6) + tzcnt tempAs)
termination_by tempAv.toNat
decreasing_by exact BitVec.blsr_toNat_lt _h

/-- How many times `allocateLoop` reaches label 5. -/
def allocateLoopPasses (s : ObjSlab) (tempAv : BitVec 64) : Nat :=
  if _h : tempAv = 0#64 then 1
  else if s.availableSlots (word (tzcnt tempAv)) = 0#64 then
    allocateLoopPasses { s with availableVecs := BitVec.blsr tempAv } (BitVec.blsr tempAv) + 1
  else 1
termination_by tempAv.toNat
decreasing_by exact BitVec.blsr_toNat_lt _h

/-- `obj_slab::_allocate(start_cpu)` run without preemption on CPU `curCpu`: `MIGRATED` when
the thread is not on `start_cpu`, else the loop from `available_vecs`. -/
def allocate (s : ObjSlab) (curCpu startCpu : Nat) : ObjSlab × BitVec 64 :=
  if curCpu ≠ startCpu then (s, MIGRATED) else allocateLoop s s.availableVecs

/-- The `do`/`while` loop of `_try_release` over the reclaimed words; it is entered with a
nonzero `index_iterator`, so it runs as a `while` loop. -/
def releaseLoop (s : ObjSlab) (indexIterator : BitVec 64) : ObjSlab :=
  if _h : indexIterator = 0#64 then s
  else
    let idx := word (tzcnt indexIterator)
    let reclaimedSlots := s.freedSlots idx
    releaseLoop { s with
      freedSlots := Function.update s.freedSlots idx (s.freedSlots idx &&& ~~~reclaimedSlots)
      availableSlots := Function.update s.availableSlots idx reclaimedSlots }
      (BitVec.blsr indexIterator)
termination_by indexIterator.toNat
decreasing_by exact BitVec.blsr_toNat_lt _h

/-- `obj_slab::_try_release`: with nothing freed the slab is given up (`UNOWNED`, result 1);
otherwise the freed bits become the available bits (result 0). -/
def tryRelease (s : ObjSlab) : ObjSlab × Nat :=
  let reclaimedVecs := s.freedVecs
  if reclaimedVecs = 0#64 then ({ s with state := UNOWNED }, 1)
  else
    let s := { s with freedVecs := s.freedVecs &&& ~~~reclaimedVecs }
    let s := releaseLoop s reclaimedVecs
    ({ s with availableVecs := reclaimedVecs }, 0)

/-- `obj_slab::_free(addr_minus_start)`: set the block's bit in `freed_slots`; the first free in
a word also sets the word's bit in `freed_vecs` and reports whether the slab is `UNOWNED`. -/
def free (s : ObjSlab) (addrMinusStart : Nat) : ObjSlab × Nat :=
  let positionIdx := (addrMinusStart - payloadOffset) / s.blockSize
  let vecIdx := positionIdx / numVecs
  let slotIdx := positionIdx &&& (vecSize - 1)
  let v := Fin.ofNat 64 vecIdx
  if s.freedSlots v ≠ 0#64 then
    ({ s with freedSlots := Function.update s.freedSlots v (s.freedSlots v ||| 1#64 <<< slotIdx) }, 0)
  else
    let s := { s with freedSlots := Function.update s.freedSlots v (s.freedSlots v ||| 1#64 <<< slotIdx) }
    let s := { s with freedVecs := s.freedVecs ||| 1#64 <<< vecIdx }
    (s, if s.state = UNOWNED then 1 else 0)

/-- `obj_slab::_set_owned`: `lock btr` of bit 0 of `state`, returning the old bit. -/
def setOwned (s : ObjSlab) : ObjSlab × Nat :=
  ({ s with state := s.state &&& ~~~1#64 }, (s.state.getLsbD 0).toNat)

/-! ## Word indices -/

theorem tzcnt_toNat_lt {x : BitVec 64} (hx : x ≠ 0#64) : (tzcnt x).toNat < 64 :=
  BitVec.ctz_toNat_lt hx

theorem word_tzcnt {x : BitVec 64} (hx : x ≠ 0#64) : word (tzcnt x) = ⟨x.ctz.toNat, tzcnt_toNat_lt hx⟩ := by
  apply Fin.ext
  simp only [word, Fin.val_ofNat]
  exact Nat.mod_eq_of_lt (tzcnt_toNat_lt hx)

theorem slotIndex_toNat (a b : BitVec 64) (ha : a.toNat < 64) (hb : b.toNat < 64) :
    ((a <<< 6) + b).toNat = 64 * a.toNat + b.toNat := by
  rw [BitVec.toNat_add, BitVec.toNat_shiftLeft, Nat.shiftLeft_eq]
  have h1 : a.toNat * 2 ^ 6 % 2 ^ 64 = 64 * a.toNat := by
    rw [Nat.mod_eq_of_lt (by omega)]
    omega
  rw [h1, Nat.mod_eq_of_lt (by omega)]

/-! ## The allocation loop -/

section AllocateLoop

variable {s : ObjSlab} {x : BitVec 64}

theorem allocateLoop_zero (s : ObjSlab) : s.allocateLoop 0#64 = (s, FULL) := by
  rw [allocateLoop]
  simp

theorem allocateLoop_of_empty_word (hx : x ≠ 0#64) {v : Fin 64} (hv : v.val = x.ctz.toNat)
    (hw : s.availableSlots v = 0#64) :
    s.allocateLoop x = allocateLoop { s with availableVecs := BitVec.blsr x } (BitVec.blsr x) := by
  have hwv : word (tzcnt x) = v := by rw [word_tzcnt hx]; exact Fin.ext hv.symm
  rw [allocateLoop]
  simp [hx, hwv, hw]

theorem allocateLoop_of_nonempty_word (hx : x ≠ 0#64) {v : Fin 64} (hv : v.val = x.ctz.toNat)
    (hw : s.availableSlots v ≠ 0#64) :
    s.allocateLoop x =
      ({ s with availableSlots := Function.update s.availableSlots v (BitVec.blsr (s.availableSlots v)) },
        (tzcnt x <<< 6) + tzcnt (s.availableSlots v)) := by
  have hwv : word (tzcnt x) = v := by rw [word_tzcnt hx]; exact Fin.ext hv.symm
  rw [allocateLoop]
  simp [hx, hwv, hw]

theorem allocateLoop_full (hv : s.availableVecs = x)
    (hempty : ∀ v : Fin 64, v.val ∈ x.bitset → s.availableSlots v = 0#64) :
    s.allocateLoop x = ({ s with availableVecs := 0#64 }, FULL) := by
  induction s, x using allocateLoop.induct with
  | case1 s =>
    rw [allocateLoop_zero]
    cases s
    simp only at hv
    subst hv
    rfl
  | case2 s x hx _ _ _ ih =>
    have hk : (⟨x.ctz.toNat, tzcnt_toNat_lt hx⟩ : Fin 64).val ∈ x.bitset := BitVec.ctz_mem_bitset hx
    rw [allocateLoop_of_empty_word hx rfl (hempty _ hk), ih rfl]
    intro v hvm
    rw [BitVec.bitset_blsr] at hvm
    exact hempty v (Finset.mem_of_mem_erase hvm)
  | case3 s x hx _ _ hne =>
    have hk : (⟨x.ctz.toNat, tzcnt_toNat_lt hx⟩ : Fin 64).val ∈ x.bitset := BitVec.ctz_mem_bitset hx
    change ¬s.availableSlots (word (tzcnt x)) = 0#64 at hne
    rw [word_tzcnt hx] at hne
    exact absurd (hempty _ hk) hne

/-- The first nonempty word `v` among the summary bits gives up its lowest bit. The summary
loses exactly its bits below `v`, each of them indexing an empty word. -/
theorem allocateLoop_success (hv : s.availableVecs = x) {v : Fin 64} (hvx : v.val ∈ x.bitset)
    (hw : s.availableSlots v ≠ 0#64)
    (hbelow : ∀ u : Fin 64, u.val ∈ x.bitset → u < v → s.availableSlots u = 0#64) :
    ∃ av : BitVec 64, av.bitset = x.bitset.filter (v.val ≤ ·) ∧
      s.allocateLoop x =
        ({ s with
            availableVecs := av
            availableSlots := Function.update s.availableSlots v (BitVec.blsr (s.availableSlots v)) },
          (BitVec.ofNat 64 v.val <<< 6) + tzcnt (s.availableSlots v)) := by
  induction s, x using allocateLoop.induct with
  | case1 s => simp at hvx
  | case2 s x hx _ _ hzero ih =>
    change s.availableSlots (word (tzcnt x)) = 0#64 at hzero
    rw [word_tzcnt hx] at hzero
    have hkv : x.ctz.toNat < v.val := by
      rcases Nat.lt_or_ge x.ctz.toNat v.val with h | h
      · exact h
      · have hle := BitVec.ctz_le_of_mem_bitset hvx
        have heq : v = ⟨x.ctz.toNat, tzcnt_toNat_lt hx⟩ := Fin.ext (by simp only; omega)
        exact absurd (heq ▸ hzero) hw
    obtain ⟨av, hav, heq⟩ := ih rfl
      (by rw [BitVec.bitset_blsr]; exact Finset.mem_erase.mpr ⟨by omega, hvx⟩) hw
      (fun u hu hlt => hbelow u (Finset.mem_of_mem_erase (by rwa [BitVec.bitset_blsr] at hu)) hlt)
    refine ⟨av, ?_, ?_⟩
    · rw [hav, BitVec.bitset_blsr]
      ext u
      simp only [Finset.mem_filter, Finset.mem_erase]
      constructor
      · rintro ⟨⟨-, hu⟩, hle⟩
        exact ⟨hu, hle⟩
      · rintro ⟨hu, hle⟩
        exact ⟨⟨by omega, hu⟩, hle⟩
    · rw [allocateLoop_of_empty_word hx rfl hzero, heq]
  | case3 s x hx _ _ hne =>
    change ¬s.availableSlots (word (tzcnt x)) = 0#64 at hne
    rw [word_tzcnt hx] at hne
    have hle := BitVec.ctz_le_of_mem_bitset hvx
    have hkv : v = ⟨x.ctz.toNat, tzcnt_toNat_lt hx⟩ := by
      rcases Nat.lt_or_ge x.ctz.toNat v.val with h | h
      · exact absurd (hbelow _ (BitVec.ctz_mem_bitset hx) h) hne
      · exact Fin.ext (by simp only; omega)
    subst hkv
    refine ⟨x, ?_, ?_⟩
    · ext u
      simp only [Finset.mem_filter]
      exact ⟨fun hu => ⟨hu, BitVec.ctz_le_of_mem_bitset hu⟩, fun hu => hu.1⟩
    · rw [allocateLoop_of_nonempty_word hx rfl hne]
      have hidx : tzcnt x = BitVec.ofNat 64 x.ctz.toNat := by
        apply BitVec.eq_of_toNat_eq
        simp [tzcnt]
      rw [hidx]
      cases s
      simp only at hv
      subst hv
      rfl

theorem allocateLoopPasses_le (s : ObjSlab) (x : BitVec 64) :
    s.allocateLoopPasses x ≤ x.bitset.card + 1 := by
  induction s, x using allocateLoopPasses.induct with
  | case1 s =>
    rw [allocateLoopPasses]
    simp
  | case2 s x hx hzero ih =>
    rw [allocateLoopPasses]
    simp only [hx, hzero, dite_false, if_true]
    have := BitVec.card_bitset_blsr hx
    omega
  | case3 s x hx hne =>
    rw [allocateLoopPasses]
    simp only [hx, hne, dite_false, if_false]
    omega

end AllocateLoop

theorem slotIndex_eq (v : Fin 64) {w : BitVec 64} (hw : w ≠ 0#64) :
    (BitVec.ofNat 64 v.val <<< 6) + tzcnt w = BitVec.ofNat 64 (64 * v.val + w.ctz.toNat) := by
  have hv64 : (BitVec.ofNat 64 v.val).toNat = v.val := by
    simp only [BitVec.toNat_ofNat]
    exact Nat.mod_eq_of_lt (by omega)
  have hj : (tzcnt w).toNat < 64 := tzcnt_toNat_lt hw
  have hc : w.ctz.toNat < 64 := hj
  apply BitVec.eq_of_toNat_eq
  rw [slotIndex_toNat _ _ (by omega) hj, hv64, BitVec.toNat_ofNat, Nat.mod_eq_of_lt (by omega)]
  rfl

/-- `_allocate` on the owning CPU either finds every summarised word empty and reports `FULL`,
or takes the lowest bit of the first nonempty summarised word. -/
theorem allocate_cases (s : ObjSlab) (cpu : Nat) :
    ((∀ v : Fin 64, v.val ∈ s.availableVecs.bitset → s.availableSlots v = 0#64) ∧
      s.allocate cpu cpu = ({ s with availableVecs := 0#64 }, FULL)) ∨
    (∃ v : Fin 64, v.val ∈ s.availableVecs.bitset ∧ s.availableSlots v ≠ 0#64 ∧
      (∀ u : Fin 64, u.val ∈ s.availableVecs.bitset → u < v → s.availableSlots u = 0#64) ∧
      ∃ av : BitVec 64, av.bitset = s.availableVecs.bitset.filter (v.val ≤ ·) ∧
        s.allocate cpu cpu =
          ({ s with
              availableVecs := av
              availableSlots := Function.update s.availableSlots v (BitVec.blsr (s.availableSlots v)) },
            BitVec.ofNat 64 (64 * v.val + (s.availableSlots v).ctz.toNat))) := by
  have hcpu : s.allocate cpu cpu = s.allocateLoop s.availableVecs := by simp [allocate]
  let S := Finset.univ.filter fun u : Fin 64 => u.val ∈ s.availableVecs.bitset ∧ s.availableSlots u ≠ 0#64
  by_cases hS : S.Nonempty
  · right
    obtain ⟨-, hvx, hw⟩ := Finset.mem_filter.mp (S.min'_mem hS)
    have hbelow : ∀ u : Fin 64, u.val ∈ s.availableVecs.bitset → u < S.min' hS →
        s.availableSlots u = 0#64 := by
      intro u hu hlt
      by_contra hne
      exact absurd (S.min'_le u (Finset.mem_filter.mpr ⟨Finset.mem_univ u, hu, hne⟩)) (not_le.mpr hlt)
    obtain ⟨av, hav, hres⟩ := allocateLoop_success rfl hvx hw hbelow
    exact ⟨S.min' hS, hvx, hw, hbelow, av, hav, by rw [hcpu, hres, slotIndex_eq _ hw]⟩
  · left
    have hempty : ∀ v : Fin 64, v.val ∈ s.availableVecs.bitset → s.availableSlots v = 0#64 := by
      intro v hv
      by_contra hw
      exact hS ⟨v, Finset.mem_filter.mpr ⟨Finset.mem_univ v, hv, hw⟩⟩
    exact ⟨hempty, hcpu.trans (allocateLoop_full rfl hempty)⟩

/-- `obj_slab::_allocate`, run without preemption, on every bitmap state: `MIGRATED` and no
change off `start_cpu`; on it, `FULL` with an emptied summary when no summarised word is
nonempty, and otherwise the lowest bit `j` of the first nonempty summarised word `v`, returned
as `64 v + j`. Label 5 is reached at most once per summary bit, plus once. -/
theorem allocate_spec (s : ObjSlab) (curCpu startCpu : Nat) :
    (curCpu ≠ startCpu → s.allocate curCpu startCpu = (s, MIGRATED)) ∧
    (curCpu = startCpu →
      ((∀ v : Fin 64, v.val ∈ s.availableVecs.bitset → s.availableSlots v = 0#64) →
        s.allocate curCpu startCpu = ({ s with availableVecs := 0#64 }, FULL)) ∧
      (∀ v : Fin 64,
        IsLeast {u : Fin 64 | u.val ∈ s.availableVecs.bitset ∧ s.availableSlots u ≠ 0#64} v →
        let w := s.availableSlots v
        let idx := (BitVec.ofNat 64 v.val <<< 6) + tzcnt w
        (∃ av : BitVec 64, av.bitset = s.availableVecs.bitset.filter (v.val ≤ ·) ∧
          s.allocate curCpu startCpu =
            ({ s with
                availableVecs := av
                availableSlots := Function.update s.availableSlots v (BitVec.blsr w) }, idx)) ∧
        idx.toNat = 64 * v.val + w.ctz.toNat ∧ idx.toNat < SUCCESS_BOUND.toNat ∧
        (BitVec.blsr w).bitset = w.bitset.erase w.ctz.toNat ∧
        (∀ u : Fin 64, u.val ∈ s.availableVecs.bitset → u < v → s.availableSlots u = 0#64)) ∧
      s.allocateLoopPasses s.availableVecs ≤ s.availableVecs.bitset.card + 1) := by
  refine ⟨fun hne => by simp [allocate, hne], fun heq => ⟨fun hempty => ?_, fun v hv => ?_,
    allocateLoopPasses_le s _⟩⟩
  · simp only [allocate, heq, ne_eq, not_true_eq_false, if_false]
    exact allocateLoop_full rfl hempty
  · obtain ⟨⟨hvx, hw⟩, hleast⟩ := hv
    have hbelow : ∀ u : Fin 64, u.val ∈ s.availableVecs.bitset → u < v →
        s.availableSlots u = 0#64 := by
      intro u hu hlt
      by_contra hne
      exact absurd (hleast ⟨hu, hne⟩) (not_le.mpr hlt)
    have hv64 : (BitVec.ofNat 64 v.val).toNat = v.val := by
      simp only [BitVec.toNat_ofNat]
      exact Nat.mod_eq_of_lt (by omega)
    have hidx : ((BitVec.ofNat 64 v.val <<< 6) + tzcnt (s.availableSlots v)).toNat =
        64 * v.val + (s.availableSlots v).ctz.toNat := by
      rw [slotIndex_toNat _ _ (by omega) (tzcnt_toNat_lt hw), hv64]
      rfl
    obtain ⟨av, hav, hres⟩ := allocateLoop_success rfl hvx hw hbelow
    refine ⟨⟨av, hav, ?_⟩, hidx, ?_, BitVec.bitset_blsr _, hbelow⟩
    · simp only [allocate, heq, ne_eq, not_true_eq_false, if_false]
      exact hres
    · have hj := tzcnt_toNat_lt hw
      have hbound : SUCCESS_BOUND.toNat = 4096 := by decide
      rw [hidx, hbound]
      change 64 * v.val + (tzcnt (s.availableSlots v)).toNat < 4096
      omega

end ObjSlab

end NCMalloc
