import NCMalloc.Allocator.ObjSlab
import NCMalloc.Optimized.ConstMath

/-!
# The memory layout of the object allocator

`object_allocator.h`, `slab_manager.h`, `free_cache.h`: the region starts with
`memory_layout` (the array `slab_managers[num_size_classes][NPROCS]`, the bump allocator and
the region size) and then holds slabs, aligned to `sizeof(obj_slab)` so that `addr_to_slab`
finds a block's slab by division. The layout is given for any count of CPUs; the sizes of
the allocator below are those of the x86-64 build on an eight-CPU host, with the default
`cache_size_lower_bound = 13`. Addresses are natural numbers: a region lies
below `2^64`, where the source's 64-bit pointer arithmetic does not wrap.
-/

namespace NCMalloc

open ObjSlab

/-- `NPROCS` of `PRECOMPUTED_SYS_INFO.h`, which the build writes for its host: here an
eight-CPU host. -/
def NPROCS : ℕ := 8

/-- `cache_size` of `object_allocator<cache_size_lower_bound>`: the pointers that fit when
head, tail and `current_idx` (24 bytes) and the cache are rounded up to a power of two. -/
def cacheSizeOf (cacheSizeLowerBound : ℕ) : ℕ :=
  ((nextP2 (BitVec.ofNat 32 (24 + 8 * cacheSizeLowerBound))).toNat - 24) / 8

/-- `sizeof(slab_manager<obj_slab, cache_size>)`: head and tail, then `free_cache`
(`current_idx` padded to eight bytes, then `cache_size` pointers), aligned to
`L2_CACHE_LOAD_SIZE`. -/
def sizeofSlabManagerOf (cacheSize : ℕ) : ℕ := roundup (8 + 8 + (8 + 8 * cacheSize)) l2LoadAlign

/-- `_log_sizeof_slab_manager` of `object_allocator<cache_size_lower_bound>`. -/
def logSizeofSlabManagerOf (cacheSizeLowerBound : ℕ) : ℕ :=
  (ulog2 (BitVec.ofNat 64 (sizeofSlabManagerOf (cacheSizeOf cacheSizeLowerBound)))).toNat

/-- The default `cache_size_lower_bound` of `object_allocator`. -/
def cacheSizeLowerBound : ℕ := 13

/-- `object_allocator::cache_size` of the default allocator. -/
def cacheSize : ℕ := cacheSizeOf cacheSizeLowerBound

theorem cacheSize_eq : cacheSize = 13 := by decide

/-- `sizeof(slab_manager_t)` of the default allocator. -/
def sizeofSlabManager : ℕ := sizeofSlabManagerOf cacheSize

theorem sizeofSlabManager_eq : sizeofSlabManager = 128 := by decide

/-- `object_allocator::_log_sizeof_slab_manager` of the default allocator. -/
def logSizeofSlabManager : ℕ := logSizeofSlabManagerOf cacheSizeLowerBound

theorem logSizeofSlabManager_eq : logSizeofSlabManager = 7 := by decide

/-! ## Any `cache_size_lower_bound`

`next_p2` rounds the manager's 24 bytes and its cache up to a power of two `2^c`, so the
cache holds at least the lower bound, and the alignment to 128 bytes keeps a power of two;
`ulog2` reads its exponent back, and shifting a CPU number by it gives the offset of that
CPU's manager. -/

section LowerBound

variable {L : ℕ}

theorem nextP2_cacheSize (hL : 1 ≤ L) (hL' : 24 + 8 * L ≤ 2 ^ 31) :
    (nextP2 (BitVec.ofNat 32 (24 + 8 * L))).toNat = 2 ^ Nat.clog 2 (24 + 8 * L) := by
  have h := nextP2_toNat (Or.inl rfl) (v := BitVec.ofNat 32 (24 + 8 * L))
  rw [BitVec.toNat_ofNat, Nat.mod_eq_of_lt (by omega)] at h
  exact h (by omega) hL'

theorem clog_cacheSize_bounds (hL : 1 ≤ L) (hL' : 24 + 8 * L ≤ 2 ^ 31) :
    5 ≤ Nat.clog 2 (24 + 8 * L) ∧ Nat.clog 2 (24 + 8 * L) ≤ 31 :=
  ⟨(Nat.lt_clog_iff_pow_lt (by norm_num)).mpr (by omega), Nat.clog_le_of_le_pow hL'⟩

theorem le_cacheSizeOf (hL : 1 ≤ L) (hL' : 24 + 8 * L ≤ 2 ^ 31) : L ≤ cacheSizeOf L := by
  have hle := Nat.le_pow_clog (by norm_num : 1 < 2) (24 + 8 * L)
  rw [cacheSizeOf, nextP2_cacheSize hL hL']
  omega

theorem slabManager_words (hL : 1 ≤ L) (hL' : 24 + 8 * L ≤ 2 ^ 31) :
    8 + 8 + (8 + 8 * cacheSizeOf L) = 2 ^ Nat.clog 2 (24 + 8 * L) := by
  have hc := clog_cacheSize_bounds hL hL'
  have h8 : 8 ∣ 2 ^ Nat.clog 2 (24 + 8 * L) := pow_dvd_pow 2 (show 3 ≤ _ by omega)
  have h32 : 2 ^ 5 ≤ 2 ^ Nat.clog 2 (24 + 8 * L) := Nat.pow_le_pow_right (by norm_num) hc.1
  rw [cacheSizeOf, nextP2_cacheSize hL hL']
  omega

/-- `sizeof(slab_manager_t)` is `2^max(c, 7)`: a multiple of 128 is already aligned, and a
smaller power of two rounds up to 128. -/
theorem sizeofSlabManagerOf_cacheSizeOf (hL : 1 ≤ L) (hL' : 24 + 8 * L ≤ 2 ^ 31) :
    sizeofSlabManagerOf (cacheSizeOf L) = 2 ^ max (Nat.clog 2 (24 + 8 * L)) 7 := by
  rw [sizeofSlabManagerOf, slabManager_words hL hL', l2LoadAlign]
  rcases le_or_gt 7 (Nat.clog 2 (24 + 8 * L)) with h | h
  · rw [max_eq_left h]
    exact roundup_of_dvd (by norm_num) (pow_dvd_pow 2 h)
  · rw [max_eq_right h.le]
    exact roundup_of_le (Nat.two_pow_pos _) (Nat.pow_le_pow_right (by norm_num) h.le)

theorem logSizeofSlabManagerOf_eq (hL : 1 ≤ L) (hL' : 24 + 8 * L ≤ 2 ^ 31) :
    logSizeofSlabManagerOf L = max (Nat.clog 2 (24 + 8 * L)) 7 := by
  have hc := clog_cacheSize_bounds hL hL'
  have hlt : 2 ^ max (Nat.clog 2 (24 + 8 * L)) 7 < 2 ^ 64 :=
    Nat.pow_lt_pow_right (by norm_num) (by omega)
  have hne : BitVec.ofNat 64 (2 ^ max (Nat.clog 2 (24 + 8 * L)) 7) ≠ 0 := by
    intro h
    have h' := congrArg BitVec.toNat h
    rw [BitVec.toNat_ofNat, Nat.mod_eq_of_lt hlt, show (0 : BitVec 64).toNat = 0 from rfl] at h'
    exact (Nat.two_pow_pos _).ne' h'
  rw [logSizeofSlabManagerOf, sizeofSlabManagerOf_cacheSizeOf hL hL', ulog2_toNat (Or.inr rfl) hne,
    BitVec.toNat_ofNat, Nat.mod_eq_of_lt hlt, Nat.log_pow (by norm_num)]

end LowerBound

theorem ofNat_shiftLeft (a k : ℕ) : BitVec.ofNat 64 a <<< k = BitVec.ofNat 64 (a * 2 ^ k) := by
  apply BitVec.eq_of_toNat_eq
  rw [BitVec.toNat_shiftLeft, BitVec.toNat_ofNat, BitVec.toNat_ofNat, Nat.shiftLeft_eq, Nat.mod_mul_mod]

/-- `ulog2` and `next_p2` are right in both instantiations; for every lower bound whose
manager size fits the `uint32_t` of `next_p2`, the cache holds the bound, the manager's size
is a power of two, and shifting a CPU number by `_log_sizeof_slab_manager` gives the offset
of its manager. -/
theorem ulog2_nextP2_layout :
    (∀ w, w = 32 ∨ w = 64 → ∀ v : BitVec w, v ≠ 0 → (ulog2 v).toNat = Nat.log 2 v.toNat) ∧
    (∀ w, w = 32 ∨ w = 64 → ∀ v : BitVec w, 1 ≤ v.toNat → v.toNat ≤ 2 ^ (w - 1) →
      (nextP2 v).toNat = 2 ^ Nat.clog 2 v.toNat) ∧
    (∀ L, 1 ≤ L → 24 + 8 * L ≤ 2 ^ 31 →
      L ≤ cacheSizeOf L ∧ (∃ k, sizeofSlabManagerOf (cacheSizeOf L) = 2 ^ k) ∧
      ∀ cpu < NPROCS, BitVec.ofNat 64 cpu <<< logSizeofSlabManagerOf L =
        BitVec.ofNat 64 (cpu * sizeofSlabManagerOf (cacheSizeOf L))) := by
  refine ⟨fun w hw v hv => ulog2_toNat hw hv, fun w hw v h1 h2 => nextP2_toNat hw h1 h2,
    fun L hL hL' => ⟨le_cacheSizeOf hL hL', ⟨_, sizeofSlabManagerOf_cacheSizeOf hL hL'⟩, ?_⟩⟩
  intro cpu _
  rw [ofNat_shiftLeft, logSizeofSlabManagerOf_eq hL hL', sizeofSlabManagerOf_cacheSizeOf hL hL']

/-- The default allocator's numbers: `ulog2(128) = 7`, `next_p2(100) = 128`, and the
thirteen-pointer cache with CPU 7's manager at `7 << 7`. -/
theorem ulog2_nextP2_layout_default :
    (ulog2 (128#64)).toNat = Nat.log 2 (128#64).toNat ∧
      (nextP2 (100#32)).toNat = 2 ^ Nat.clog 2 (100#32).toNat ∧
      13 ≤ cacheSizeOf 13 ∧
      BitVec.ofNat 64 7 <<< logSizeofSlabManagerOf 13 =
        BitVec.ofNat 64 (7 * sizeofSlabManagerOf (cacheSizeOf 13)) :=
  ⟨ulog2_nextP2_layout.1 64 (Or.inr rfl) 128#64 (by decide),
    ulog2_nextP2_layout.2.1 32 (Or.inl rfl) 100#32 (by decide) (by decide),
    (ulog2_nextP2_layout.2.2 13 (by norm_num) (by norm_num)).1,
    (ulog2_nextP2_layout.2.2 13 (by norm_num) (by norm_num)).2.2 7 (by decide)⟩

/-- `sizeof(memory_layout)` on `nprocs` CPUs: the slab managers, `current_slab` and
`raw_region_size`, aligned as a slab manager. -/
def sizeofMemoryLayoutOf (nprocs : ℕ) : ℕ :=
  roundup (numSizeClasses * nprocs * sizeofSlabManager + 8 + 8) l2LoadAlign

def sizeofMemoryLayout : ℕ := sizeofMemoryLayoutOf NPROCS

theorem sizeofMemoryLayout_eq : sizeofMemoryLayout = 11392 := by decide

/-- `m->slab_managers[i]`, the first of the `nprocs` slab managers of class `i`. -/
def smBase (nprocs m i : ℕ) : ℕ := m + i * (nprocs * sizeofSlabManager)

/-- `&m->slab_managers[i][cpu]`. -/
def smAddr (nprocs m i cpu : ℕ) : ℕ := smBase nprocs m i + cpu * sizeofSlabManager

/-- `calculate_start<obj_slab>`: the first slab boundary at or after `memRegion`. -/
def calculateStart (memRegion : ℕ) : ℕ := roundup memRegion sizeofObjSlab

/-- `calculate_end<obj_slab>`: the last slab boundary of the region. -/
def calculateEnd (memRegion regionSize : ℕ) : ℕ :=
  let metaDataOffset := calculateStart memRegion - memRegion
  calculateStart memRegion + rounddown (regionSize - metaDataOffset) sizeofObjSlab

/-- `object_allocator::addr_to_slab`. -/
def addrToSlab (addr : ℕ) : ℕ := sizeofObjSlab * (addr / sizeofObjSlab)

/-- Every slab manager lies inside `memory_layout`. -/
theorem smAddr_add_lt {nprocs m i cpu : ℕ} (hi : i < numSizeClasses) (hc : cpu < nprocs) :
    smAddr nprocs m i cpu + sizeofSlabManager ≤ m + sizeofMemoryLayoutOf nprocs := by
  have hcol : cpu * sizeofSlabManager + sizeofSlabManager ≤ nprocs * sizeofSlabManager := by
    rw [← Nat.succ_mul]
    exact Nat.mul_le_mul_right _ hc
  have hrow : (i + 1) * (nprocs * sizeofSlabManager) ≤ numSizeClasses * nprocs * sizeofSlabManager := by
    rw [Nat.mul_assoc]
    exact Nat.mul_le_mul_right _ hi
  have hround := le_roundup (numSizeClasses * nprocs * sizeofSlabManager + 8 + 8)
    (b := l2LoadAlign) (by decide)
  calc smAddr nprocs m i cpu + sizeofSlabManager
      ≤ m + (i + 1) * (nprocs * sizeofSlabManager) := by
        rw [smAddr, smBase, Nat.add_one_mul]
        omega
    _ ≤ m + sizeofMemoryLayoutOf nprocs := by
        rw [sizeofMemoryLayoutOf]
        omega

/-! ## The region bounds in `uint64_t`

The constructor computes `calculate_start` and `calculate_end` in `uint64_t`. Where the
region reaches its first slab boundary nothing wraps, and they are the bounds above on
natural numbers; in a smaller region `region_size - meta_data_offset` wraps, and `end`
lands near `2^64`. -/

namespace Word64

/-- `calculate_start<obj_slab>` on `uint64_t`. -/
def calculateStart (memRegion : BitVec 64) : BitVec 64 :=
  roundup memRegion (BitVec.ofNat 64 sizeofObjSlab)

/-- `calculate_end<obj_slab>` on `uint64_t`. -/
def calculateEnd (memRegion regionSize : BitVec 64) : BitVec 64 :=
  let metaDataOffset := calculateStart memRegion - memRegion
  calculateStart memRegion + rounddown (regionSize - metaDataOffset) (BitVec.ofNat 64 sizeofObjSlab)

/-- `object_allocator(mem, region_size)`: the first slab, as `memory_layout`'s constructor
sets `current_slab`, and `end`. -/
def bounds (m regionSize : BitVec 64) : BitVec 64 × BitVec 64 :=
  (calculateStart (m + BitVec.ofNat 64 sizeofMemoryLayout),
    calculateEnd (m + BitVec.ofNat 64 sizeofMemoryLayout)
      (regionSize - BitVec.ofNat 64 sizeofMemoryLayout))

/-- A region of `sizeof(memory_layout_t)` bytes at 4096: the first slab starts at 34048,
past the region's end 15488, and `end` wraps to `2^64 - 1024`. -/
theorem bounds_small_region :
    sizeofMemoryLayout = 11392 ∧ 4096 + 11392 < (bounds 4096#64 11392#64).1.toNat ∧
      (bounds 4096#64 11392#64).2.toNat = 2 ^ 64 - 1024 := by
  decide

theorem calculateStart_toNat {a : ℕ} (h : a + sizeofObjSlab ≤ 2 ^ 64) :
    (calculateStart (BitVec.ofNat 64 a)).toNat = NCMalloc.calculateStart a := by
  rw [sizeofObjSlab_eq] at h
  have hb : (BitVec.ofNat 64 sizeofObjSlab).toNat = 34048 := by rw [sizeofObjSlab_eq]; rfl
  have ha : (BitVec.ofNat 64 a).toNat = a := by rw [BitVec.toNat_ofNat, Nat.mod_eq_of_lt (by omega)]
  have hone : (2 ^ 64 - (1 : BitVec 64).toNat + 34048) % 2 ^ 64 = 34047 := by decide
  have hsum : (a + 34047) % 2 ^ 64 = a + 34047 := Nat.mod_eq_of_lt (by omega)
  have hprod : 34048 * ((a + 34047) / 34048) % 2 ^ 64 = 34048 * ((a + 34047) / 34048) :=
    Nat.mod_eq_of_lt (by omega)
  rw [calculateStart, NCMalloc.calculateStart, roundup, roundup]
  rw [BitVec.toNat_mul, BitVec.toNat_udiv, BitVec.toNat_add, BitVec.toNat_sub, hb, sizeofObjSlab_eq,
    ha, hone, hsum, hprod]

theorem calculateEnd_toNat {a r : ℕ} (ha : a + sizeofObjSlab ≤ 2 ^ 64)
    (hs : NCMalloc.calculateStart a ≤ a + r) (hr : a + r < 2 ^ 64) :
    (calculateEnd (BitVec.ofNat 64 a) (BitVec.ofNat 64 r)).toNat = NCMalloc.calculateEnd a r := by
  have hstart := calculateStart_toNat ha
  have hle : a ≤ NCMalloc.calculateStart a := by
    rw [NCMalloc.calculateStart, roundup, sizeofObjSlab_eq]
    omega
  have ha' : (BitVec.ofNat 64 a).toNat = a := by rw [BitVec.toNat_ofNat]; omega
  have hr' : (BitVec.ofNat 64 r).toNat = r := by rw [BitVec.toNat_ofNat]; omega
  have hmeta : (calculateStart (BitVec.ofNat 64 a) - BitVec.ofNat 64 a).toNat =
      NCMalloc.calculateStart a - a := by
    rw [BitVec.toNat_sub_of_le (BitVec.le_def.mpr (by omega)), hstart, ha']
  have hroom : (BitVec.ofNat 64 r - (calculateStart (BitVec.ofNat 64 a) - BitVec.ofNat 64 a)).toNat =
      r - (NCMalloc.calculateStart a - a) := by
    rw [BitVec.toNat_sub_of_le (BitVec.le_def.mpr (by omega)), hmeta, hr']
  have hdown : ∀ x : BitVec 64, (rounddown x (BitVec.ofNat 64 sizeofObjSlab)).toNat =
      rounddown x.toNat sizeofObjSlab := by
    intro x
    have hx := x.isLt
    simp only [rounddown, sizeofObjSlab_eq]
    simp [BitVec.toNat_mul, BitVec.toNat_udiv]
    omega
  simp only [calculateEnd, NCMalloc.calculateEnd]
  have hsum : NCMalloc.calculateStart a + rounddown (r - (NCMalloc.calculateStart a - a)) sizeofObjSlab < 2 ^ 64 := by
    rw [rounddown, sizeofObjSlab_eq]
    omega
  rw [BitVec.toNat_add_of_lt (by rw [hdown, hroom, hstart]; exact hsum), hdown, hroom, hstart]

end Word64

end NCMalloc
