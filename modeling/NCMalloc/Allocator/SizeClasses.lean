import Mathlib
import NCMalloc.Bits.Arith

/-!
# Size classes

`slab_size_classes.h`: the eleven block sizes of the object allocator and the maps between
a request size and its class index. Sizes and indices are `uint32_t` in the source, so the
maps are written on `BitVec 32` and wrap where the source wraps.
-/

namespace NCMalloc

/-- `num_size_classes`. -/
def numSizeClasses : Nat := 11

/-- `slab_sizes`. -/
def slabSizes : List (BitVec 32) := [8, 16, 24, 32, 48, 64, 80, 96, 112, 128, 144]

/-- `idx_to_size`: an index past the table reads outside the array in the source; it is never
called with one (every index comes from `size_to_idx` of a size in `[1, 144]`). -/
def idxToSize (idx : BitVec 32) : BitVec 32 := slabSizes.getD idx.toNat 0

/-- `size_to_idx`. -/
def sizeToIdx (size : BitVec 32) : BitVec 32 :=
  if size ≤ 24#32 then (size + 7#32) / 8#32 - 1#32 else (size + 15#32) / 16#32 + 1#32

/-- The allocator's request sizes: `_allocate(size)` with `1 <= size <= 144`. -/
def ValidSize (size : Nat) : Prop := 1 ≤ size ∧ size ≤ 144

instance (size : Nat) : Decidable (ValidSize size) :=
  inferInstanceAs (Decidable (1 ≤ size ∧ size ≤ 144))

/-- Every request size maps to a class whose block holds it, and the class of that block
size is the class itself. -/
theorem sizeToIdx_valid : ∀ size : Fin 145, ValidSize size.val →
    (sizeToIdx (BitVec.ofNat 32 size.val)).toNat < numSizeClasses ∧
      size.val ≤ (idxToSize (sizeToIdx (BitVec.ofNat 32 size.val))).toNat ∧
      sizeToIdx (idxToSize (sizeToIdx (BitVec.ofNat 32 size.val))) =
        sizeToIdx (BitVec.ofNat 32 size.val) := by
  decide

theorem sizeToIdx_idxToSize : ∀ idx : Fin numSizeClasses,
    sizeToIdx (idxToSize (BitVec.ofNat 32 idx.val)) = BitVec.ofNat 32 idx.val := by
  decide

theorem idxToSize_bounds : ∀ idx : Fin numSizeClasses,
    8 ≤ (idxToSize (BitVec.ofNat 32 idx.val)).toNat ∧
      (idxToSize (BitVec.ofNat 32 idx.val)).toNat ≤ 144 := by
  decide

/-! ## The branch-free variants and `round_size` -/

/-- `size_to_idx_nb`: the shift `base` is 3 up to 24 bytes and 4 above. -/
def sizeToIdxNb (size : BitVec 32) : BitVec 32 :=
  let base : ℕ := if size > 24#32 then 4 else 3
  ((size + ((1#32 <<< base) - 1#32)) >>> base) + 2#32 * BitVec.ofNat 32 (base / 2) - 3#32

/-- `round_size`: up to a multiple of 8 to 24 bytes, of 16 above. -/
def roundSize (size : BitVec 32) : BitVec 32 :=
  if size ≤ 24#32 then (size + 7#32) &&& ~~~7#32 else (size + 15#32) &&& ~~~15#32

/-- `round_size_nb`. -/
def roundSizeNb (size : BitVec 32) : BitVec 32 :=
  let base : BitVec 32 := if size > 24#32 then 2#32 * 8#32 else 8#32
  size &&& ~~~(base - 1#32)

/-- The branch-free class index is the class index, for every `uint32_t`, wrapping included:
both add, divide and subtract modulo `2^32` in the same way. -/
theorem sizeToIdxNb_eq (size : BitVec 32) : sizeToIdxNb size = sizeToIdx size := by
  unfold sizeToIdxNb sizeToIdx
  by_cases h : size ≤ 24#32
  · have hn : ¬size > 24#32 := BitVec.not_lt.mpr h
    simp only [hn, if_false, h, if_true]
    apply BitVec.eq_of_toNat_eq
    simp [BitVec.toNat_add, BitVec.toNat_sub, BitVec.toNat_udiv, Nat.shiftRight_eq_div_pow]
    omega
  · have hn : size > 24#32 := BitVec.not_le.mp h
    simp only [hn, if_true, h, if_false]
    apply BitVec.eq_of_toNat_eq
    simp [BitVec.toNat_add, BitVec.toNat_sub, BitVec.toNat_udiv, Nat.shiftRight_eq_div_pow]
    omega

/-- The granule both roundings use: `base` of `round_size_nb`, 8 bytes up to 24 and 16 above. -/
def granule (size : ℕ) : ℕ := if size ≤ 24 then 8 else 16

/-- Where `round_size` rounds a size up to its granule, `round_size_nb` clears the low bits
and rounds it down: the two agree on the multiples of the granule, and elsewhere
`round_size_nb` is one granule short. -/
theorem roundSizeNb_add_granule {size : BitVec 32} (h : size.toNat + 15 < 2 ^ 32) :
    (roundSizeNb size).toNat +
        (if size.toNat % granule size.toNat = 0 then 0 else granule size.toNat) =
      (roundSize size).toNat := by
  unfold roundSizeNb roundSize granule
  by_cases h24 : size.toNat ≤ 24
  · have hnb : ¬size > 24#32 := BitVec.not_lt.mpr h24
    rw [if_neg hnb, if_pos (show size ≤ 24#32 from h24), if_pos h24,
      BitVec.toNat_and_not_of_toNat_eq _ _ 3 rfl, BitVec.toNat_and_not_of_toNat_eq _ _ 3 rfl,
      BitVec.toNat_add]
    simp only [BitVec.toNat_ofNat]
    split_ifs <;> omega
  · have hnb : size > 24#32 := BitVec.not_le.mp h24
    rw [if_pos hnb, if_neg (show ¬size ≤ 24#32 from h24), if_neg h24,
      BitVec.toNat_and_not_of_toNat_eq _ _ 4 rfl, BitVec.toNat_and_not_of_toNat_eq _ _ 4 rfl,
      BitVec.toNat_add]
    simp only [BitVec.toNat_ofNat]
    split_ifs <;> omega

/-- A request of 100 bytes: 96 against 112. -/
theorem roundSizeNb_add_granule_hundred :
    (100#32).toNat + 15 < 2 ^ 32 ∧
      (roundSizeNb 100#32).toNat +
          (if (100#32).toNat % granule (100#32).toNat = 0 then 0 else granule (100#32).toNat) =
        (roundSize 100#32).toNat :=
  ⟨by decide, roundSizeNb_add_granule (by decide)⟩

/-- `round_size_nb(1)` is 0 where `round_size(1)` is 8. -/
theorem roundSizeNb_one : roundSizeNb 1#32 = 0#32 ∧ roundSize 1#32 = 8#32 := by
  decide

/-- Below `2^32 - 15` nothing wraps: `round_size` rounds up to a multiple of 8 or 16. -/
theorem roundSize_eq_ofNat {size : BitVec 32} (h : size.toNat ≤ 144) :
    roundSize size = BitVec.ofNat 32
      (if size.toNat ≤ 24 then (size.toNat + 7) / 8 * 8 else (size.toNat + 15) / 16 * 16) := by
  unfold roundSize
  apply BitVec.eq_of_toNat_eq
  by_cases h24 : size.toNat ≤ 24
  · rw [if_pos (show size ≤ 24#32 from h24), if_pos h24,
      BitVec.toNat_and_not_of_toNat_eq _ _ 3 rfl, BitVec.toNat_add]
    simp only [BitVec.toNat_ofNat]
    omega
  · rw [if_neg (show ¬size ≤ 24#32 from h24), if_neg h24,
      BitVec.toNat_and_not_of_toNat_eq _ _ 4 rfl, BitVec.toNat_add]
    simp only [BitVec.toNat_ofNat]
    omega

set_option maxRecDepth 4000 in
private theorem roundSize_table : ∀ size : Fin 145, ValidSize size.val →
    BitVec.ofNat 32 (if size.val ≤ 24 then (size.val + 7) / 8 * 8 else (size.val + 15) / 16 * 16) =
        idxToSize (sizeToIdx (BitVec.ofNat 32 size.val)) ∧
      BitVec.ofNat 32 (if size.val ≤ 24 then (size.val + 7) / 8 * 8 else (size.val + 15) / 16 * 16) ∈
        slabSizes ∧
      BitVec.ofNat 32 size.val ≤
        BitVec.ofNat 32 (if size.val ≤ 24 then (size.val + 7) / 8 * 8 else (size.val + 15) / 16 * 16) ∧
      -- stated with List.Forall, whose instance runs down the list; a bounded forall over
      -- the list would be decided by enumerating BitVec 32
      slabSizes.Forall fun x => BitVec.ofNat 32 size.val ≤ x →
        BitVec.ofNat 32 (if size.val ≤ 24 then (size.val + 7) / 8 * 8 else (size.val + 15) / 16 * 16) ≤ x := by
  decide

/-- On request sizes, `round_size` is the block size of the class, the least entry of
`slab_sizes` that holds the size. -/
theorem roundSize_spec {size : BitVec 32} (hsize : ValidSize size.toNat) :
    roundSize size = idxToSize (sizeToIdx size) ∧ roundSize size ∈ slabSizes ∧
      size ≤ roundSize size ∧ ∀ x ∈ slabSizes, size ≤ x → roundSize size ≤ x := by
  have h := roundSize_table ⟨size.toNat, Nat.lt_succ_of_le hsize.2⟩ hsize
  rw [BitVec.ofNat_toNat, BitVec.setWidth_eq, List.forall_iff_forall_mem] at h
  rwa [roundSize_eq_ofNat hsize.2]

/-- A request of 100 bytes gets the 112-byte class. -/
theorem roundSize_spec_hundred :
    ValidSize (100#32).toNat ∧
      (roundSize 100#32 = idxToSize (sizeToIdx 100#32) ∧ roundSize 100#32 ∈ slabSizes ∧
        100#32 ≤ roundSize 100#32 ∧ ∀ x ∈ slabSizes, 100#32 ≤ x → roundSize 100#32 ≤ x) :=
  ⟨by decide, roundSize_spec (by decide)⟩

end NCMalloc
