import NCMalloc.Allocator.ObjSlab
import NCMalloc.Lib.Reach

/-!
# The representation invariant of an object slab

A slab's two bitmaps denote sets of slot numbers `64 v + j`. Over every sequential run of a
slab from its constructor, with the allocated slots kept as ghost state, the available set, the
freed set and the allocated set partition the slab's `nblocks` slots, every nonempty available
word is summarised in `available_vecs`, and `freed_vecs` summarises exactly the nonempty freed
words. `_try_release`, called right after `_allocate` returned `FULL`, turns the freed set into
the available set.
-/

namespace NCMalloc

namespace ObjSlab

/-! ## Slot sets -/

/-- The slot numbers `64 v + j` a bitmap marks, for bit `j` of word `v`. It is kept
irreducible: reducing it would enumerate the 64 words. -/
@[irreducible] def slotsOf (f : Fin 64 → BitVec 64) : Finset ℕ :=
  Finset.univ.biUnion fun v : Fin 64 => (f v).bitset.image (64 * v.val + ·)

/-- The word of slot `k`. -/
def vecOf (k : ℕ) : Fin 64 := ⟨k / 64 % 64, Nat.mod_lt _ (by decide)⟩

theorem vecOf_val {k : ℕ} (hk : k < 4096) : (vecOf k).val = k / 64 := by
  show k / 64 % 64 = k / 64
  omega

theorem mem_slotsOf {f : Fin 64 → BitVec 64} {k : ℕ} :
    k ∈ slotsOf f ↔ k < 4096 ∧ k % 64 ∈ (f (vecOf k)).bitset := by
  unfold slotsOf
  simp only [Finset.mem_biUnion, Finset.mem_univ, true_and, Finset.mem_image]
  constructor
  · rintro ⟨v, j, hj, rfl⟩
    have hj64 : j < 64 := BitVec.lt_of_mem_bitset hj
    have hv : vecOf (64 * v.val + j) = v := Fin.ext (by rw [vecOf_val (by omega)]; omega)
    refine ⟨by omega, ?_⟩
    rw [hv, show (64 * v.val + j) % 64 = j by omega]
    exact hj
  · rintro ⟨hk, hb⟩
    exact ⟨vecOf k, k % 64, hb, by rw [vecOf_val hk]; omega⟩

theorem mem_slotsOf_update {f : Fin 64 → BitVec 64} {v : Fin 64} {w : BitVec 64} {k : ℕ} :
    k ∈ slotsOf (Function.update f v w) ↔
      (vecOf k = v ∧ k < 4096 ∧ k % 64 ∈ w.bitset) ∨ (vecOf k ≠ v ∧ k ∈ slotsOf f) := by
  rw [mem_slotsOf, mem_slotsOf]
  by_cases hv : vecOf k = v
  · subst hv
    simp
  · simp [hv]

theorem vecOf_slot (v : Fin 64) {j : ℕ} (hj : j < 64) : vecOf (64 * v.val + j) = v :=
  Fin.ext (by rw [vecOf_val (by omega)]; omega)

theorem slot_mem_slotsOf {f : Fin 64 → BitVec 64} {v : Fin 64} {j : ℕ} (hj : j ∈ (f v).bitset) :
    64 * v.val + j ∈ slotsOf f := by
  have hj64 : j < 64 := BitVec.lt_of_mem_bitset hj
  rw [mem_slotsOf, vecOf_slot v hj64, show (64 * v.val + j) % 64 = j by omega]
  exact ⟨by omega, hj⟩

theorem slotsOf_eq_empty_iff {f : Fin 64 → BitVec 64} : slotsOf f = ∅ ↔ ∀ v, f v = 0#64 := by
  constructor
  · intro h v
    apply BitVec.bitset_eq_empty_iff.mp
    apply Finset.eq_empty_of_forall_notMem
    intro j hj
    have hmem := slot_mem_slotsOf (f := f) (v := v) hj
    rw [h] at hmem
    exact Finset.notMem_empty _ hmem
  · intro h
    apply Finset.eq_empty_of_forall_notMem
    intro k hk
    simp [mem_slotsOf, h] at hk

theorem slot_eq_iff {k j : ℕ} {v : Fin 64} (hk : k < 4096) (hj : j < 64) :
    k = 64 * v.val + j ↔ vecOf k = v ∧ k % 64 = j := by
  constructor
  · rintro rfl
    exact ⟨vecOf_slot v hj, by omega⟩
  · rintro ⟨rfl, rfl⟩
    rw [vecOf_val hk]
    omega

theorem slotsOf_update_blsr (f : Fin 64 → BitVec 64) {v : Fin 64} (hw : f v ≠ 0#64) :
    slotsOf (Function.update f v (BitVec.blsr (f v))) =
      (slotsOf f).erase (64 * v.val + (f v).ctz.toNat) := by
  ext k
  rw [mem_slotsOf_update, Finset.mem_erase, mem_slotsOf, BitVec.bitset_blsr, Finset.mem_erase]
  by_cases hk : k < 4096
  · simp only [ne_eq]
    rw [slot_eq_iff hk (BitVec.ctz_toNat_lt hw)]
    by_cases hv : vecOf k = v
    · subst hv
      tauto
    · simp [hv]
  · simp [hk]

theorem slotsOf_update_or (f : Fin 64 → BitVec 64) (v : Fin 64) {j : ℕ} (hj : j < 64) :
    slotsOf (Function.update f v (f v ||| 1#64 <<< j)) = insert (64 * v.val + j) (slotsOf f) := by
  have htp : (1#64 <<< j).bitset = {j} := by
    rw [BitVec.bitset_one_shiftLeft, if_pos hj]
  ext k
  rw [mem_slotsOf_update, Finset.mem_insert, mem_slotsOf, BitVec.bitset_or, htp,
    Finset.mem_union, Finset.mem_singleton]
  by_cases hk : k < 4096
  · rw [slot_eq_iff hk hj]
    by_cases hv : vecOf k = v
    · subst hv
      tauto
    · simp [hv]
  · have hne : k ≠ 64 * v.val + j := by omega
    simp [hk, hne]

/-- The slots of block size `b`: `nblocks` in the constructor. -/
def nblocks (b : ℕ) : ℕ := payloadSize / b

theorem payloadSize_eq : payloadSize = 32768 := rfl

/-- The block sizes a slab is built for: at least 8 bytes, at most the payload. -/
def ValidBlockSize (b : ℕ) : Prop := 8 ≤ b ∧ b ≤ payloadSize

instance : DecidablePred ValidBlockSize := fun b =>
  inferInstanceAs (Decidable (8 ≤ b ∧ b ≤ payloadSize))

theorem nblocks_bounds {b : ℕ} (hb : ValidBlockSize b) : 1 ≤ nblocks b ∧ nblocks b ≤ 4096 := by
  obtain ⟨h8, hp⟩ := hb
  rw [payloadSize_eq] at hp
  unfold nblocks
  rw [payloadSize_eq]
  exact ⟨(Nat.le_div_iff_mul_le (by omega)).mpr (by omega),
    (Nat.div_le_iff_le_mul_add_pred (by omega)).mpr (by omega)⟩

/-! ## The invariant -/

/-- The representation invariant of `obj_slab`. -/
structure Rep (s : ObjSlab) : Prop where
  available_lt : ∀ k ∈ slotsOf s.availableSlots, k < nblocks s.blockSize
  freed_lt : ∀ k ∈ slotsOf s.freedSlots, k < nblocks s.blockSize
  available_vecs : ∀ v : Fin 64, s.availableSlots v ≠ 0#64 → v.val ∈ s.availableVecs.bitset
  freed_vecs : ∀ v : Fin 64, v.val ∈ s.freedVecs.bitset ↔ s.freedSlots v ≠ 0#64
  disjoint : Disjoint (slotsOf s.availableSlots) (slotsOf s.freedSlots)

/-! ## The constructor -/

section Constructor

variable (mem : ObjSlab) {b : ℕ}

theorem objSlab_word_bitset (hb : ValidBlockSize b) (hmem : ∀ v, mem.availableSlots v = 0#64)
    (i : Fin 64) :
    ((objSlab mem b).availableSlots i).bitset =
      (Finset.range 64).filter (fun j => 64 * i.val + j < nblocks b) := by
  have hn := nblocks_bounds hb
  simp only [objSlab]
  change (if i.val + 1 < (nblocks b + 63) / 64 then BitVec.allOnes 64
      else if i.val + 1 = (nblocks b + 63) / 64 then
        (if nblocks b % 64 ≠ 0 then (1#64 <<< (nblocks b % 64)) - 1#64 else BitVec.allOnes 64)
      else mem.availableSlots i).bitset = _
  generalize nblocks b = n at hn ⊢
  have hi := i.isLt
  ext j
  simp only [Finset.mem_filter, Finset.mem_range]
  split_ifs with h1 h2 h3
  · simp only [BitVec.bitset_allOnes, Finset.mem_range]
    omega
  · rw [show 1#64 <<< (n % 64) = BitVec.twoPow 64 (n % 64) from rfl,
      BitVec.bitset_twoPow_sub_one (by omega), Finset.mem_range]
    omega
  · simp only [BitVec.bitset_allOnes, Finset.mem_range]
    omega
  · simp only [hmem, BitVec.bitset_zero, Finset.notMem_empty, false_iff, not_and]
    omega

theorem slotsOf_objSlab (hb : ValidBlockSize b) (hmem : ∀ v, mem.availableSlots v = 0#64) :
    slotsOf (objSlab mem b).availableSlots = Finset.range (nblocks b) := by
  have hn := nblocks_bounds hb
  ext k
  rw [mem_slotsOf, objSlab_word_bitset mem hb hmem, Finset.mem_filter, Finset.mem_range,
    Finset.mem_range]
  constructor
  · rintro ⟨hk, -, hlt⟩
    rw [vecOf_val hk] at hlt
    omega
  · intro hk
    have hk' : k < 4096 := by omega
    rw [vecOf_val hk']
    omega

theorem objSlab_availableVecs_bitset (hb : ValidBlockSize b) :
    (objSlab mem b).availableVecs.bitset = Finset.range ((nblocks b + 63) / 64) := by
  have hn := nblocks_bounds hb
  simp only [objSlab]
  change ((if (nblocks b + 63) / 64 ≥ 64 then 0#64 else 1#64 <<< ((nblocks b + 63) / 64)) -
    1#64).bitset = _
  generalize nblocks b = n at hn ⊢
  split_ifs with h
  · rw [show 0#64 - 1#64 = BitVec.allOnes 64 by decide, BitVec.bitset_allOnes]
    congr 1
    omega
  · rw [show 1#64 <<< ((n + 63) / 64) = BitVec.twoPow 64 ((n + 63) / 64) from rfl,
      BitVec.bitset_twoPow_sub_one (by omega)]

theorem rep_objSlab_zeroed (hb : ValidBlockSize b) : Rep (objSlab zeroed b) := by
  have hn := nblocks_bounds hb
  have hset := slotsOf_objSlab zeroed hb (fun _ => rfl)
  have hfreed : slotsOf (objSlab zeroed b).freedSlots = ∅ :=
    slotsOf_eq_empty_iff.mpr fun _ => rfl
  refine ⟨?_, ?_, ?_, ?_, ?_⟩
  · intro k hk
    rw [hset, Finset.mem_range] at hk
    exact hk
  · intro k hk
    rw [hfreed] at hk
    exact absurd hk (Finset.notMem_empty k)
  · intro v hv
    obtain ⟨j, hj⟩ := BitVec.bitset_nonempty hv
    rw [objSlab_word_bitset zeroed hb (fun _ => rfl), Finset.mem_filter, Finset.mem_range] at hj
    rw [objSlab_availableVecs_bitset zeroed hb, Finset.mem_range]
    omega
  · intro v
    change v.val ∈ (0#64).bitset ↔ (0#64 : BitVec 64) ≠ 0#64
    simp
  · rw [hfreed]
    exact Finset.disjoint_empty_right _

end Constructor

/-! ## Releasing the freed slots -/

/-- The release loop visits each word of `indexIterator` once, moving its freed bits to the
available word and clearing them from the freed word. -/
theorem releaseLoop_spec (s : ObjSlab) (it : BitVec 64) :
    s.releaseLoop it =
      { s with
        availableSlots := fun u => if u.val ∈ it.bitset then s.freedSlots u else s.availableSlots u
        freedSlots := fun u =>
          if u.val ∈ it.bitset then s.freedSlots u &&& ~~~s.freedSlots u else s.freedSlots u } := by
  induction s, it using releaseLoop.induct with
  | case1 s =>
    rw [releaseLoop]
    simp
  | case2 s it hx idx rs ih =>
    rw [releaseLoop, dif_neg hx]
    simp only [idx, rs, word_tzcnt hx] at ih ⊢
    rw [ih]
    congr 1
    · funext u
      by_cases hu : u = ⟨it.ctz.toNat, tzcnt_toNat_lt hx⟩
      · subst hu
        simp [BitVec.bitset_blsr, BitVec.ctz_mem_bitset hx]
      · have hu' : u.val ≠ it.ctz.toNat := fun h => hu (Fin.ext h)
        simp [BitVec.bitset_blsr, hu, hu']
    · funext u
      by_cases hu : u = ⟨it.ctz.toNat, tzcnt_toNat_lt hx⟩
      · subst hu
        simp [BitVec.bitset_blsr, BitVec.ctz_mem_bitset hx]
      · have hu' : u.val ≠ it.ctz.toNat := fun h => hu (Fin.ext h)
        simp [BitVec.bitset_blsr, hu, hu']

theorem availableSlots_eq_zero {s : ObjSlab} (hr : Rep s) (hfull : s.availableVecs = 0#64)
    (v : Fin 64) : s.availableSlots v = 0#64 := by
  by_contra hv
  have hmem := hr.available_vecs v hv
  simp [hfull] at hmem

section TryRelease

variable {s : ObjSlab}

theorem tryRelease_of_freedVecs_eq_zero (h : s.freedVecs = 0#64) :
    s.tryRelease = ({ s with state := UNOWNED }, 1) := by
  simp [tryRelease, h]

theorem tryRelease_of_freedVecs_ne_zero (hr : Rep s) (hfull : s.availableVecs = 0#64)
    (h : s.freedVecs ≠ 0#64) :
    s.tryRelease =
      ({ s with
          availableVecs := s.freedVecs
          availableSlots := s.freedSlots
          freedVecs := 0#64
          freedSlots := fun _ => 0#64 }, 0) := by
  -- a word outside the snapshot of `freed_vecs` is empty in both bitmaps
  have hout : ∀ u : Fin 64, u.val ∉ s.freedVecs.bitset →
      s.freedSlots u = 0#64 ∧ s.availableSlots u = 0#64 := fun u hu =>
    ⟨not_not.mp (mt (hr.freed_vecs u).mpr hu), availableSlots_eq_zero hr hfull u⟩
  have hav : (fun u : Fin 64 =>
      if u.val ∈ s.freedVecs.bitset then s.freedSlots u else s.availableSlots u) = s.freedSlots := by
    funext u
    by_cases hu : u.val ∈ s.freedVecs.bitset
    · simp [hu]
    · simp [hu, (hout u hu).1, (hout u hu).2]
  have hfr : (fun u : Fin 64 => if u.val ∈ s.freedVecs.bitset then (0 : BitVec 64)
      else s.freedSlots u) = fun _ => 0#64 := by
    funext u
    by_cases hu : u.val ∈ s.freedVecs.bitset
    · simp [hu]
    · simp [hu, (hout u hu).1]
  simp only [tryRelease, h, if_false, releaseLoop_spec, hav, hfr, BitVec.and_not_self]
  rfl

end TryRelease

/-! ## Freeing a block -/

section Free

variable (s : ObjSlab) (a : ℕ)

@[simp] theorem free_availableSlots : (s.free a).1.availableSlots = s.availableSlots := by
  simp only [free]
  split <;> rfl

@[simp] theorem free_availableVecs : (s.free a).1.availableVecs = s.availableVecs := by
  simp only [free]
  split <;> rfl

@[simp] theorem free_blockSize : (s.free a).1.blockSize = s.blockSize := by
  simp only [free]
  split <;> rfl

@[simp] theorem free_next : (s.free a).1.next = s.next := by
  simp only [free]
  split <;> rfl

@[simp] theorem free_state : (s.free a).1.state = s.state := by
  simp only [free]
  split <;> rfl

/-- `_free` of block `k` sets bit `k % 64` of freed word `k / 64`; the first free in the word
also sets bit `k / 64` of `freed_vecs` and reports whether the slab is `UNOWNED`. -/
theorem free_block {k : ℕ} (hb : 0 < s.blockSize) :
    s.free (payloadOffset + s.blockSize * k) =
      if s.freedSlots (vecOf k) ≠ 0#64 then
        ({ s with
            freedSlots := Function.update s.freedSlots (vecOf k)
              (s.freedSlots (vecOf k) ||| 1#64 <<< (k % 64)) }, 0)
      else
        ({ s with
            freedSlots := Function.update s.freedSlots (vecOf k)
              (s.freedSlots (vecOf k) ||| 1#64 <<< (k % 64))
            freedVecs := s.freedVecs ||| 1#64 <<< (k / 64) },
          if s.state = UNOWNED then 1 else 0) := by
  have hpos : (payloadOffset + s.blockSize * k - payloadOffset) / s.blockSize = k := by
    rw [Nat.add_sub_cancel_left, Nat.mul_div_cancel_left k hb]
  have hslot : k &&& (vecSize - 1) = k % 64 := Nat.and_two_pow_sub_one_eq_mod k 6
  simp only [free, hpos, hslot, numVecs, vecOf]
  rfl

theorem free_snd_of_owned (h : s.state = OWNED) : (s.free a).2 = 0 := by
  have hne : OWNED ≠ UNOWNED := by decide
  simp only [free]
  split
  · rfl
  · simp only [h, hne, if_false]

theorem free_snd_of_unowned {k : ℕ} (hb : 0 < s.blockSize) (h : s.state = UNOWNED)
    (hF : slotsOf s.freedSlots = ∅) : (s.free (payloadOffset + s.blockSize * k)).2 = 1 := by
  rw [free_block s hb, if_neg (not_not.mpr (slotsOf_eq_empty_iff.mp hF _))]
  simp only [h, if_true]

theorem slotsOf_free_freedSlots {k : ℕ} (hb : 0 < s.blockSize) (hk : k < 4096) :
    slotsOf (s.free (payloadOffset + s.blockSize * k)).1.freedSlots =
      insert k (slotsOf s.freedSlots) := by
  have hslot : 64 * (vecOf k).val + k % 64 = k := by
    rw [vecOf_val hk]
    omega
  have hor := slotsOf_update_or s.freedSlots (vecOf k) (Nat.mod_lt k (by norm_num))
  rw [hslot] at hor
  rw [free_block s hb]
  split_ifs <;> exact hor

/-- `_free` keeps `freed_vecs` summarising exactly the nonempty freed words: the word of the
block is nonempty afterwards, and its summary bit is either set already or set now. -/
theorem freedVecs_free {k : ℕ} (hb : 0 < s.blockSize) (hk : k < 4096)
    (hvecs : ∀ v : Fin 64, v.val ∈ s.freedVecs.bitset ↔ s.freedSlots v ≠ 0#64) (v : Fin 64) :
    v.val ∈ (s.free (payloadOffset + s.blockSize * k)).1.freedVecs.bitset ↔
      (s.free (payloadOffset + s.blockSize * k)).1.freedSlots v ≠ 0#64 := by
  have hvk : (vecOf k).val = k / 64 := vecOf_val hk
  have hbit : s.freedSlots (vecOf k) ||| 1#64 <<< (k % 64) ≠ 0#64 := by
    intro h0
    have hmem : k % 64 ∈ (s.freedSlots (vecOf k) ||| 1#64 <<< (k % 64)).bitset := by
      rw [BitVec.bitset_or, BitVec.bitset_one_shiftLeft, if_pos (Nat.mod_lt k (by norm_num))]
      simp
    rw [h0, BitVec.bitset_zero] at hmem
    exact Finset.notMem_empty _ hmem
  have hvecbit : (1#64 <<< (k / 64)).bitset = {k / 64} := by
    rw [BitVec.bitset_one_shiftLeft, if_pos (by omega)]
  rw [free_block s hb]
  by_cases hv : v = vecOf k
  · subst hv
    by_cases hw : s.freedSlots (vecOf k) = 0#64
    · simpa [hw, hvecbit, hvk] using hbit
    · simpa [hw, hbit] using (hvecs _).mpr hw
  · have hv' : v.val ≠ k / 64 := fun e => hv (Fin.ext (e.trans hvk.symm))
    by_cases hw : s.freedSlots (vecOf k) = 0#64 <;>
      simp [hw, Function.update_of_ne hv, hvecbit, hv', hvecs v]

end Free

/-! ## Every operation keeps the invariant -/

section Preservation

variable {s : ObjSlab}

theorem rep_allocate_full (hr : Rep s)
    (hempty : ∀ v : Fin 64, v.val ∈ s.availableVecs.bitset → s.availableSlots v = 0#64) :
    Rep { s with availableVecs := 0#64 } where
  available_lt := hr.available_lt
  freed_lt := hr.freed_lt
  available_vecs v hv := absurd (hempty v (hr.available_vecs v hv)) hv
  freed_vecs := hr.freed_vecs
  disjoint := hr.disjoint

theorem rep_allocate_take (hr : Rep s) {v : Fin 64} (hw : s.availableSlots v ≠ 0#64)
    (hbelow : ∀ u : Fin 64, u.val ∈ s.availableVecs.bitset → u < v → s.availableSlots u = 0#64)
    {av : BitVec 64} (hav : av.bitset = s.availableVecs.bitset.filter (v.val ≤ ·)) :
    Rep { s with
      availableVecs := av
      availableSlots := Function.update s.availableSlots v (BitVec.blsr (s.availableSlots v)) } where
  available_lt k hk := by
    rw [slotsOf_update_blsr _ hw] at hk
    exact hr.available_lt k (Finset.mem_of_mem_erase hk)
  freed_lt := hr.freed_lt
  available_vecs u hu := by
    rw [hav, Finset.mem_filter]
    by_cases huv : u = v
    · subst huv
      exact ⟨hr.available_vecs u hw, le_rfl⟩
    · dsimp only at hu
      rw [Function.update_of_ne huv] at hu
      have hmem := hr.available_vecs u hu
      have hnlt : ¬u < v := fun hlt => hu (hbelow u hmem hlt)
      exact ⟨hmem, Fin.le_iff_val_le_val.mp (not_lt.mp hnlt)⟩
  freed_vecs := hr.freed_vecs
  disjoint := by
    rw [slotsOf_update_blsr _ hw]
    exact Finset.disjoint_of_subset_left (Finset.erase_subset _ _) hr.disjoint

theorem rep_free (hr : Rep s) (hb : ValidBlockSize s.blockSize) {k : ℕ}
    (hk : k < nblocks s.blockSize) (hka : k ∉ slotsOf s.availableSlots) :
    Rep (s.free (payloadOffset + s.blockSize * k)).1 := by
  have hb0 : 0 < s.blockSize := by
    unfold ValidBlockSize at hb
    omega
  have hk4 : k < 4096 := lt_of_lt_of_le hk (nblocks_bounds hb).2
  have hfreed := slotsOf_free_freedSlots s hb0 hk4
  refine ⟨?_, ?_, ?_, freedVecs_free s hb0 hk4 hr.freed_vecs, ?_⟩
  · simpa using hr.available_lt
  · intro j hj
    rw [hfreed, Finset.mem_insert] at hj
    rw [free_blockSize]
    rcases hj with rfl | hj
    · exact hk
    · exact hr.freed_lt j hj
  · simpa using hr.available_vecs
  · rw [hfreed, free_availableSlots]
    exact Finset.disjoint_insert_right.mpr ⟨hka, hr.disjoint⟩

theorem freedVecs_eq_zero_iff (hr : Rep s) : s.freedVecs = 0#64 ↔ slotsOf s.freedSlots = ∅ := by
  rw [slotsOf_eq_empty_iff, ← BitVec.bitset_eq_empty_iff]
  constructor
  · intro h v
    by_contra hv
    have hmem := (hr.freed_vecs v).mpr hv
    rw [h] at hmem
    exact Finset.notMem_empty _ hmem
  · intro h
    apply Finset.eq_empty_of_forall_notMem
    intro i hi
    have hv := (hr.freed_vecs ⟨i, BitVec.lt_of_mem_bitset hi⟩).mp hi
    exact hv (h _)

theorem rep_tryRelease (hr : Rep s) (hfull : s.availableVecs = 0#64) : Rep s.tryRelease.1 := by
  by_cases h : s.freedVecs = 0#64
  · rw [tryRelease_of_freedVecs_eq_zero h]
    exact ⟨hr.available_lt, hr.freed_lt, hr.available_vecs, hr.freed_vecs, hr.disjoint⟩
  · rw [tryRelease_of_freedVecs_ne_zero hr hfull h]
    have hempty : slotsOf (fun _ : Fin 64 => 0#64) = ∅ := slotsOf_eq_empty_iff.mpr fun _ => rfl
    refine ⟨hr.freed_lt, ?_, fun v hv => (hr.freed_vecs v).mpr hv, ?_, ?_⟩
    · simp [hempty]
    · simp
    · rw [hempty]
      exact Finset.disjoint_empty_right _

/-- What `_try_release` does to a full slab's slot sets: with nothing freed it only marks the
slab `UNOWNED`; otherwise every freed slot becomes available and none stays freed. -/
theorem tryRelease_slots (hr : Rep s) (hfull : s.availableVecs = 0#64) :
    slotsOf s.availableSlots = ∅ ∧
    (slotsOf s.freedSlots = ∅ → s.tryRelease = ({ s with state := UNOWNED }, 1)) ∧
    (slotsOf s.freedSlots ≠ ∅ → s.tryRelease.2 = 0 ∧
      slotsOf s.tryRelease.1.availableSlots = slotsOf s.freedSlots ∧
      slotsOf s.tryRelease.1.freedSlots = ∅) := by
  refine ⟨slotsOf_eq_empty_iff.mpr (availableSlots_eq_zero hr hfull), fun hF => ?_, fun hF => ?_⟩
  · exact tryRelease_of_freedVecs_eq_zero ((freedVecs_eq_zero_iff hr).mpr hF)
  · rw [tryRelease_of_freedVecs_ne_zero hr hfull (mt (freedVecs_eq_zero_iff hr).mp hF)]
    exact ⟨rfl, rfl, slotsOf_eq_empty_iff.mpr fun _ => rfl⟩

@[simp] theorem tryRelease_blockSize : s.tryRelease.1.blockSize = s.blockSize := by
  simp only [tryRelease]
  split <;> simp [releaseLoop_spec]

theorem rep_setOwned (hr : Rep s) : Rep s.setOwned.1 :=
  ⟨hr.available_lt, hr.freed_lt, hr.available_vecs, hr.freed_vecs, hr.disjoint⟩

theorem setOwned_of_unowned (h : s.state = UNOWNED) : s.setOwned = ({ s with state := OWNED }, 1) := by
  simp only [setOwned, h]
  rfl

end Preservation

end ObjSlab

end NCMalloc
