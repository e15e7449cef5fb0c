import NCMalloc.Allocator.View
import NCMalloc.Lib.LinkedList
import NCMalloc.Lib.ListFamily
import NCMalloc.Allocator.SlabRun

/-!
# The accounting invariant of the object allocator

An invariant of the allocator's view, given the slabs of each available list as a ghost family
of lists `L` and the pointers handed out and not yet freed as the ghost set `live`:

* each slab manager's list is a null-terminated chain from its head to its tail, of slabs of
  its class owned by the list, and no slab is on two lists or twice on one;
* a carved slab on no list is `UNOWNED` with nothing available and nothing freed;
* each free cache holds at most `cache_size` blocks of its class, none twice;
* every block of every carved slab is in exactly one place: available, freed, live, or cached.

The transitions of the allocator on the view each keep it: taking a pointer from a cache,
pushing one, carving a slab, taking a block from the head slab, dropping or rotating a full
head, and freeing a block back into its slab, which may send the slab to a list.
-/

namespace NCMalloc

open ObjSlab LinkedList ListFamily

/-! ## Blocks -/

/-- The block size of class `i`. -/
def classSize (i : ℕ) : ℕ := (idxToSize (BitVec.ofNat 32 i)).toNat

/-- Block `k` of the slab at `s` with block size `b`. -/
def blockAddr (s b k : ℕ) : ℕ := s + payloadOffset + b * k

theorem classSize_valid {i : ℕ} (hi : i < numSizeClasses) : ValidBlockSize (classSize i) := by
  obtain ⟨h8, h144⟩ := idxToSize_bounds ⟨i, hi⟩
  exact ⟨h8, h144.trans (by decide)⟩

theorem blockAddr_add_le {s b k : ℕ} (hk : k < nblocks b) :
    blockAddr s b k + b ≤ s + payloadOffset + payloadSize := by
  have hmul : b * (k + 1) ≤ payloadSize := by
    have hk' : k + 1 ≤ payloadSize / b := hk
    calc b * (k + 1) ≤ b * (payloadSize / b) := Nat.mul_le_mul_left b hk'
      _ ≤ payloadSize := Nat.mul_div_le payloadSize b
  unfold blockAddr
  rw [Nat.mul_succ] at hmul
  omega

theorem addrToSlab_blockAddr {s b k : ℕ} (hs : s % sizeofObjSlab = 0) (hk : k < nblocks b) :
    addrToSlab (blockAddr s b k) = s := by
  have hle := blockAddr_add_le (s := s) hk
  have hpay : payloadOffset + payloadSize ≤ sizeofObjSlab := by decide
  have hb : 0 < b := Nat.pos_of_ne_zero (by rintro rfl; simp [nblocks] at hk)
  obtain ⟨q, rfl⟩ : sizeofObjSlab ∣ s := Nat.dvd_of_mod_eq_zero hs
  have hr : payloadOffset + b * k < sizeofObjSlab := by
    unfold blockAddr at hle
    omega
  have hsplit : blockAddr (sizeofObjSlab * q) b k = payloadOffset + b * k + sizeofObjSlab * q := by
    unfold blockAddr
    omega
  unfold addrToSlab
  rw [hsplit, Nat.add_mul_div_left _ _ (by decide), Nat.div_eq_of_lt hr, Nat.zero_add]

theorem blockAddr_slab_eq {s s' b b' k k' : ℕ} (hs : s % sizeofObjSlab = 0)
    (hs' : s' % sizeofObjSlab = 0) (hk : k < nblocks b) (hk' : k' < nblocks b')
    (h : blockAddr s b k = blockAddr s' b' k') : s = s' := by
  rw [← addrToSlab_blockAddr hs hk, ← addrToSlab_blockAddr hs' hk', h]

theorem blockAddr_slot_eq {s b k k' : ℕ} (hb : 0 < b) (h : blockAddr s b k = blockAddr s b k') :
    k = k' := by
  unfold blockAddr at h
  exact Nat.eq_of_mul_eq_mul_left hb (by omega)

/-! ## What the invariant reads of a view -/

namespace View

variable (A : Region) (v : View)

/-- `s` is a slab the bump allocator handed out. -/
def Carved (s : ℕ) : Prop := s % sizeofObjSlab = 0 ∧ A.start ≤ s ∧ s < v.currentSlab

/-- The `next` pointers of the slabs. -/
def nextOf (s : ℕ) : ℕ := (v.slabs s).next

/-- The available slots of the slab at `s`. -/
def avail (s : ℕ) : Finset ℕ := slotsOf (v.slabs s).availableSlots

/-- The freed slots of the slab at `s`. -/
def freed (s : ℕ) : Finset ℕ := slotsOf (v.slabs s).freedSlots

/-- Block `k` of the slab at `s`. -/
def block (s k : ℕ) : ℕ := blockAddr s (v.slabs s).blockSize k

/-- `p` is a block of a carved slab of class `i`. -/
def BlockOf (i p : ℕ) : Prop :=
  ∃ s k, v.Carved A s ∧ (v.slabs s).blockSize = classSize i ∧ k < nblocks (classSize i) ∧
    p = blockAddr s (classSize i) k

end View

/-! ## The invariant -/

/-- The accounting invariant of a view, given its available lists `L` and its live pointers. -/
structure Inv (A : Region) (v : View) (L : ℕ × ℕ → List ℕ) (live : Finset ℕ) : Prop where
  start_le : A.start ≤ v.currentSlab
  current_le : v.currentSlab ≤ A.regionEnd
  current_mod : v.currentSlab % sizeofObjSlab = 0
  fresh : ∀ s, ¬v.Carved A s → v.slabs s = zeroed
  rep : ∀ s, v.Carved A s → Rep (v.slabs s)
  sized : ∀ s, v.Carved A s → ∃ i < numSizeClasses, (v.slabs s).blockSize = classSize i
  -- the available lists
  chain : ∀ ic, Chain v.nextOf 0 (v.heads ic) (L ic)
  tail : ∀ ic t, (L ic).getLast? = some t → v.tails ic = t
  lists_distinct : Distinct L
  listed : ∀ ic s, s ∈ L ic →
    InRange ic ∧ v.Carved A s ∧ (v.slabs s).blockSize = classSize ic.1 ∧ (v.slabs s).state = OWNED
  unlisted : ∀ s, v.Carved A s → ¬ListFamily.Mem L s →
    (v.slabs s).state = UNOWNED ∧ v.avail s = ∅ ∧ v.freed s = ∅
  -- the free caches
  cache_bound : ∀ ic, (v.caches ic).length ≤ cacheSize
  cached_block : ∀ ic p, p ∈ v.caches ic → InRange ic ∧ v.BlockOf A ic.1 p
  cached_distinct : Distinct v.caches
  -- every block in exactly one place
  live_block : ∀ p ∈ live, ∃ i < numSizeClasses, v.BlockOf A i p
  live_cached : ∀ p ∈ live, ¬ListFamily.Mem v.caches p
  available_free : ∀ s, v.Carved A s → ∀ k ∈ v.avail s,
    v.block s k ∉ live ∧ ¬ListFamily.Mem v.caches (v.block s k)
  freed_free : ∀ s, v.Carved A s → ∀ k ∈ v.freed s,
    v.block s k ∉ live ∧ ¬ListFamily.Mem v.caches (v.block s k)
  cover : ∀ s, v.Carved A s → ∀ k < nblocks (v.slabs s).blockSize,
    k ∈ v.avail s ∨ k ∈ v.freed s ∨ v.block s k ∈ live ∨ ListFamily.Mem v.caches (v.block s k)

/-! ## A fresh allocator -/

section Init

variable (A : Region)

theorem view_init :
    (Heap.init A).view A = ⟨fun _ => zeroed, A.start, fun _ => 0, fun _ => 0, fun _ => []⟩ := by
  ext1
  · rfl
  · rfl
  all_goals funext ic
  all_goals simp [Heap.view, Heap.init, FreeCache.currentIdx, BoundedStack.cellsList]

theorem inv_init : Inv A ((Heap.init A).view A) (fun _ => []) ∅ := by
  rw [view_init]
  have hnone : ∀ s, ¬View.Carved A ⟨fun _ => zeroed, A.start, fun _ => 0, fun _ => 0, fun _ => []⟩ s :=
    fun s hs => absurd hs.2.2 (not_lt.mpr hs.2.1)
  refine
    { start_le := le_rfl
      current_le := A.start_le_end
      current_mod := A.start_mod
      fresh := fun _ _ => rfl
      rep := fun s hs => absurd hs (hnone s)
      sized := fun s hs => absurd hs (hnone s)
      chain := fun _ => Chain.nil
      tail := fun _ t ht => by simp at ht
      lists_distinct := ⟨fun _ => List.nodup_nil, fun _ _ _ => List.disjoint_nil_left _⟩
      listed := fun _ _ hs => by simp at hs
      unlisted := fun s hs => absurd hs (hnone s)
      cache_bound := fun _ => Nat.zero_le _
      cached_block := fun _ _ hp => by simp at hp
      cached_distinct := ⟨fun _ => List.nodup_nil, fun _ _ _ => List.disjoint_nil_left _⟩
      live_block := fun _ hp => by simp at hp
      live_cached := fun _ hp => by simp at hp
      available_free := fun s hs => absurd hs (hnone s)
      freed_free := fun s hs => absurd hs (hnone s)
      cover := fun s hs => absurd hs (hnone s) }

end Init

/-! ## Taking from and giving to a free cache -/

section Caches

variable {A : Region} {v : View} {L : ℕ × ℕ → List ℕ} {live : Finset ℕ}

theorem Inv.pop (hI : Inv A v L live) {ic : ℕ × ℕ} {l : List ℕ} {p : ℕ}
    (hc : v.caches ic = l ++ [p]) :
    Inv A { v with caches := Function.update v.caches ic l } L (insert p live) := by
  have hmem : ∀ x, x ∈ v.caches ic ↔ x = p ∨ x ∈ l := by
    intro x
    rw [hc, List.mem_append, List.mem_singleton, or_comm]
  have hp : p ∈ v.caches ic := (hmem p).mpr (Or.inl rfl)
  have hpl : p ∉ l := by
    have hnd := hI.cached_distinct.nodup ic
    rw [hc, List.nodup_append_comm] at hnd
    exact (List.nodup_cons.mp hnd).1
  have hsub : ∀ ic', (Function.update v.caches ic l ic').Sublist (v.caches ic') := by
    intro ic'
    by_cases hic : ic' = ic
    · subst hic
      rw [Function.update_self, hc]
      exact List.sublist_append_left _ _
    · rw [Function.update_of_ne hic]
  have hcached : ∀ q, ListFamily.Mem v.caches q ↔
      ListFamily.Mem (Function.update v.caches ic l) q ∨ q = p := fun q => mem_update_iff hmem
  have hgone : ¬ListFamily.Mem (Function.update v.caches ic l) p :=
    hI.cached_distinct.not_mem_update hp hpl
  have hne : ∀ q, ¬ListFamily.Mem v.caches q → q ≠ p := fun q hq hqp => hq ⟨ic, hqp ▸ hp⟩
  refine
    { hI with
      cache_bound := fun ic' => (hsub ic').length_le.trans (hI.cache_bound ic')
      cached_block := fun ic' q hq => hI.cached_block ic' q ((hsub ic').subset hq)
      cached_distinct := hI.cached_distinct.update_sublist (by rw [hc]; exact List.sublist_append_left _ _)
      live_block := ?_
      live_cached := ?_
      available_free := ?_
      freed_free := ?_
      cover := ?_ }
  · intro q hq
    rcases Finset.mem_insert.mp hq with rfl | hq
    · obtain ⟨hic, hblock⟩ := hI.cached_block ic q hp
      exact ⟨ic.1, hic.1, hblock⟩
    · exact hI.live_block q hq
  · intro q hq
    rcases Finset.mem_insert.mp hq with rfl | hq
    · exact hgone
    · exact fun hq' => hI.live_cached q hq ((hcached q).mpr (Or.inl hq'))
  · intro s hs k hk
    obtain ⟨hlive, hcache⟩ := hI.available_free s hs k hk
    refine ⟨fun h => ?_, fun h => hcache ((hcached _).mpr (Or.inl h))⟩
    rcases Finset.mem_insert.mp h with h | h
    · exact hne _ hcache h
    · exact hlive h
  · intro s hs k hk
    obtain ⟨hlive, hcache⟩ := hI.freed_free s hs k hk
    refine ⟨fun h => ?_, fun h => hcache ((hcached _).mpr (Or.inl h))⟩
    rcases Finset.mem_insert.mp h with h | h
    · exact hne _ hcache h
    · exact hlive h
  · intro s hs k hk
    rcases hI.cover s hs k hk with h | h | h | h
    · exact Or.inl h
    · exact Or.inr (Or.inl h)
    · exact Or.inr (Or.inr (Or.inl (Finset.mem_insert_of_mem h)))
    · rcases (hcached _).mp h with h | h
      · exact Or.inr (Or.inr (Or.inr h))
      · exact Or.inr (Or.inr (Or.inl (h ▸ Finset.mem_insert_self p live)))

theorem Inv.push (hI : Inv A v L live) {ic : ℕ × ℕ} {p : ℕ} (hp : p ∈ live) (hic : InRange ic)
    (hblock : v.BlockOf A ic.1 p) (hroom : (v.caches ic).length < cacheSize) :
    Inv A { v with caches := Function.update v.caches ic (v.caches ic ++ [p]) } L (live.erase p) := by
  have hpc := hI.live_cached p hp
  have hcached : ∀ q, ListFamily.Mem (Function.update v.caches ic (v.caches ic ++ [p])) q ↔
      ListFamily.Mem v.caches q ∨ q = p := fun q => mem_update_append
  have hne : ∀ q, q ∉ live → q ≠ p := fun q hq hqp => hq (hqp ▸ hp)
  refine
    { hI with
      cache_bound := ?_
      cached_block := ?_
      cached_distinct := hI.cached_distinct.update_append hpc
      live_block := fun q hq => hI.live_block q (Finset.mem_of_mem_erase hq)
      live_cached := ?_
      available_free := ?_
      freed_free := ?_
      cover := ?_ }
  · intro ic'
    dsimp only
    by_cases hic' : ic' = ic
    · subst hic'
      rw [Function.update_self, List.length_append, List.length_singleton]
      exact hroom
    · rw [Function.update_of_ne hic']
      exact hI.cache_bound ic'
  · intro ic' q hq
    dsimp only at hq
    by_cases hic' : ic' = ic
    · subst hic'
      rw [Function.update_self, List.mem_append, List.mem_singleton] at hq
      rcases hq with hq | rfl
      · exact hI.cached_block ic' q hq
      · exact ⟨hic, hblock⟩
    · rw [Function.update_of_ne hic'] at hq
      exact hI.cached_block ic' q hq
  · intro q hq
    obtain ⟨hqp, hq⟩ := Finset.mem_erase.mp hq
    rw [hcached]
    rintro (h | h)
    · exact hI.live_cached q hq h
    · exact hqp h
  · intro s hs k hk
    obtain ⟨hlive, hcache⟩ := hI.available_free s hs k hk
    refine ⟨fun h => hlive (Finset.mem_of_mem_erase h), ?_⟩
    rw [hcached]
    rintro (h | h)
    · exact hcache h
    · exact hne _ hlive h
  · intro s hs k hk
    obtain ⟨hlive, hcache⟩ := hI.freed_free s hs k hk
    refine ⟨fun h => hlive (Finset.mem_of_mem_erase h), ?_⟩
    rw [hcached]
    rintro (h | h)
    · exact hcache h
    · exact hne _ hlive h
  · intro s hs k hk
    rcases hI.cover s hs k hk with h | h | h | h
    · exact Or.inl h
    · exact Or.inr (Or.inl h)
    · -- the pushed block moves to the cache
      by_cases hkp : v.block s k = p
      · exact Or.inr (Or.inr (Or.inr ((hcached _).mpr (Or.inr hkp))))
      · exact Or.inr (Or.inr (Or.inl (Finset.mem_erase.mpr ⟨hkp, h⟩)))
    · exact Or.inr (Or.inr (Or.inr ((hcached _).mpr (Or.inl h))))

end Caches

/-! ## The slab operations under the representation invariant -/

namespace ObjSlab

variable {s : ObjSlab}

theorem allocate_of_avail_empty (hA : slotsOf s.availableSlots = ∅) (cpu : ℕ) :
    s.allocate cpu cpu = ({ s with availableVecs := 0#64 }, FULL) := by
  rcases allocate_cases s cpu with ⟨-, hres⟩ | ⟨v, -, hw, -⟩
  · exact hres
  · exact absurd (slotsOf_eq_empty_iff.mp hA v) hw

theorem allocate_of_avail_ne (hr : Rep s) (hA : slotsOf s.availableSlots ≠ ∅) (cpu : ℕ) :
    ∃ k ∈ slotsOf s.availableSlots, ∃ av : BitVec 64, ∃ slots : Fin 64 → BitVec 64,
      s.allocate cpu cpu =
        ({ s with availableVecs := av, availableSlots := slots }, BitVec.ofNat 64 k) ∧
      slotsOf slots = (slotsOf s.availableSlots).erase k ∧
      Rep { s with availableVecs := av, availableSlots := slots } := by
  rcases allocate_cases s cpu with ⟨hempty, -⟩ | ⟨v, -, hw, hbelow, av, hav, hres⟩
  · -- every summarised word is empty, and every nonempty word is summarised
    refine absurd (slotsOf_eq_empty_iff.mpr fun u => ?_) hA
    by_contra hu
    exact hu (hempty u (hr.available_vecs u hu))
  · exact ⟨_, slot_mem_slotsOf (BitVec.ctz_mem_bitset hw), av, _, hres, slotsOf_update_blsr _ hw,
      rep_allocate_take hr hw hbelow hav⟩

theorem rep_with_next_state (hr : Rep s) (n : ℕ) (st : BitVec 64) :
    Rep { s with next := n, state := st } :=
  ⟨hr.available_lt, hr.freed_lt, hr.available_vecs, hr.freed_vecs, hr.disjoint⟩

theorem slot_lt_successBound {f : Fin 64 → BitVec 64} {k : ℕ} (hk : k ∈ slotsOf f) :
    BitVec.ofNat 64 k < SUCCESS_BOUND := by
  have hk4 := (mem_slotsOf.mp hk).1
  rw [BitVec.lt_def, slot_toNat hk4, successBound_toNat]
  exact hk4

end ObjSlab

/-! ## Views after a slab changes -/

namespace View

variable {A : Region} {v : View} {s : ℕ} {x : ObjSlab}

variable {v' : View} (h : v'.slabs = Function.update v.slabs s x)
include h

theorem nextOf_of_slabs : v'.nextOf = Function.update v.nextOf s x.next := by
  funext s'
  by_cases hs : s' = s
  · subst hs
    simp [nextOf, h]
  · simp [nextOf, h, Function.update_of_ne hs]

theorem avail_of_slabs : v'.avail = Function.update v.avail s (slotsOf x.availableSlots) := by
  funext s'
  by_cases hs : s' = s
  · subst hs
    simp [avail, h]
  · simp [avail, h, Function.update_of_ne hs]

theorem freed_of_slabs : v'.freed = Function.update v.freed s (slotsOf x.freedSlots) := by
  funext s'
  by_cases hs : s' = s
  · subst hs
    simp [freed, h]
  · simp [freed, h, Function.update_of_ne hs]

theorem blockSize_of_slabs (hbs : x.blockSize = (v.slabs s).blockSize) (y : ℕ) :
    (v'.slabs y).blockSize = (v.slabs y).blockSize := by
  by_cases hy : y = s
  · subst hy
    rw [h, Function.update_self, hbs]
  · rw [h, Function.update_of_ne hy]

theorem state_of_slabs (hst : x.state = (v.slabs s).state) (y : ℕ) :
    (v'.slabs y).state = (v.slabs y).state := by
  by_cases hy : y = s
  · subst hy
    rw [h, Function.update_self, hst]
  · rw [h, Function.update_of_ne hy]

theorem block_of_slabs (hbs : x.blockSize = (v.slabs s).blockSize) : v'.block = v.block := by
  funext y k
  rw [block, block, blockSize_of_slabs h hbs y]

omit h in
theorem BlockOf.mono {v' : View} {i p : ℕ} (h : v.BlockOf A i p)
    (hc : ∀ s, v.Carved A s → v'.Carved A s ∧ (v'.slabs s).blockSize = (v.slabs s).blockSize) :
    v'.BlockOf A i p := by
  obtain ⟨s, k, hs, hbs, hk, rfl⟩ := h
  obtain ⟨hs', hbs'⟩ := hc s hs
  exact ⟨s, k, hs', hbs'.trans hbs, hk, rfl⟩

end View

section Blocks

variable {A : Region} {v : View} {L : ℕ × ℕ → List ℕ} {live : Finset ℕ}

theorem Region.start_pos (A : Region) : 0 < A.start := by
  have := A.layout_le_start
  rw [sizeofMemoryLayout_eq] at this
  omega

theorem View.Carved.ne_zero {s : ℕ} (hs : v.Carved A s) : s ≠ 0 :=
  (lt_of_lt_of_le A.start_pos hs.2.1).ne'

theorem Inv.blockSize_pos (hI : Inv A v L live) {s : ℕ} (hs : v.Carved A s) :
    0 < (v.slabs s).blockSize := by
  obtain ⟨i, hi, hbs⟩ := hI.sized s hs
  rw [hbs]
  exact lt_of_lt_of_le (by decide) (classSize_valid hi).1

theorem View.block_ne {s s' k k' : ℕ} (hs : v.Carved A s) (hs' : v.Carved A s')
    (hne : s ≠ s') (hk : k < nblocks (v.slabs s).blockSize) (hk' : k' < nblocks (v.slabs s').blockSize) :
    v.block s k ≠ v.block s' k' :=
  fun h => hne (blockAddr_slab_eq hs.1 hs'.1 hk hk' h)

theorem Inv.block_inj (hI : Inv A v L live) {s k k' : ℕ} (hs : v.Carved A s)
    (h : v.block s k = v.block s k') : k = k' :=
  blockAddr_slot_eq (hI.blockSize_pos hs) h

theorem Inv.block_eq_iff (hI : Inv A v L live) {s y k k' : ℕ} (hs : v.Carved A s)
    (hy : v.Carved A y) (hk : k < nblocks (v.slabs s).blockSize)
    (hk' : k' < nblocks (v.slabs y).blockSize) : v.block y k' = v.block s k ↔ y = s ∧ k' = k := by
  constructor
  · intro h
    by_cases hys : y = s
    · subst hys
      exact ⟨rfl, hI.block_inj hy h⟩
    · exact absurd h (View.block_ne hy hs hys hk' hk)
  · rintro ⟨rfl, rfl⟩
    rfl

theorem View.BlockOf.ne_block {i p n b k : ℕ} (h : v.BlockOf A i p) (hn : ¬v.Carved A n)
    (hn0 : n % sizeofObjSlab = 0) (hk : k < nblocks b) : p ≠ blockAddr n b k := by
  obtain ⟨s, k', hs, -, hk', rfl⟩ := h
  intro he
  exact hn (blockAddr_slab_eq hs.1 hn0 hk' hk he ▸ hs)

end Blocks

/-! ## Allocating from the head slab -/

section Take

variable {A : Region} {v : View} {L : ℕ × ℕ → List ℕ} {live : Finset ℕ}

theorem Inv.take (hI : Inv A v L live) {ic : ℕ × ℕ} {s : ℕ} {rest : List ℕ}
    (hL : L ic = s :: rest) {k : ℕ} (hk : k ∈ v.avail s) {av : BitVec 64}
    {slots : Fin 64 → BitVec 64} (hslots : slotsOf slots = (v.avail s).erase k)
    (hrep : Rep { v.slabs s with availableVecs := av, availableSlots := slots }) :
    Inv A
      { v with
        slabs := Function.update v.slabs s
          { v.slabs s with availableVecs := av, availableSlots := slots } }
      L (insert (blockAddr s (classSize ic.1) k) live) := by
  obtain ⟨-, hs, hbs, -⟩ := hI.listed ic s (by rw [hL]; exact List.mem_cons_self)
  set x : ObjSlab := { v.slabs s with availableVecs := av, availableSlots := slots } with hx
  set v' : View := { v with slabs := Function.update v.slabs s x } with hv'
  have hslabs : v'.slabs = Function.update v.slabs s x := rfl
  have hself : v'.slabs s = x := Function.update_self ..
  have hother : ∀ s', s' ≠ s → v'.slabs s' = v.slabs s' := fun s' h => Function.update_of_ne h _ _
  have hblock : v'.block = v.block := View.block_of_slabs rfl rfl
  have hnext : v'.nextOf = v.nextOf := by
    rw [View.nextOf_of_slabs rfl]
    exact Function.update_eq_self_iff.mpr rfl
  have hmono : ∀ s', v.Carved A s' →
      v'.Carved A s' ∧ (v'.slabs s').blockSize = (v.slabs s').blockSize := fun s' hs' =>
    ⟨hs', View.blockSize_of_slabs hslabs rfl s'⟩
  have hkn : k < nblocks (v.slabs s).blockSize := (hI.rep s hs).available_lt k hk
  obtain ⟨hpl, hpc⟩ := hI.available_free s hs k hk
  have hpne : ∀ s' k', v.Carved A s' → k' < nblocks (v.slabs s').blockSize →
      v.block s' k' = v.block s k → s' = s ∧ k' = k := by
    intro s' k' hs' hk' he
    by_cases h : s' = s
    · subst h
      exact ⟨rfl, hI.block_inj hs he⟩
    · exact absurd he (View.block_ne hs' hs h hk' hkn)
  have hfreed' : v'.freed = v.freed := by
    rw [View.freed_of_slabs hslabs]
    exact Function.update_eq_self_iff.mpr rfl
  have havail' : v'.avail = Function.update v.avail s ((v.avail s).erase k) := by
    rw [View.avail_of_slabs hslabs, hslots]
  have hp : blockAddr s (classSize ic.1) k = v.block s k := by rw [View.block, hbs]
  rw [hp]
  refine
    { hI with
      fresh := fun s' hs' => (hother s' fun e => hs' (e ▸ hs)).trans (hI.fresh s' hs')
      rep := ?_
      sized := ?_
      chain := fun ic' => hnext ▸ hI.chain ic'
      listed := ?_
      unlisted := ?_
      cached_block := fun ic' q hq =>
        ⟨(hI.cached_block ic' q hq).1, (hI.cached_block ic' q hq).2.mono hmono⟩
      live_block := ?_
      live_cached := ?_
      available_free := ?_
      freed_free := ?_
      cover := ?_ }
  · intro s' hs'
    by_cases h : s' = s
    · subst h
      rw [hself]
      exact hrep
    · rw [hother s' h]
      exact hI.rep s' hs'
  · intro s' hs'
    rw [(hmono s' hs').2]
    exact hI.sized s' hs'
  · intro ic' s' hs'
    obtain ⟨hic', hc', hbs', hst'⟩ := hI.listed ic' s' hs'
    by_cases h : s' = s
    · subst h
      exact ⟨hic', hc', by rw [hself]; exact hbs', by rw [hself]; exact hst'⟩
    · exact ⟨hic', hc', by rw [hother s' h]; exact hbs', by rw [hother s' h]; exact hst'⟩
  · intro s' hs' hnl
    have h : s' ≠ s := by
      rintro rfl
      exact hnl ⟨ic, by rw [hL]; exact List.mem_cons_self⟩
    show (v'.slabs s').state = UNOWNED ∧ slotsOf (v'.slabs s').availableSlots = ∅ ∧
      slotsOf (v'.slabs s').freedSlots = ∅
    rw [hother s' h]
    exact hI.unlisted s' hs' hnl
  · intro q hq
    rcases Finset.mem_insert.mp hq with rfl | hq
    · obtain ⟨hic, -, -, -⟩ := hI.listed ic s (by rw [hL]; exact List.mem_cons_self)
      refine ⟨ic.1, hic.1, s, k, hs, by rw [hself]; exact hbs, hbs ▸ hkn, ?_⟩
      rw [← hp]
    · obtain ⟨i, hi, hq⟩ := hI.live_block q hq
      exact ⟨i, hi, hq.mono hmono⟩
  · intro q hq
    rcases Finset.mem_insert.mp hq with rfl | hq
    · exact hpc
    · exact hI.live_cached q hq
  · intro s' hs' k' hk'
    rw [hblock]
    rw [havail', Function.update_apply] at hk'
    split_ifs at hk' with h
    · subst h
      obtain ⟨hne, hk'⟩ := Finset.mem_erase.mp hk'
      obtain ⟨hl, hc⟩ := hI.available_free s' hs' k' hk'
      refine ⟨fun hm => ?_, hc⟩
      rcases Finset.mem_insert.mp hm with he | hm
      · exact hne (hI.block_inj hs he)
      · exact hl hm
    · obtain ⟨hl, hc⟩ := hI.available_free s' hs' k' hk'
      refine ⟨fun hm => ?_, hc⟩
      rcases Finset.mem_insert.mp hm with he | hm
      · exact h (hpne s' k' hs' ((hI.rep s' hs').available_lt k' hk') he).1
      · exact hl hm
  · intro s' hs' k' hk'
    rw [hblock]
    rw [hfreed'] at hk'
    obtain ⟨hl, hc⟩ := hI.freed_free s' hs' k' hk'
    refine ⟨fun hm => ?_, hc⟩
    rcases Finset.mem_insert.mp hm with he | hm
    · -- a freed slot is not the available slot taken
      obtain ⟨rfl, rfl⟩ := hpne s' k' hs' ((hI.rep s' hs').freed_lt k' hk') he
      exact Finset.disjoint_left.mp (hI.rep s' hs').disjoint hk hk'
    · exact hl hm
  · intro s' hs' k' hk'
    rw [hblock, havail', hfreed', Function.update_apply]
    rw [(hmono s' hs').2] at hk'
    rcases hI.cover s' hs' k' hk' with hm | hm | hm | hm
    · by_cases he : s' = s ∧ k' = k
      · obtain ⟨rfl, rfl⟩ := he
        exact Or.inr (Or.inr (Or.inl (Finset.mem_insert_self _ _)))
      · left
        split_ifs with h
        · subst h
          exact Finset.mem_erase.mpr ⟨fun hk'' => he ⟨rfl, hk''⟩, hm⟩
        · exact hm
    · exact Or.inr (Or.inl hm)
    · exact Or.inr (Or.inr (Or.inl (Finset.mem_insert_of_mem hm)))
    · exact Or.inr (Or.inr (Or.inr hm))

end Take

/-! ## Carving a slab -/

section Carve

variable {A : Region} {v : View} {L : ℕ × ℕ → List ℕ} {live : Finset ℕ}

theorem Inv.carve (hI : Inv A v L live) {ic : ℕ × ℕ} (hic : InRange ic) (hhead : v.heads ic = 0)
    (hlt : v.currentSlab < A.regionEnd) :
    Inv A
      ({ v with
          currentSlab := v.currentSlab + sizeofObjSlab
          slabs := Function.update v.slabs v.currentSlab
            (objSlab (v.slabs v.currentSlab) (classSize ic.1)) }.append ic v.currentSlab)
      (Function.update L ic [v.currentSlab]) live := by
  set n := v.currentSlab with hn
  have hvalid := classSize_valid hic.1
  have hnc : ¬v.Carved A n := fun h => lt_irrefl n h.2.2
  have hzero : v.slabs n = zeroed := hI.fresh n hnc
  set x := objSlab (v.slabs n) (classSize ic.1) with hx
  rw [hzero] at hx
  have hLic : L ic = [] := (hI.chain ic).head_eq_null_iff.mp hhead
  have hnL : ¬ListFamily.Mem L n := fun ⟨ic', h⟩ => hnc (hI.listed ic' n h).2.1
  set v₁ : View := { v with currentSlab := n + sizeofObjSlab, slabs := Function.update v.slabs n x }
  -- the list is empty, so `_send_slab` sets its head and its tail
  have happ : v₁.append ic n =
      { v₁ with heads := Function.update v.heads ic n, tails := Function.update v.tails ic n } :=
    if_pos hhead
  rw [happ]
  set v' : View :=
    { v₁ with heads := Function.update v.heads ic n, tails := Function.update v.tails ic n }
  have hself : v'.slabs n = x := Function.update_self ..
  have hother : ∀ s, s ≠ n → v'.slabs s = v.slabs s := fun s h => Function.update_of_ne h _ _
  have hstart := hI.start_le
  have hmod := hI.current_mod
  have hnpos : 0 < n := lt_of_lt_of_le A.start_pos hstart
  have hcarved : ∀ s, v'.Carved A s ↔ v.Carved A s ∨ s = n := by
    intro s
    show s % sizeofObjSlab = 0 ∧ A.start ≤ s ∧ s < n + sizeofObjSlab ↔
      (s % sizeofObjSlab = 0 ∧ A.start ≤ s ∧ s < n) ∨ s = n
    rw [sizeofObjSlab_eq] at hmod ⊢
    omega
  have hne_of_carved : ∀ s, v.Carved A s → s ≠ n := fun s hs h => hnc (h ▸ hs)
  have hmono : ∀ s, v.Carved A s →
      v'.Carved A s ∧ (v'.slabs s).blockSize = (v.slabs s).blockSize := fun s hs =>
    ⟨(hcarved s).mpr (Or.inl hs), by rw [hother s (hne_of_carved s hs)]⟩
  have hblock : ∀ s, s ≠ n → v'.block s = v.block s := fun s h => by
    funext k
    simp only [View.block, hother s h]
  have hnextL : ∀ ic' y, y ∈ L ic' → v'.nextOf y = v.nextOf y := fun ic' y hy =>
    congrArg ObjSlab.next (hother y (hne_of_carved y (hI.listed ic' y hy).2.1))
  have hxnext : x.next = 0 := by rw [hx]; rfl
  have hxstate : x.state = OWNED := by rw [hx]; rfl
  have hxbs : x.blockSize = classSize ic.1 := by rw [hx]; rfl
  have hxavail : slotsOf x.availableSlots = Finset.range (nblocks (classSize ic.1)) := by
    rw [hx]
    exact slotsOf_objSlab zeroed hvalid fun _ => rfl
  have hxfreed : slotsOf x.freedSlots = ∅ := by
    rw [hx]
    exact slotsOf_eq_empty_iff.mpr fun _ => rfl
  have hfresh_block : ∀ k < nblocks (classSize ic.1),
      blockAddr n (classSize ic.1) k ∉ live ∧
        ¬ListFamily.Mem v.caches (blockAddr n (classSize ic.1) k) := by
    intro k hk
    refine ⟨fun hl => ?_, fun ⟨ic', hc⟩ => ?_⟩
    · obtain ⟨i, -, hb⟩ := hI.live_block _ hl
      exact hb.ne_block hnc hmod hk rfl
    · exact (hI.cached_block ic' _ hc).2.ne_block hnc hmod hk rfl
  refine
    { start_le := hstart.trans (Nat.le_add_right _ _)
      current_le := ?_
      current_mod := by
        show (n + sizeofObjSlab) % sizeofObjSlab = 0
        rw [Nat.add_mod_right]
        exact hmod
      fresh := ?_
      rep := ?_
      sized := ?_
      chain := ?_
      tail := ?_
      lists_distinct := ?_
      listed := ?_
      unlisted := ?_
      cache_bound := hI.cache_bound
      cached_block := fun ic' q hq =>
        ⟨(hI.cached_block ic' q hq).1, (hI.cached_block ic' q hq).2.mono hmono⟩
      cached_distinct := hI.cached_distinct
      live_block := fun q hq => by
        obtain ⟨i, hi, hb⟩ := hI.live_block q hq
        exact ⟨i, hi, hb.mono hmono⟩
      live_cached := hI.live_cached
      available_free := ?_
      freed_free := ?_
      cover := ?_ }
  · -- slabs are carved at multiples of `sizeof(obj_slab)` below `end`
    have hend := A.end_mod
    show n + sizeofObjSlab ≤ A.regionEnd
    rw [sizeofObjSlab_eq] at hmod hend ⊢
    omega
  · intro s hs
    have hsn : s ≠ n := fun h => hs ((hcarved s).mpr (Or.inr h))
    rw [hother s hsn]
    exact hI.fresh s fun h => hs ((hcarved s).mpr (Or.inl h))
  · intro s hs
    rcases (hcarved s).mp hs with hs | rfl
    · rw [hother s (hne_of_carved s hs)]
      exact hI.rep s hs
    · rw [hself, hx]
      exact rep_objSlab_zeroed hvalid
  · intro s hs
    rcases (hcarved s).mp hs with hs | rfl
    · rw [hother s (hne_of_carved s hs)]
      exact hI.sized s hs
    · rw [hself]
      exact ⟨ic.1, hic.1, hxbs⟩
  · intro ic'
    by_cases h : ic' = ic
    · subst h
      show Chain v'.nextOf 0 (Function.update v.heads ic' n ic') (Function.update L ic' [n] ic')
      rw [Function.update_self, Function.update_self]
      exact Chain.singleton hnpos.ne' (by show (v'.slabs n).next = 0; rw [hself, hxnext])
    · show Chain v'.nextOf 0 (Function.update v.heads ic n ic') (Function.update L ic [n] ic')
      rw [Function.update_of_ne h, Function.update_of_ne h]
      exact (hI.chain ic').congr fun y hy => hnextL ic' y hy
  · intro ic' t ht
    by_cases h : ic' = ic
    · subst h
      rw [Function.update_self, List.getLast?_singleton, Option.some.injEq] at ht
      show Function.update v.tails ic' n ic' = t
      rw [Function.update_self, ht]
    · rw [Function.update_of_ne h] at ht
      show Function.update v.tails ic n ic' = t
      rw [Function.update_of_ne h]
      exact hI.tail ic' t ht
  · have hd := hI.lists_distinct.update_append (i := ic) hnL
    rwa [hLic, List.nil_append] at hd
  · intro ic' s hs
    by_cases h : ic' = ic ∧ s = n
    · obtain ⟨rfl, rfl⟩ := h
      exact ⟨hic, (hcarved _).mpr (Or.inr rfl), by rw [hself, hxbs], by rw [hself, hxstate]⟩
    · -- everything else was listed before
      have hs' : s ∈ L ic' := by
        by_cases hic' : ic' = ic
        · subst hic'
          rw [Function.update_self, List.mem_singleton] at hs
          exact absurd ⟨rfl, hs⟩ h
        · rwa [Function.update_of_ne hic'] at hs
      obtain ⟨hic'', hc, hbs, hst⟩ := hI.listed ic' s hs'
      rw [hother s (hne_of_carved s hc)]
      exact ⟨hic'', (hmono s hc).1, hbs, hst⟩
  · intro s hs hnl
    have hsn : s ≠ n := fun h => hnl ⟨ic, by rw [h, Function.update_self]; exact List.mem_singleton_self _⟩
    have hs' : v.Carved A s := ((hcarved s).mp hs).resolve_right hsn
    have hnl' : ¬ListFamily.Mem L s := by
      rintro ⟨ic', h⟩
      refine hnl ⟨ic', ?_⟩
      by_cases hic' : ic' = ic
      · subst hic'
        rw [hLic] at h
        exact absurd h (List.not_mem_nil)
      · rwa [Function.update_of_ne hic']
    show (v'.slabs s).state = UNOWNED ∧ slotsOf (v'.slabs s).availableSlots = ∅ ∧
      slotsOf (v'.slabs s).freedSlots = ∅
    rw [hother s hsn]
    exact hI.unlisted s hs' hnl'
  · intro s hs k hk
    rcases (hcarved s).mp hs with hs | rfl
    · rw [hblock s (hne_of_carved s hs)]
      have hk' : k ∈ v.avail s := by
        have : k ∈ slotsOf (v'.slabs s).availableSlots := hk
        rwa [hother s (hne_of_carved s hs)] at this
      exact hI.available_free s hs k hk'
    · have hk' : k ∈ Finset.range (nblocks (classSize ic.1)) := by
        have : k ∈ slotsOf (v'.slabs n).availableSlots := hk
        rwa [hself, hxavail] at this
      show blockAddr n (v'.slabs n).blockSize k ∉ live ∧
        ¬ListFamily.Mem v.caches (blockAddr n (v'.slabs n).blockSize k)
      rw [hself, hxbs]
      exact hfresh_block k (Finset.mem_range.mp hk')
  · intro s hs k hk
    rcases (hcarved s).mp hs with hs | rfl
    · rw [hblock s (hne_of_carved s hs)]
      have hk' : k ∈ v.freed s := by
        have : k ∈ slotsOf (v'.slabs s).freedSlots := hk
        rwa [hother s (hne_of_carved s hs)] at this
      exact hI.freed_free s hs k hk'
    · have : k ∈ slotsOf (v'.slabs n).freedSlots := hk
      rw [hself, hxfreed] at this
      exact absurd this (Finset.notMem_empty k)
  · intro s hs k hk
    rcases (hcarved s).mp hs with hs | rfl
    · rw [hblock s (hne_of_carved s hs)]
      rw [hother s (hne_of_carved s hs)] at hk
      have h := hI.cover s hs k hk
      show k ∈ slotsOf (v'.slabs s).availableSlots ∨ k ∈ slotsOf (v'.slabs s).freedSlots ∨ _
      rw [hother s (hne_of_carved s hs)]
      exact h
    · left
      show k ∈ slotsOf (v'.slabs n).availableSlots
      rw [hself, hxavail, Finset.mem_range]
      rw [hself, hxbs] at hk
      exact hk

end Carve

/-! ## Views after `_send_slab` -/

namespace View

section Append

variable {A : Region} {v : View} {ic : ℕ × ℕ} {x : ℕ}

theorem slabs_append (y : ℕ) :
    (v.append ic x).slabs y = { v.slabs y with next := (v.append ic x).nextOf y } := by
  unfold append nextOf
  split_ifs with h
  · rfl
  · by_cases hy : y = v.tails ic
    · subst hy
      simp
    · simp [Function.update_of_ne hy]

theorem nextOf_append_of_empty (h : v.heads ic = 0) : (v.append ic x).nextOf = v.nextOf := by
  unfold append
  rw [if_pos h]
  rfl

theorem nextOf_append_of_ne (h : v.heads ic ≠ 0) :
    (v.append ic x).nextOf = Function.update v.nextOf (v.tails ic) x := by
  unfold append
  rw [if_neg h]
  exact nextOf_of_slabs (x := { v.slabs (v.tails ic) with next := x }) rfl

theorem heads_append_of_ne {ic' : ℕ × ℕ} (h : ic' ≠ ic) :
    (v.append ic x).heads ic' = v.heads ic' := by
  unfold append
  split_ifs
  · exact Function.update_of_ne h _ _
  · rfl

@[simp] theorem tails_append : (v.append ic x).tails = Function.update v.tails ic x := by
  unfold append
  split_ifs <;> rfl

@[simp] theorem caches_append : (v.append ic x).caches = v.caches := by
  unfold append
  split_ifs <;> rfl

@[simp] theorem currentSlab_append : (v.append ic x).currentSlab = v.currentSlab := by
  unfold append
  split_ifs <;> rfl

theorem carved_append : (v.append ic x).Carved A = v.Carved A := by
  funext s
  unfold Carved
  rw [currentSlab_append]

theorem avail_append : (v.append ic x).avail = v.avail := by
  funext y
  unfold avail
  rw [slabs_append]

theorem freed_append : (v.append ic x).freed = v.freed := by
  funext y
  unfold freed
  rw [slabs_append]

theorem block_append : (v.append ic x).block = v.block := by
  funext y k
  unfold block
  rw [slabs_append]

theorem slabs_append_of_empty (h : v.heads ic = 0) : (v.append ic x).slabs = v.slabs := by
  unfold append
  rw [if_pos h]

theorem slabs_append_of_ne_tail {y : ℕ} (hy : y ≠ v.tails ic) :
    (v.append ic x).slabs y = v.slabs y := by
  unfold append
  split_ifs
  · rfl
  · exact Function.update_of_ne hy _ _

theorem slabs_append_of_not_mem {L : ℕ × ℕ → List ℕ} (hchain : Chain v.nextOf 0 (v.heads ic) (L ic))
    (htail : ∀ t, (L ic).getLast? = some t → v.tails ic = t) {y : ℕ} (hy : y ∉ L ic) :
    (v.append ic x).slabs y = v.slabs y := by
  by_cases h0 : v.heads ic = 0
  · rw [slabs_append_of_empty h0]
  · -- the tail is the last slab of the list
    have hne : L ic ≠ [] := fun h => h0 (hchain.head_eq_null_iff.mpr h)
    refine slabs_append_of_ne_tail fun e => hy ?_
    rw [e, htail _ (List.getLast?_eq_some_getLast hne)]
    exact List.getLast_mem hne

variable (ic) in
theorem lists_append {L : ℕ × ℕ → List ℕ}
    (hchain : ∀ ic, Chain v.nextOf 0 (v.heads ic) (L ic))
    (htail : ∀ ic t, (L ic).getLast? = some t → v.tails ic = t)
    (hd : Distinct L) (hx : x ≠ 0) (hxL : ¬ListFamily.Mem L x) (hnx : v.nextOf x = 0) :
    (∀ ic', Chain (v.append ic x).nextOf 0 ((v.append ic x).heads ic')
        (Function.update L ic (L ic ++ [x]) ic')) ∧
      (∀ ic' t, (Function.update L ic (L ic ++ [x]) ic').getLast? = some t →
        (v.append ic x).tails ic' = t) ∧
      Distinct (Function.update L ic (L ic ++ [x])) := by
  refine ⟨fun ic' => ?_, fun ic' t ht => ?_, hd.update_append hxL⟩
  · by_cases hic : ic' = ic
    · subst hic
      rw [Function.update_self]
      by_cases h0 : v.heads ic' = 0
      · -- an empty list: `x` becomes its head
        have hnil : L ic' = [] := (hchain ic').head_eq_null_iff.mp h0
        have hh : (v.append ic' x).heads ic' = x := by
          unfold append
          rw [if_pos h0]
          exact Function.update_self ..
        rw [hnil, List.nil_append, nextOf_append_of_empty h0, hh]
        exact Chain.singleton hx hnx
      · -- `x` follows the tail
        have hne : L ic' ≠ [] := fun h => h0 ((hchain ic').head_eq_null_iff.mpr h)
        have ht := List.getLast?_eq_some_getLast hne
        have hh : (v.append ic' x).heads ic' = v.heads ic' := by
          unfold append
          rw [if_neg h0]
        rw [hh, nextOf_append_of_ne h0, htail ic' _ ht]
        exact (hchain ic').snoc ht hx (fun h => hxL ⟨ic', h⟩) hnx
    · rw [Function.update_of_ne hic, heads_append_of_ne hic]
      refine (hchain ic').congr fun y hy => ?_
      by_cases h0 : v.heads ic = 0
      · rw [nextOf_append_of_empty h0]
      · rw [nextOf_append_of_ne h0]
        apply Function.update_of_ne
        rintro rfl
        have hne : L ic ≠ [] := fun h => h0 ((hchain ic).head_eq_null_iff.mpr h)
        have ht := List.getLast?_eq_some_getLast hne
        rw [htail ic _ ht] at hy
        exact hd.disjoint ic' ic hic hy (List.getLast_mem hne)
  · rw [tails_append]
    by_cases hic : ic' = ic
    · subst hic
      rw [Function.update_self, List.getLast?_concat, Option.some.injEq] at ht
      rw [Function.update_self, ht]
    · rw [Function.update_of_ne hic] at ht ⊢
      exact htail ic' t ht

end Append

end View

/-! ## A full head leaves its list -/

section Full

variable {A : Region} {v : View} {L : ℕ × ℕ → List ℕ} {live : Finset ℕ}

theorem Inv.behead (hI : Inv A v L live) {ic : ℕ × ℕ} {s : ℕ} {rest : List ℕ}
    (hL : L ic = s :: rest) :
    ¬ListFamily.Mem (Function.update L ic rest) s ∧
      (∀ ic' y, y ∈ Function.update L ic rest ic' → y ∈ L ic' ∧ y ≠ s) ∧
      (∀ ic', Chain v.nextOf 0 (Function.update v.heads ic (v.slabs s).next ic')
        (Function.update L ic rest ic')) ∧
      (∀ ic' t, (Function.update L ic rest ic').getLast? = some t → v.tails ic' = t) ∧
      Distinct (Function.update L ic rest) := by
  have hsL : s ∈ L ic := by rw [hL]; exact List.mem_cons_self
  have hsgone : ¬ListFamily.Mem (Function.update L ic rest) s :=
    hI.lists_distinct.not_mem_update hsL (List.nodup_cons.mp (hL ▸ hI.lists_distinct.nodup ic)).1
  refine ⟨hsgone, ?_, ?_, ?_,
    hI.lists_distinct.update_sublist (by rw [hL]; exact List.sublist_cons_self _ _)⟩
  · intro ic' y hy
    refine ⟨?_, fun e => hsgone ⟨ic', e ▸ hy⟩⟩
    by_cases h : ic' = ic
    · subst h
      rw [Function.update_self] at hy
      rw [hL]
      exact List.mem_cons_of_mem _ hy
    · rwa [Function.update_of_ne h] at hy
  · intro ic'
    by_cases h : ic' = ic
    · subst h
      rw [Function.update_self, Function.update_self]
      have hc := hI.chain ic'
      rw [hL] at hc
      rw [hc.head_eq] at hc
      exact hc.tail
    · rw [Function.update_of_ne h, Function.update_of_ne h]
      exact hI.chain ic'
  · intro ic' t ht
    by_cases h : ic' = ic
    · subst h
      rw [Function.update_self] at ht
      have ht' : (L ic').getLast? = some t := by
        rw [hL, List.getLast?_cons, ht]
        rfl
      exact hI.tail ic' t ht'
    · rw [Function.update_of_ne h] at ht
      exact hI.tail ic' t ht

/-- What `_try_release` finds on a full slab that `_allocate` reported `FULL`: the summary
emptied; with nothing freed the slab becomes `UNOWNED`, otherwise its freed slots become its
available ones. -/
theorem Inv.release (hI : Inv A v L live) {s : ℕ} (hs : v.Carved A s) (hA : v.avail s = ∅) :
    let s₁ : ObjSlab := { v.slabs s with availableVecs := 0#64 }
    Rep s₁ ∧ Rep s₁.tryRelease.1 ∧ s₁.tryRelease.1.blockSize = (v.slabs s).blockSize ∧
      (v.freed s = ∅ → s₁.tryRelease = ({ s₁ with state := UNOWNED }, 1)) ∧
      (v.freed s ≠ ∅ → s₁.tryRelease.2 = 0 ∧ s₁.tryRelease.1.state = (v.slabs s).state ∧
        slotsOf s₁.tryRelease.1.availableSlots = v.freed s ∧
        slotsOf s₁.tryRelease.1.freedSlots = ∅) := by
  intro s₁
  have hr₁ : Rep s₁ :=
    rep_allocate_full (hI.rep s hs) fun u _ => slotsOf_eq_empty_iff.mp hA u
  obtain ⟨-, hempty, hfreed⟩ := tryRelease_slots hr₁ rfl
  refine ⟨hr₁, rep_tryRelease hr₁ rfl, tryRelease_blockSize, hempty, fun hF => ?_⟩
  obtain ⟨h0, havail, hfreed'⟩ := hfreed hF
  refine ⟨h0, ?_, havail, hfreed'⟩
  have hfv : s₁.freedVecs ≠ 0#64 := mt (freedVecs_eq_zero_iff hr₁).mp hF
  rw [tryRelease_of_freedVecs_ne_zero hr₁ rfl hfv]

theorem Inv.drop (hI : Inv A v L live) {ic : ℕ × ℕ} {s : ℕ} {rest : List ℕ}
    (hL : L ic = s :: rest) (hA : v.avail s = ∅)
    (hrel : ({ v.slabs s with availableVecs := 0#64 } : ObjSlab).tryRelease.2 ≠ 0) :
    Inv A
      { v with
        slabs := Function.update v.slabs s ({ v.slabs s with availableVecs := 0#64 } : ObjSlab).tryRelease.1
        heads := Function.update v.heads ic (v.slabs s).next }
      (Function.update L ic rest) live := by
  have hsL : s ∈ L ic := by rw [hL]; exact List.mem_cons_self
  obtain ⟨-, hs, -, -⟩ := hI.listed ic s hsL
  obtain ⟨hr₁, -, -, hempty, hfreed⟩ := hI.release hs hA
  -- with something freed the release would have returned 0
  have hF : v.freed s = ∅ := by
    by_contra hF
    exact hrel (hfreed hF).1
  set x : ObjSlab := ({ v.slabs s with availableVecs := 0#64 } : ObjSlab).tryRelease.1 with hx
  rw [hempty hF] at hx
  set v' : View :=
    { v with slabs := Function.update v.slabs s x, heads := Function.update v.heads ic (v.slabs s).next }
  have hslabs : v'.slabs = Function.update v.slabs s x := rfl
  have hother : ∀ s', s' ≠ s → v'.slabs s' = v.slabs s' := fun s' h => Function.update_of_ne h _ _
  have hself : v'.slabs s = x := Function.update_self ..
  have havail : v'.avail = v.avail := by
    rw [View.avail_of_slabs hslabs, hx]
    exact Function.update_eq_self_iff.mpr rfl
  have hfreed' : v'.freed = v.freed := by
    rw [View.freed_of_slabs hslabs, hx]
    exact Function.update_eq_self_iff.mpr rfl
  have hblock : v'.block = v.block := View.block_of_slabs hslabs (by rw [hx])
  have hnext : v'.nextOf = v.nextOf := by
    rw [View.nextOf_of_slabs hslabs, hx]
    exact Function.update_eq_self_iff.mpr rfl
  have hbs : ∀ s', (v'.slabs s').blockSize = (v.slabs s').blockSize :=
    View.blockSize_of_slabs hslabs (by rw [hx])
  have hmono : ∀ s', v.Carved A s' →
      v'.Carved A s' ∧ (v'.slabs s').blockSize = (v.slabs s').blockSize := fun s' hs' => ⟨hs', hbs s'⟩
  have hmemL : ∀ y, y ∈ L ic ↔ y = s ∨ y ∈ rest := fun y => by rw [hL, List.mem_cons]
  obtain ⟨-, hsub, hchain, htail, hdist⟩ := hI.behead hL
  refine
    { hI with
      fresh := fun s' hs' => (hother s' fun e => hs' (e ▸ hs)).trans (hI.fresh s' hs')
      rep := ?_
      sized := fun s' hs' => hbs s' ▸ hI.sized s' hs'
      chain := hnext ▸ hchain
      tail := htail
      lists_distinct := hdist
      listed := ?_
      unlisted := ?_
      cached_block := fun ic' q hq =>
        ⟨(hI.cached_block ic' q hq).1, (hI.cached_block ic' q hq).2.mono hmono⟩
      live_block := fun q hq => by
        obtain ⟨i, hi, hb⟩ := hI.live_block q hq
        exact ⟨i, hi, hb.mono hmono⟩
      available_free := by
        rw [havail, hblock]
        exact hI.available_free
      freed_free := by
        rw [hfreed', hblock]
        exact hI.freed_free
      cover := by
        intro s' hs' k hk
        rw [havail, hfreed', hblock]
        rw [hbs s'] at hk
        exact hI.cover s' hs' k hk }
  · intro s' hs'
    by_cases h : s' = s
    · subst h
      rw [hself, hx]
      exact ⟨hr₁.available_lt, hr₁.freed_lt, hr₁.available_vecs, hr₁.freed_vecs, hr₁.disjoint⟩
    · rw [hother s' h]
      exact hI.rep s' hs'
  · intro ic' y hy
    obtain ⟨hy, hys⟩ := hsub ic' y hy
    obtain ⟨hic', hc, hb, hst⟩ := hI.listed ic' y hy
    rw [hother y hys]
    exact ⟨hic', hc, hb, hst⟩
  · intro s' hs' hnl
    by_cases h : s' = s
    · subst h
      show (v'.slabs s').state = UNOWNED ∧ v'.avail s' = ∅ ∧ v'.freed s' = ∅
      rw [havail, hfreed', hself, hx]
      exact ⟨rfl, hA, hF⟩
    · have hnl' : ¬ListFamily.Mem L s' := fun hm =>
        ((mem_update_iff hmemL).mp hm).elim hnl h
      show (v'.slabs s').state = UNOWNED ∧ v'.avail s' = ∅ ∧ v'.freed s' = ∅
      rw [havail, hfreed', hother s' h]
      exact hI.unlisted s' hs' hnl'

theorem Inv.rotate (hI : Inv A v L live) {ic : ℕ × ℕ} {s : ℕ} {rest : List ℕ}
    (hL : L ic = s :: rest) (hA : v.avail s = ∅)
    (hrel : ({ v.slabs s with availableVecs := 0#64 } : ObjSlab).tryRelease.2 = 0) :
    Inv A
      ({ v with
          slabs := Function.update v.slabs s
            { ({ v.slabs s with availableVecs := 0#64 } : ObjSlab).tryRelease.1 with next := 0 }
          heads := Function.update v.heads ic (v.slabs s).next }.append ic s)
      (Function.update L ic (rest ++ [s])) live := by
  have hsL : s ∈ L ic := by rw [hL]; exact List.mem_cons_self
  obtain ⟨hic, hs, hbs, hst⟩ := hI.listed ic s hsL
  obtain ⟨-, hrep, hrbs, hempty, hfreed⟩ := hI.release hs hA
  -- with nothing freed the release would have returned 1
  have hF : v.freed s ≠ ∅ := by
    intro hF
    rw [hempty hF] at hrel
    exact one_ne_zero hrel
  obtain ⟨-, hrst, hravail, hrfreed⟩ := hfreed hF
  set r : ObjSlab := ({ v.slabs s with availableVecs := 0#64 } : ObjSlab).tryRelease.1
  set x : ObjSlab := { r with next := 0 }
  set L₁ := Function.update L ic rest
  set v₁ : View :=
    { v with slabs := Function.update v.slabs s x, heads := Function.update v.heads ic (v.slabs s).next }
  have hslabs : v₁.slabs = Function.update v.slabs s x := rfl
  have hother : ∀ s', s' ≠ s → v₁.slabs s' = v.slabs s' := fun s' h => Function.update_of_ne h _ _
  have hself : v₁.slabs s = x := Function.update_self ..
  have hnpos : s ≠ 0 := hs.ne_zero
  have hmemL : ∀ y, y ∈ L ic ↔ y = s ∨ y ∈ rest := fun y => by rw [hL, List.mem_cons]
  obtain ⟨hsgone, hsub, hchain, htail, hdist₁⟩ := hI.behead hL
  have hnext₁ : v₁.nextOf = Function.update v.nextOf s 0 := View.nextOf_of_slabs hslabs
  have hchain₁ : ∀ ic', Chain v₁.nextOf 0 (v₁.heads ic') (L₁ ic') := fun ic' =>
    (hchain ic').congr fun y hy => by
      rw [hnext₁]
      exact Function.update_of_ne (hsub ic' y hy).2 _ _
  have htail₁ : ∀ ic' t, (L₁ ic').getLast? = some t → v₁.tails ic' = t := htail
  have hsnext : v₁.nextOf s = 0 := by rw [hnext₁, Function.update_self]
  obtain ⟨hchain', htail', hdist'⟩ := View.lists_append ic hchain₁ htail₁ hdist₁ hnpos hsgone hsnext
  have hL' : Function.update L₁ ic (L₁ ic ++ [s]) = Function.update L ic (rest ++ [s]) := by
    simp only [L₁, Function.update_self, Function.update_idem]
  rw [hL'] at hchain' htail' hdist'
  set v' := v₁.append ic s
  have hslab' : ∀ y, v'.slabs y = { v₁.slabs y with next := v'.nextOf y } := View.slabs_append
  have hcarved : v'.Carved A = v.Carved A := View.carved_append
  have hcur : v'.currentSlab = v.currentSlab := View.currentSlab_append
  have hcaches : v'.caches = v.caches := View.caches_append
  have hbs' : ∀ y, (v'.slabs y).blockSize = (v.slabs y).blockSize := fun y => by
    rw [hslab' y]
    exact View.blockSize_of_slabs hslabs hrbs y
  have hst' : ∀ y, (v'.slabs y).state = (v₁.slabs y).state := fun y => by rw [hslab' y]
  have havail' : v'.avail = Function.update v.avail s (v.freed s) := by
    rw [View.avail_append, View.avail_of_slabs hslabs]
    exact congrArg _ hravail
  have hfreed' : v'.freed = Function.update v.freed s ∅ := by
    rw [View.freed_append, View.freed_of_slabs hslabs]
    exact congrArg _ hrfreed
  have hblock' : v'.block = v.block := by
    rw [View.block_append]
    exact View.block_of_slabs hslabs hrbs
  have hmono : ∀ y, v.Carved A y →
      v'.Carved A y ∧ (v'.slabs y).blockSize = (v.slabs y).blockSize := fun y hy =>
    ⟨hcarved ▸ hy, hbs' y⟩
  refine
    { start_le := hcur ▸ hI.start_le
      current_le := hcur ▸ hI.current_le
      current_mod := hcur ▸ hI.current_mod
      fresh := ?_
      rep := ?_
      sized := fun y hy => hbs' y ▸ hI.sized y (hcarved ▸ hy)
      chain := hchain'
      tail := htail'
      lists_distinct := hdist'
      listed := ?_
      unlisted := ?_
      cache_bound := hcaches ▸ hI.cache_bound
      cached_block := fun ic' q hq => by
        rw [hcaches] at hq
        exact ⟨(hI.cached_block ic' q hq).1, (hI.cached_block ic' q hq).2.mono hmono⟩
      cached_distinct := hcaches ▸ hI.cached_distinct
      live_block := fun q hq => by
        obtain ⟨i, hi, hb⟩ := hI.live_block q hq
        exact ⟨i, hi, hb.mono hmono⟩
      live_cached := hcaches ▸ hI.live_cached
      available_free := ?_
      freed_free := ?_
      cover := ?_ }
  · intro y hy
    rw [hcarved] at hy
    have hys : y ≠ s := fun e => hy (e ▸ hs)
    have hyL : y ∉ L₁ ic := fun h => hy (hI.listed ic y (hsub ic y h).1).2.1
    rw [View.slabs_append_of_not_mem (hchain₁ ic) (htail₁ ic) hyL, hother y hys]
    exact hI.fresh y hy
  · intro y hy
    rw [hcarved] at hy
    rw [hslab' y]
    by_cases h : y = s
    · subst h
      rw [hself]
      exact rep_with_next_state hrep _ _
    · rw [hother y h]
      exact rep_with_next_state (hI.rep y hy) _ _
  · intro ic' y hy
    rw [hst' y]
    by_cases h : ic' = ic ∧ y = s
    · obtain ⟨rfl, rfl⟩ := h
      refine ⟨hic, hcarved ▸ hs, (hbs' y).trans hbs, ?_⟩
      rw [hself]
      exact hrst.trans hst
    · -- everything else was on the same list before
      have hy' : y ∈ L ic' ∧ y ≠ s := by
        by_cases hic' : ic' = ic
        · subst hic'
          rw [Function.update_self, List.mem_append, List.mem_singleton] at hy
          rcases hy with hy | hy
          · exact hsub ic' y (by rw [Function.update_self]; exact hy)
          · exact absurd ⟨rfl, hy⟩ h
        · rw [Function.update_of_ne hic'] at hy
          exact hsub ic' y (by rwa [Function.update_of_ne hic'])
      obtain ⟨hic', hc, hb, hst''⟩ := hI.listed ic' y hy'.1
      rw [hother y hy'.2]
      exact ⟨hic', hcarved ▸ hc, (hbs' y).trans hb, hst''⟩
  · intro y hy hnl
    rw [hcarved] at hy
    have hys : y ≠ s := fun e =>
      hnl ⟨ic, by rw [e, Function.update_self]; exact List.mem_append_right _ (List.mem_singleton_self _)⟩
    have hnl' : ¬ListFamily.Mem L y := by
      rintro ⟨ic', hm⟩
      refine hnl ⟨ic', ?_⟩
      by_cases hic' : ic' = ic
      · subst hic'
        rw [Function.update_self]
        exact List.mem_append_left _ (((hmemL y).mp hm).resolve_left hys)
      · rwa [Function.update_of_ne hic']
    rw [hst' y, havail', hfreed', Function.update_of_ne hys, Function.update_of_ne hys, hother y hys]
    exact hI.unlisted y hy hnl'
  · intro y hy k hk
    rw [hcarved] at hy
    rw [havail'] at hk
    rw [hblock', hcaches]
    by_cases h : y = s
    · subst h
      rw [Function.update_self] at hk
      exact hI.freed_free y hy k hk
    · rw [Function.update_of_ne h] at hk
      exact hI.available_free y hy k hk
  · intro y hy k hk
    rw [hcarved] at hy
    rw [hfreed'] at hk
    rw [hblock', hcaches]
    by_cases h : y = s
    · subst h
      rw [Function.update_self] at hk
      exact absurd hk (Finset.notMem_empty k)
    · rw [Function.update_of_ne h] at hk
      exact hI.freed_free y hy k hk
  · intro y hy k hk
    rw [hcarved] at hy
    rw [hbs' y] at hk
    rw [havail', hfreed', hblock', hcaches]
    by_cases h : y = s
    · subst h
      rw [Function.update_self, Function.update_self]
      rcases hI.cover y hy k hk with hm | hm | hm | hm
      · rw [hA] at hm
        exact absurd hm (Finset.notMem_empty k)
      · exact Or.inl hm
      · exact Or.inr (Or.inr (Or.inl hm))
      · exact Or.inr (Or.inr (Or.inr hm))
    · rw [Function.update_of_ne h, Function.update_of_ne h]
      exact hI.cover y hy k hk

end Full

/-! ## Freeing a block back to its slab -/

section Free

variable {A : Region} {v : View} {L : ℕ × ℕ → List ℕ} {live : Finset ℕ}

theorem Inv.free_slab (hI : Inv A v L live) {s k : ℕ} (hs : v.Carved A s)
    (hk : k < nblocks (v.slabs s).blockSize) (hp : v.block s k ∈ live) :
    let x := ((v.slabs s).free (payloadOffset + (v.slabs s).blockSize * k)).1
    Rep x ∧ slotsOf x.availableSlots = v.avail s ∧ slotsOf x.freedSlots = insert k (v.freed s) ∧
      k ∉ v.freed s := by
  intro x
  obtain ⟨i, hi, hbs⟩ := hI.sized s hs
  have hvalid : ValidBlockSize (v.slabs s).blockSize := hbs ▸ classSize_valid hi
  have hka : k ∉ v.avail s := fun h => (hI.available_free s hs k h).1 hp
  have hkf : k ∉ v.freed s := fun h => (hI.freed_free s hs k h).1 hp
  have hk4 : k < 4096 := lt_of_lt_of_le hk (nblocks_bounds hvalid).2
  exact ⟨rep_free (hI.rep s hs) hvalid hk hka, congrArg slotsOf (free_availableSlots _ _),
    slotsOf_free_freedSlots _ (hI.blockSize_pos hs) hk4, hkf⟩

theorem Inv.erase_block (hI : Inv A v L live) {v' : View} {s k : ℕ} (hs : v.Carved A s)
    (hk : k < nblocks (v.slabs s).blockSize) (hp : v.block s k ∈ live)
    (hcarved : v'.Carved A = v.Carved A) (hbs : ∀ y, (v'.slabs y).blockSize = (v.slabs y).blockSize)
    (hcaches : v'.caches = v.caches) (havail : v'.avail = v.avail)
    (hfreed : v'.freed = Function.update v.freed s (insert k (v.freed s))) :
    (∀ p ∈ live.erase (v.block s k), ∃ i < numSizeClasses, v'.BlockOf A i p) ∧
      (∀ p ∈ live.erase (v.block s k), ¬ListFamily.Mem v'.caches p) ∧
      (∀ y, v'.Carved A y → ∀ k' ∈ v'.avail y,
        v'.block y k' ∉ live.erase (v.block s k) ∧ ¬ListFamily.Mem v'.caches (v'.block y k')) ∧
      (∀ y, v'.Carved A y → ∀ k' ∈ v'.freed y,
        v'.block y k' ∉ live.erase (v.block s k) ∧ ¬ListFamily.Mem v'.caches (v'.block y k')) ∧
      (∀ y, v'.Carved A y → ∀ k' < nblocks (v'.slabs y).blockSize,
        k' ∈ v'.avail y ∨ k' ∈ v'.freed y ∨ v'.block y k' ∈ live.erase (v.block s k) ∨
          ListFamily.Mem v'.caches (v'.block y k')) := by
  have hblock : v'.block = v.block := by
    funext y k'
    simp only [View.block, hbs]
  have hmono : ∀ y, v.Carved A y →
      v'.Carved A y ∧ (v'.slabs y).blockSize = (v.slabs y).blockSize := fun y hy =>
    ⟨hcarved ▸ hy, hbs y⟩
  have hsub : ∀ p ∈ live.erase (v.block s k), p ∈ live := fun p hp => Finset.mem_of_mem_erase hp
  refine ⟨fun p hp => ?_, fun p hp => hcaches ▸ hI.live_cached p (hsub p hp), ?_, ?_, ?_⟩
  · obtain ⟨i, hi, hb⟩ := hI.live_block p (hsub p hp)
    exact ⟨i, hi, hb.mono hmono⟩
  · intro y hy k' hk'
    rw [hcarved] at hy
    rw [havail] at hk'
    rw [hblock, hcaches]
    exact ⟨fun h => (hI.available_free y hy k' hk').1 (hsub _ h), (hI.available_free y hy k' hk').2⟩
  · intro y hy k' hk'
    rw [hcarved] at hy
    rw [hblock, hcaches]
    by_cases hys : y = s
    · subst hys
      rw [hfreed, Function.update_self, Finset.mem_insert] at hk'
      rcases hk' with rfl | hk'
      · -- the block just freed: off the live set, and never cached while it was live
        exact ⟨Finset.notMem_erase _ _, hI.live_cached _ hp⟩
      · exact ⟨fun h => (hI.freed_free y hy k' hk').1 (hsub _ h), (hI.freed_free y hy k' hk').2⟩
    · rw [hfreed, Function.update_of_ne hys] at hk'
      exact ⟨fun h => (hI.freed_free y hy k' hk').1 (hsub _ h), (hI.freed_free y hy k' hk').2⟩
  · intro y hy k' hk'
    rw [hcarved] at hy
    rw [hbs y] at hk'
    rw [havail, hfreed, hblock, hcaches]
    rcases hI.cover y hy k' hk' with hm | hm | hm | hm
    · exact Or.inl hm
    · refine Or.inr (Or.inl ?_)
      by_cases hys : y = s
      · subst hys
        rw [Function.update_self]
        exact Finset.mem_insert_of_mem hm
      · rwa [Function.update_of_ne hys]
    · -- a live block stays live unless it is the one freed, which is now freed
      by_cases he : v.block y k' = v.block s k
      · obtain ⟨rfl, rfl⟩ := (hI.block_eq_iff hs hy hk hk').mp he
        refine Or.inr (Or.inl ?_)
        rw [Function.update_self]
        exact Finset.mem_insert_self _ _
      · exact Or.inr (Or.inr (Or.inl (Finset.mem_erase.mpr ⟨he, hm⟩)))
    · exact Or.inr (Or.inr (Or.inr hm))

theorem Inv.free_listed (hI : Inv A v L live) {s k : ℕ} (hs : v.Carved A s)
    (hk : k < nblocks (v.slabs s).blockSize) (hp : v.block s k ∈ live) (hsL : ListFamily.Mem L s) :
    let fr := (v.slabs s).free (payloadOffset + (v.slabs s).blockSize * k)
    fr.2 = 0 ∧ Inv A { v with slabs := Function.update v.slabs s fr.1 } L (live.erase (v.block s k)) := by
  intro fr
  obtain ⟨ic, hm⟩ := hsL
  obtain ⟨-, -, -, hst⟩ := hI.listed ic s hm
  obtain ⟨hrep, havail, hfreed, -⟩ := hI.free_slab hs hk hp
  refine ⟨free_snd_of_owned _ _ hst, ?_⟩
  set v' : View := { v with slabs := Function.update v.slabs s fr.1 }
  have hslabs : v'.slabs = Function.update v.slabs s fr.1 := rfl
  have hother : ∀ y, y ≠ s → v'.slabs y = v.slabs y := fun y h => Function.update_of_ne h _ _
  have hself : v'.slabs s = fr.1 := Function.update_self ..
  have hbs : ∀ y, (v'.slabs y).blockSize = (v.slabs y).blockSize :=
    View.blockSize_of_slabs hslabs (free_blockSize _ _)
  have hst' : ∀ y, (v'.slabs y).state = (v.slabs y).state :=
    View.state_of_slabs hslabs (free_state _ _)
  have hnext : v'.nextOf = v.nextOf := by
    rw [View.nextOf_of_slabs hslabs, free_next]
    exact Function.update_eq_self_iff.mpr rfl
  have havail' : v'.avail = v.avail := by
    rw [View.avail_of_slabs hslabs, havail]
    exact Function.update_eq_self_iff.mpr rfl
  have hfreed' : v'.freed = Function.update v.freed s (insert k (v.freed s)) := by
    rw [View.freed_of_slabs hslabs, hfreed]
  have hcarved : v'.Carved A = v.Carved A := rfl
  have hcaches : v'.caches = v.caches := rfl
  obtain ⟨hlb, hlc, haf, hff, hcov⟩ := hI.erase_block hs hk hp hcarved hbs hcaches havail' hfreed'
  have hmono : ∀ y, v.Carved A y →
      v'.Carved A y ∧ (v'.slabs y).blockSize = (v.slabs y).blockSize := fun y hy => ⟨hy, hbs y⟩
  refine
    { hI with
      fresh := fun y hy => (hother y fun e => hy (e ▸ hs)).trans (hI.fresh y hy)
      rep := fun y hy => ?_
      sized := fun y hy => hbs y ▸ hI.sized y hy
      chain := hnext ▸ hI.chain
      listed := fun ic' y hy => ?_
      unlisted := fun y hy hnl => ?_
      cached_block := fun ic' q hq =>
        ⟨(hI.cached_block ic' q hq).1, (hI.cached_block ic' q hq).2.mono hmono⟩
      live_block := hlb
      live_cached := hlc
      available_free := haf
      freed_free := hff
      cover := hcov }
  · by_cases h : y = s
    · subst h
      rw [hself]
      exact hrep
    · rw [hother y h]
      exact hI.rep y hy
  · rw [hst' y, hbs y]
    exact hI.listed ic' y hy
  · -- the slab freed into is listed, so this is another one
    have hys : y ≠ s := fun e => hnl ⟨ic, e ▸ hm⟩
    rw [hst' y, havail', hfreed', Function.update_of_ne hys]
    exact hI.unlisted y hy hnl

theorem Inv.reclaim (hI : Inv A v L live) {s k : ℕ} {ic : ℕ × ℕ} (hs : v.Carved A s)
    (hk : k < nblocks (v.slabs s).blockSize) (hp : v.block s k ∈ live)
    (hnl : ¬ListFamily.Mem L s) (hic : InRange ic) (hbic : (v.slabs s).blockSize = classSize ic.1) :
    let fr := (v.slabs s).free (payloadOffset + (v.slabs s).blockSize * k)
    fr.2 ≠ 0 ∧ fr.1.setOwned.2 ≠ 0 ∧
      Inv A
        ({ v with slabs := Function.update v.slabs s { fr.1.setOwned.1 with next := 0 } }.append ic s)
        (Function.update L ic (L ic ++ [s])) (live.erase (v.block s k)) := by
  intro fr
  obtain ⟨hst, -, hF⟩ := hI.unlisted s hs hnl
  obtain ⟨hrep, havail, hfreed, -⟩ := hI.free_slab hs hk hp
  have hown : fr.1.setOwned = ({ fr.1 with state := OWNED }, 1) :=
    setOwned_of_unowned (by rw [free_state]; exact hst)
  refine ⟨by rw [free_snd_of_unowned _ (hI.blockSize_pos hs) hst hF]; decide,
    by rw [hown]; exact one_ne_zero, ?_⟩
  rw [hown]
  set x : ObjSlab := { ({ fr.1 with state := OWNED }, 1).1 with next := 0 }
  set v₁ : View := { v with slabs := Function.update v.slabs s x }
  have hslabs : v₁.slabs = Function.update v.slabs s x := rfl
  have hother : ∀ y, y ≠ s → v₁.slabs y = v.slabs y := fun y h => Function.update_of_ne h _ _
  have hself : v₁.slabs s = x := Function.update_self ..
  have hnext₁ : v₁.nextOf = Function.update v.nextOf s 0 := View.nextOf_of_slabs hslabs
  have hchain₁ : ∀ ic', Chain v₁.nextOf 0 (v₁.heads ic') (L ic') := fun ic' =>
    (hI.chain ic').congr fun y hy => by
      rw [hnext₁]
      exact Function.update_of_ne (fun e : y = s => hnl ⟨ic', e ▸ hy⟩) _ _
  have hsnext : v₁.nextOf s = 0 := by rw [hnext₁, Function.update_self]
  obtain ⟨hchain', htail', hdist'⟩ :=
    View.lists_append ic hchain₁ hI.tail hI.lists_distinct hs.ne_zero hnl hsnext
  set v' := v₁.append ic s
  have hslab' : ∀ y, v'.slabs y = { v₁.slabs y with next := v'.nextOf y } := View.slabs_append
  have hcarved : v'.Carved A = v.Carved A := View.carved_append
  have hcur : v'.currentSlab = v.currentSlab := View.currentSlab_append
  have hcaches : v'.caches = v.caches := View.caches_append
  have hbs' : ∀ y, (v'.slabs y).blockSize = (v.slabs y).blockSize := fun y => by
    rw [hslab' y]
    exact View.blockSize_of_slabs hslabs (free_blockSize _ _) y
  have havail' : v'.avail = v.avail := by
    rw [View.avail_append, View.avail_of_slabs hslabs]
    exact Function.update_eq_self_iff.mpr havail
  have hfreed' : v'.freed = Function.update v.freed s (insert k (v.freed s)) := by
    rw [View.freed_append, View.freed_of_slabs hslabs]
    exact congrArg _ hfreed
  obtain ⟨hlb, hlc, haf, hff, hcov⟩ :=
    hI.erase_block hs hk hp hcarved hbs' hcaches havail' hfreed'
  have hmono : ∀ y, v.Carved A y →
      v'.Carved A y ∧ (v'.slabs y).blockSize = (v.slabs y).blockSize := fun y hy =>
    ⟨hcarved ▸ hy, hbs' y⟩
  refine
    { start_le := hcur ▸ hI.start_le
      current_le := hcur ▸ hI.current_le
      current_mod := hcur ▸ hI.current_mod
      fresh := fun y hy => ?_
      rep := fun y hy => ?_
      sized := fun y hy => hbs' y ▸ hI.sized y (hcarved ▸ hy)
      chain := hchain'
      tail := htail'
      lists_distinct := hdist'
      listed := fun ic' y hy => ?_
      unlisted := fun y hy hnl' => ?_
      cache_bound := hcaches ▸ hI.cache_bound
      cached_block := fun ic' q hq => by
        rw [hcaches] at hq
        exact ⟨(hI.cached_block ic' q hq).1, (hI.cached_block ic' q hq).2.mono hmono⟩
      cached_distinct := hcaches ▸ hI.cached_distinct
      live_block := hlb
      live_cached := hlc
      available_free := haf
      freed_free := hff
      cover := hcov }
  · rw [hcarved] at hy
    have hys : y ≠ s := fun e => hy (e ▸ hs)
    have hyL : y ∉ L ic := fun h => hy (hI.listed ic y h).2.1
    rw [View.slabs_append_of_not_mem (hchain₁ ic) (hI.tail ic) hyL, hother y hys]
    exact hI.fresh y hy
  · rw [hcarved] at hy
    rw [hslab' y]
    by_cases h : y = s
    · subst h
      rw [hself]
      exact rep_with_next_state hrep _ _
    · rw [hother y h]
      exact rep_with_next_state (hI.rep y hy) _ _
  · by_cases h : ic' = ic ∧ y = s
    · obtain ⟨rfl, rfl⟩ := h
      refine ⟨hic, hcarved ▸ hs, (hbs' y).trans hbic, ?_⟩
      rw [hslab' y]
      show (v₁.slabs y).state = OWNED
      rw [hself]
    · -- every other slab was on the same list before
      have hy' : y ∈ L ic' ∧ y ≠ s := by
        by_cases hic' : ic' = ic
        · subst hic'
          rw [Function.update_self, List.mem_append, List.mem_singleton] at hy
          rcases hy with hy | hy
          · exact ⟨hy, fun e => hnl ⟨ic', e ▸ hy⟩⟩
          · exact absurd ⟨rfl, hy⟩ h
        · rw [Function.update_of_ne hic'] at hy
          exact ⟨hy, fun e => hnl ⟨ic', e ▸ hy⟩⟩
      obtain ⟨hic', hc, hb, hst''⟩ := hI.listed ic' y hy'.1
      rw [hslab' y]
      show InRange ic' ∧ v'.Carved A y ∧ (v₁.slabs y).blockSize = classSize ic'.1 ∧
        (v₁.slabs y).state = OWNED
      rw [hother y hy'.2]
      exact ⟨hic', hcarved ▸ hc, hb, hst''⟩
  · rw [hcarved] at hy
    have hys : y ≠ s := fun e =>
      hnl' ⟨ic, by rw [e, Function.update_self]; exact List.mem_append_right _ (List.mem_singleton_self _)⟩
    have hnl'' : ¬ListFamily.Mem L y := fun hm => hnl' (mem_update_append.mpr (Or.inl hm))
    rw [hslab' y, havail', hfreed', Function.update_of_ne hys]
    show (v₁.slabs y).state = UNOWNED ∧ _
    rw [hother y hys]
    exact hI.unlisted y hy hnl''

end Free

end NCMalloc
