import NCMalloc.Allocator.SlabInvariant

/-!
# Sequential runs of one slab

A run starts from `obj_slab(b)` on zeroed memory and applies the slab's operations one at a
time: `_allocate` on the owning CPU, `_free` of a slot it handed out, `_try_release` right
after `_allocate` returned `FULL`, and `_set_owned`. Two pieces of ghost state follow the run:
the slots handed out and not freed since, and whether the last operation returned `FULL`.
Over every run the representation invariant holds and the three slot sets partition the
slab's slots.
-/

namespace NCMalloc

open StateMachine

namespace ObjSlab

theorem successBound_toNat : SUCCESS_BOUND.toNat = 4096 := by decide

theorem full_toNat : FULL.toNat = 4097 := by decide

theorem slot_toNat {n : ℕ} (hn : n < 4096) : (BitVec.ofNat 64 n).toNat = n := by
  rw [BitVec.toNat_ofNat]
  exact Nat.mod_eq_of_lt (by omega)

/-- A slab with the ghost state of a sequential run. -/
structure SlabRun where
  slab : ObjSlab
  allocated : Finset ℕ
  lastFull : Bool

namespace SlabRun

/-- `obj_slab(b)` on zeroed memory, before any operation. -/
def init (b : ℕ) : SlabRun := ⟨objSlab zeroed b, ∅, false⟩

/-- `_allocate` on the owning CPU; a slot index joins the allocated slots. -/
def allocate (r : SlabRun) (cpu : ℕ) : SlabRun where
  slab := (r.slab.allocate cpu cpu).1
  allocated :=
    if (r.slab.allocate cpu cpu).2 < SUCCESS_BOUND then
      insert (r.slab.allocate cpu cpu).2.toNat r.allocated
    else r.allocated
  lastFull := decide ((r.slab.allocate cpu cpu).2 = FULL)

/-- `_free` of slot `k`, at offset `payload_offset + block_size * k` of the slab. -/
def free (r : SlabRun) (k : ℕ) : SlabRun :=
  ⟨(r.slab.free (payloadOffset + r.slab.blockSize * k)).1, r.allocated.erase k, false⟩

def tryRelease (r : SlabRun) : SlabRun := ⟨r.slab.tryRelease.1, r.allocated, false⟩

def setOwned (r : SlabRun) : SlabRun := ⟨r.slab.setOwned.1, r.allocated, false⟩

end SlabRun

/-- The steps of a sequential run. `_set_owned` may come at any point, which only adds runs. -/
inductive SlabStep : SlabRun → SlabRun → Prop
  | allocate (r : SlabRun) (cpu : ℕ) : SlabStep r (r.allocate cpu)
  | free (r : SlabRun) (k : ℕ) (hk : k ∈ r.allocated) : SlabStep r (r.free k)
  | tryRelease (r : SlabRun) (hfull : r.lastFull = true) : SlabStep r r.tryRelease
  | setOwned (r : SlabRun) : SlabStep r r.setOwned

/-- The invariant of a run of block size `b`: the representation invariant, the available,
freed and allocated slots partition the `nblocks b` slots, and a slab that just reported
`FULL` has an empty summary. -/
structure RunInv (b : ℕ) (r : SlabRun) : Prop where
  blockSize_eq : r.slab.blockSize = b
  rep : Rep r.slab
  available_allocated : Disjoint (slotsOf r.slab.availableSlots) r.allocated
  freed_allocated : Disjoint (slotsOf r.slab.freedSlots) r.allocated
  cover : slotsOf r.slab.availableSlots ∪ slotsOf r.slab.freedSlots ∪ r.allocated =
    Finset.range (nblocks b)
  full : r.lastFull = true → r.slab.availableVecs = 0#64

section RunInv

variable {b : ℕ} {r : SlabRun}

theorem runInv_init (hb : ValidBlockSize b) : RunInv b (SlabRun.init b) where
  blockSize_eq := rfl
  rep := rep_objSlab_zeroed hb
  available_allocated := Finset.disjoint_empty_right _
  freed_allocated := Finset.disjoint_empty_right _
  cover := by
    have hfreed : slotsOf (objSlab zeroed b).freedSlots = ∅ :=
      slotsOf_eq_empty_iff.mpr fun _ => rfl
    simp only [SlabRun.init, slotsOf_objSlab zeroed hb (fun _ => rfl), hfreed,
      Finset.union_empty]
  full h := absurd h Bool.false_ne_true

/-- Moving slot `x` from the available set to the allocated set keeps the union. -/
private theorem union_move_available {A F G : Finset ℕ} {x : ℕ} (hx : x ∈ A) :
    A.erase x ∪ F ∪ insert x G = A ∪ F ∪ G := by
  ext y
  simp only [Finset.mem_union, Finset.mem_erase, Finset.mem_insert]
  by_cases hy : y = x
  · subst hy
    simp [hx]
  · simp [hy]

/-- Moving slot `k` from the allocated set to the freed set keeps the union. -/
private theorem union_move_freed {A F G : Finset ℕ} {k : ℕ} (hk : k ∈ G) :
    A ∪ insert k F ∪ G.erase k = A ∪ F ∪ G := by
  ext y
  simp only [Finset.mem_union, Finset.mem_erase, Finset.mem_insert]
  by_cases hy : y = k
  · subst hy
    simp [hk]
  · simp [hy]

theorem runInv_allocate (h : RunInv b r) (cpu : ℕ) : RunInv b (r.allocate cpu) := by
  rcases allocate_cases r.slab cpu with ⟨hempty, hres⟩ | ⟨v, -, hw, hbelow, av, hav, hres⟩
  · -- `FULL`: only the summary is emptied, and no slot is handed out
    have hnot : ¬FULL < SUCCESS_BOUND := by decide
    simp only [SlabRun.allocate, hres, hnot, if_false, decide_true]
    exact ⟨h.blockSize_eq, rep_allocate_full h.rep hempty, h.available_allocated,
      h.freed_allocated, h.cover, fun _ => rfl⟩
  · -- slot `x` moves from the available set to the allocated set
    set x := 64 * v.val + (r.slab.availableSlots v).ctz.toNat with hx_def
    have hxA : x ∈ slotsOf r.slab.availableSlots := slot_mem_slotsOf (BitVec.ctz_mem_bitset hw)
    have hx4 : x < 4096 := (mem_slotsOf.mp hxA).1
    have hlt : BitVec.ofNat 64 x < SUCCESS_BOUND := by
      rw [BitVec.lt_def, slot_toNat hx4, successBound_toNat]
      exact hx4
    have hne : BitVec.ofNat 64 x ≠ FULL := fun he => by
      have := congrArg BitVec.toNat he
      rw [slot_toNat hx4, full_toNat] at this
      omega
    simp only [SlabRun.allocate, hres, hlt, if_true, hne, decide_false, slot_toNat hx4]
    have hA' : slotsOf (Function.update r.slab.availableSlots v
        (BitVec.blsr (r.slab.availableSlots v))) = (slotsOf r.slab.availableSlots).erase x :=
      slotsOf_update_blsr _ hw
    refine ⟨h.blockSize_eq, rep_allocate_take h.rep hw hbelow hav, ?_, ?_, ?_,
      fun hf => absurd hf Bool.false_ne_true⟩
    · rw [hA']
      exact Finset.disjoint_insert_right.mpr ⟨Finset.notMem_erase x _,
        Finset.disjoint_of_subset_left (Finset.erase_subset _ _) h.available_allocated⟩
    · exact Finset.disjoint_insert_right.mpr
        ⟨Finset.disjoint_left.mp h.rep.disjoint hxA, h.freed_allocated⟩
    · rw [hA', union_move_available hxA]
      exact h.cover

theorem runInv_free (h : RunInv b r) (hb : ValidBlockSize b) {k : ℕ} (hk : k ∈ r.allocated) :
    RunInv b (r.free k) := by
  have hbs : ValidBlockSize r.slab.blockSize := h.blockSize_eq ▸ hb
  have hkn : k < nblocks r.slab.blockSize := by
    rw [h.blockSize_eq, ← Finset.mem_range, ← h.cover]
    exact Finset.mem_union_right _ hk
  have hk4 : k < 4096 := lt_of_lt_of_le hkn (nblocks_bounds hbs).2
  have hb0 : 0 < r.slab.blockSize := by
    unfold ValidBlockSize at hbs
    omega
  have hkA : k ∉ slotsOf r.slab.availableSlots :=
    Finset.disjoint_right.mp h.available_allocated hk
  have hF' := slotsOf_free_freedSlots r.slab hb0 hk4
  refine ⟨?_, rep_free h.rep hbs hkn hkA, ?_, ?_, ?_, fun hf => absurd hf Bool.false_ne_true⟩
  · simp only [SlabRun.free, free_blockSize]
    exact h.blockSize_eq
  · simp only [SlabRun.free, free_availableSlots]
    exact Finset.disjoint_of_subset_right (Finset.erase_subset _ _) h.available_allocated
  · simp only [SlabRun.free, hF']
    exact Finset.disjoint_insert_left.mpr ⟨Finset.notMem_erase k _,
      Finset.disjoint_of_subset_right (Finset.erase_subset _ _) h.freed_allocated⟩
  · simp only [SlabRun.free, hF', free_availableSlots]
    rw [union_move_freed hk]
    exact h.cover

theorem runInv_tryRelease (h : RunInv b r) (hfull : r.lastFull = true) :
    RunInv b r.tryRelease := by
  have hav := h.full hfull
  obtain ⟨hA, hempty, hfreed⟩ := tryRelease_slots h.rep hav
  have hcover := h.cover
  refine ⟨?_, rep_tryRelease h.rep hav, ?_, ?_, ?_, fun hf => absurd hf Bool.false_ne_true⟩
  · simp only [SlabRun.tryRelease, tryRelease_blockSize]
    exact h.blockSize_eq
  all_goals simp only [SlabRun.tryRelease]
  all_goals by_cases hF : slotsOf r.slab.freedSlots = ∅
  · rw [hempty hF]
    exact h.available_allocated
  · rw [(hfreed hF).2.1]
    exact h.freed_allocated
  · rw [hempty hF]
    exact h.freed_allocated
  · rw [(hfreed hF).2.2]
    exact Finset.disjoint_empty_left _
  · rw [hempty hF]
    exact hcover
  · rw [(hfreed hF).2.1, (hfreed hF).2.2, ← hcover, hA]
    simp only [Finset.union_empty, Finset.empty_union]

theorem runInv_setOwned (h : RunInv b r) : RunInv b r.setOwned :=
  ⟨h.blockSize_eq, rep_setOwned h.rep, h.available_allocated, h.freed_allocated, h.cover,
    fun hf => absurd hf Bool.false_ne_true⟩

theorem runInv_step (hb : ValidBlockSize b) (h : RunInv b r) {r' : SlabRun}
    (hs : SlabStep r r') : RunInv b r' := by
  cases hs with
  | allocate cpu => exact runInv_allocate h cpu
  | free k hk => exact runInv_free h hb hk
  | tryRelease hfull => exact runInv_tryRelease h hfull
  | setOwned => exact runInv_setOwned h

theorem runInv_reachable (hb : ValidBlockSize b)
    (hr : Reachable SlabStep (SlabRun.init b) r) : RunInv b r :=
  Reachable.invariant (runInv_init hb) (fun _ _ hi hs => runInv_step hb hi hs) hr

end RunInv

/-- The representation invariant of `obj_slab` over every sequential run from `obj_slab(b)` on
zeroed memory: bits denote slots below `nblocks b`, the summaries are sound, the available,
freed and allocated slots partition the slots, and right after `FULL` `_try_release` either
gives the slab up unchanged or turns the freed set into the available set. -/
theorem slab_run_rep {b : ℕ} (hb : ValidBlockSize b) :
    slotsOf (SlabRun.init b).slab.availableSlots = Finset.range (nblocks b) ∧
    ∀ r, Reachable SlabStep (SlabRun.init b) r →
      (∀ v : Fin 64, ∀ j ∈ (r.slab.availableSlots v).bitset ∪ (r.slab.freedSlots v).bitset,
        64 * v.val + j < nblocks b) ∧
      (∀ v : Fin 64, r.slab.availableSlots v ≠ 0#64 → v.val ∈ r.slab.availableVecs.bitset) ∧
      (∀ v : Fin 64, v.val ∈ r.slab.freedVecs.bitset ↔ r.slab.freedSlots v ≠ 0#64) ∧
      (Disjoint (slotsOf r.slab.availableSlots) (slotsOf r.slab.freedSlots) ∧
        Disjoint (slotsOf r.slab.availableSlots) r.allocated ∧
        Disjoint (slotsOf r.slab.freedSlots) r.allocated ∧
        slotsOf r.slab.availableSlots ∪ slotsOf r.slab.freedSlots ∪ r.allocated =
          Finset.range (nblocks b)) ∧
      (r.lastFull = true →
        (r.slab.tryRelease.2 = 1 ↔ slotsOf r.slab.freedSlots = ∅) ∧
        (slotsOf r.slab.freedSlots = ∅ →
          r.slab.tryRelease.1.state = UNOWNED ∧
          slotsOf r.slab.tryRelease.1.availableSlots = slotsOf r.slab.availableSlots ∧
          slotsOf r.slab.tryRelease.1.freedSlots = slotsOf r.slab.freedSlots) ∧
        (slotsOf r.slab.freedSlots ≠ ∅ →
          r.slab.tryRelease.2 = 0 ∧
          slotsOf r.slab.tryRelease.1.availableSlots = slotsOf r.slab.freedSlots ∧
          slotsOf r.slab.tryRelease.1.freedSlots = ∅)) := by
  refine ⟨slotsOf_objSlab zeroed hb (fun _ => rfl), fun r hr => ?_⟩
  have h := runInv_reachable hb hr
  refine ⟨?_, h.rep.available_vecs, h.rep.freed_vecs,
    ⟨h.rep.disjoint, h.available_allocated, h.freed_allocated, h.cover⟩, fun hfull => ?_⟩
  · intro v j hj
    rw [← h.blockSize_eq]
    rcases Finset.mem_union.mp hj with hj | hj
    · exact h.rep.available_lt _ (slot_mem_slotsOf hj)
    · exact h.rep.freed_lt _ (slot_mem_slotsOf hj)
  · obtain ⟨-, hempty, hfreed⟩ := tryRelease_slots h.rep (h.full hfull)
    refine ⟨⟨fun h1 => ?_, fun hF => by rw [hempty hF]⟩, fun hF => ?_, hfreed⟩
    · -- a release that found freed words returns 0
      by_contra hF
      rw [(hfreed hF).1] at h1
      exact absurd h1 (by decide)
    · rw [hempty hF]
      exact ⟨rfl, rfl, rfl⟩

/-- At block size 144 the constructor leaves 227 available slots, the last word partial. -/
theorem slab_run_rep_144 :
    ValidBlockSize 144 ∧ slotsOf (SlabRun.init 144).slab.availableSlots = Finset.range 227 :=
  ⟨by decide, (slab_run_rep (b := 144) (by decide)).1⟩

end ObjSlab

end NCMalloc
