import NCMalloc.Allocator.Safety

/-!
# How many passes `_allocate_inner` makes

Run by one thread on its own CPU, the `while (1)` loop of `_allocate_inner` ends within the
length of the CPU's available list of the class plus two passes. A pass that does not return
either sends a freshly carved slab, from which the next pass takes a block, or takes a full
head off the list, which `_try_release` gives up or sends back to the tail with its freed
blocks available. `passesNeeded` counts what is left: a pass for each full slab at the front
of the list, one to take a block, and one more to carve a slab when the list runs out. Every
pass that loops lowers it.
-/

namespace NCMalloc

open ObjSlab

/-! ## The measure -/

/-- The passes the loop needs on a list whose slabs have the available sets `avail`. -/
def passesNeeded (avail : ℕ → Finset ℕ) : List ℕ → ℕ
  | [] => 2
  | s :: rest => if avail s = ∅ then passesNeeded avail rest + 1 else 1

section PassesNeeded

variable (avail : ℕ → Finset ℕ)

theorem passesNeeded_pos (l : List ℕ) : 0 < passesNeeded avail l := by
  cases l with
  | nil => exact Nat.two_pos
  | cons s rest =>
    rw [passesNeeded]
    split_ifs <;> omega

theorem passesNeeded_le_length (l : List ℕ) : passesNeeded avail l ≤ l.length + 2 := by
  induction l with
  | nil => exact le_refl 2
  | cons s rest ih =>
    rw [passesNeeded, List.length_cons]
    split_ifs <;> omega

theorem passesNeeded_append_of_ne {s : ℕ} (hs : avail s ≠ ∅) (l : List ℕ) :
    passesNeeded avail (l ++ [s]) ≤ passesNeeded avail l := by
  induction l with
  | nil =>
    rw [List.nil_append, passesNeeded, passesNeeded, if_neg hs]
    decide
  | cons t rest ih =>
    rw [List.cons_append, passesNeeded, passesNeeded]
    split_ifs <;> omega

theorem passesNeeded_congr {avail' : ℕ → Finset ℕ} {l : List ℕ}
    (h : ∀ y ∈ l, avail' y = avail y) : passesNeeded avail' l = passesNeeded avail l := by
  induction l with
  | nil => rfl
  | cons s rest ih =>
    rw [passesNeeded, passesNeeded, h s List.mem_cons_self,
      ih fun y hy => h y (List.mem_cons_of_mem s hy)]

end PassesNeeded

/-! ## One pass -/

theorem sendSlab_availableSlots (h : Heap) (x : ℕ) (sm : BitVec 64) (cpu y : ℕ) :
    ((sendSlab h x sm cpu).slabs y).availableSlots = (h.slabs y).availableSlots := by
  dsimp only [sendSlab]
  split_ifs
  · rfl
  · show (Function.update h.slabs _ _ y).availableSlots = _
    rw [Function.update_apply]
    split_ifs with hy
    · rw [hy]
    · rfl

/-- The list of class `sizeIdx` on `cpu` is empty and the bump pointer has reached `end`:
where `_allocate_inner` returns `NULL`. -/
def Exhausted (A : Region) (sizeIdx : BitVec 32) (cpu : ℕ) (h : Heap) : Prop :=
  (h.mem (smAddr NPROCS A.m sizeIdx.toNat cpu)).toNat = 0 ∧ A.regionEnd ≤ h.currentSlab

section Pass

variable {A : Region} {h : Heap} {L : ℕ × ℕ → List ℕ} {live : Finset ℕ} {sizeIdx : BitVec 32}
  {cpu : ℕ} (hI : Inv A (h.view A) L live) (hic : InRange (sizeIdx.toNat, cpu))
include hI hic

/-- One pass of `_allocate_inner`'s loop: it returns `NULL` only on an exhausted region, and a
pass that loops leaves the accounting for lists that need fewer passes. -/
theorem Inv.pass_progress :
    match allocateInnerPass A h sizeIdx cpu with
    | .done h' ret => ret = 0 → Exhausted A sizeIdx cpu h'
    | .loop h' => ∃ L', Inv A (h'.view A) L' live ∧
        passesNeeded (h'.view A).avail (L' (sizeIdx.toNat, cpu)) <
          passesNeeded (h.view A).avail (L (sizeIdx.toNat, cpu)) := by
  have hhead := heads_of_inRange (A := A) (h := h) hic
  by_cases h0 : (h.mem (smAddr NPROCS A.m sizeIdx.toNat cpu)).toNat = 0
  · have hL : L (sizeIdx.toNat, cpu) = [] :=
      (hI.chain _).head_eq_null_iff.mp (by rw [hhead]; exact h0)
    by_cases hoom : A.regionEnd ≤ h.currentSlab
    · rw [pass_of_oom A h sizeIdx cpu h0 hoom]
      exact fun _ => ⟨h0, hoom⟩
    · -- the carved slab has every block available, so the next pass takes one
      rw [pass_of_carve A h sizeIdx cpu h0 (not_le.mp hoom)]
      refine ⟨_, hI.pass_carve hic h0 (not_le.mp hoom), ?_⟩
      have hnc : ¬(h.view A).Carved A h.currentSlab := fun hc => lt_irrefl _ hc.2.2
      have hvalid := classSize_valid hic.1
      rw [classSize_toNat] at hvalid
      have havail : slotsOf (objSlab (h.slabs h.currentSlab) (idxToSize sizeIdx).toNat).availableSlots =
          Finset.range (nblocks (idxToSize sizeIdx).toNat) := by
        have hz : h.slabs h.currentSlab = zeroed := hI.fresh _ hnc
        rw [hz]
        exact slotsOf_objSlab zeroed hvalid fun _ => rfl
      have hne : Finset.range (nblocks (idxToSize sizeIdx).toNat) ≠ ∅ :=
        Finset.nonempty_iff_ne_empty.mp
          (Finset.nonempty_range_iff.mpr (Nat.one_le_iff_ne_zero.mp (nblocks_bounds hvalid).1))
      rw [Function.update_self, hL, passesNeeded, passesNeeded, if_neg]
      · exact Nat.one_lt_two
      · show slotsOf ((sendSlab _ h.currentSlab (smBaseOf A sizeIdx) cpu).slabs
          h.currentSlab).availableSlots ≠ ∅
        rw [sendSlab_availableSlots]
        show slotsOf (Function.update h.slabs h.currentSlab _ h.currentSlab).availableSlots ≠ ∅
        rw [Function.update_self, havail]
        exact hne
  · -- the list starts at the head `s`
    have hne : (h.view A).heads (sizeIdx.toNat, cpu) ≠ 0 := by rwa [hhead]
    obtain ⟨rest, hL⟩ := hI.exists_head hne
    rw [hhead] at hL
    set s := (h.mem (smAddr NPROCS A.m sizeIdx.toNat cpu)).toNat
    obtain ⟨-, hs, -, -⟩ := hI.listed _ s (by rw [hL]; exact List.mem_cons_self)
    by_cases hA : (h.view A).avail s = ∅
    · rw [pass_of_full A h sizeIdx cpu h0 (allocate_of_avail_empty hA cpu)]
      obtain ⟨hrot, hdrop⟩ := hI.pass_full hic hL hA
      obtain ⟨-, -, -, hempty, hfreed⟩ := hI.release hs hA
      have hneed : passesNeeded (h.view A).avail (L (sizeIdx.toNat, cpu)) =
          passesNeeded (h.view A).avail rest + 1 := by
        rw [hL, passesNeeded, if_pos hA]
      have hsrest : s ∉ rest := (List.nodup_cons.mp (hL ▸ hI.lists_distinct.nodup _)).1
      have hother : ∀ (S : ℕ → ObjSlab) (x : ObjSlab),
          (∀ y, (S y).availableSlots = (Function.update h.slabs s x y).availableSlots) →
          ∀ y ∈ rest, slotsOf (S y).availableSlots = (h.view A).avail y := by
        intro S x hS y hy
        rw [hS y, Function.update_of_ne (fun (e : y = s) => hsrest (e ▸ hy))]
        rfl
      split_ifs with hrel
      · -- sent back with its freed blocks available
        refine ⟨_, hrot hrel, ?_⟩
        have hF : (h.view A).freed s ≠ ∅ := fun hF => by
          rw [hempty hF] at hrel
          exact one_ne_zero hrel
        obtain ⟨-, -, hravail, -⟩ := hfreed hF
        rw [Function.update_self, hneed]
        set v' := (sendSlab _ s (smBaseOf A sizeIdx) cpu).view A
        have hsv : v'.avail s = (h.view A).freed s := by
          show slotsOf ((sendSlab _ s (smBaseOf A sizeIdx) cpu).slabs s).availableSlots = _
          rw [sendSlab_availableSlots]
          show slotsOf (Function.update (_ : ℕ → ObjSlab) s _ s).availableSlots = _
          rw [Function.update_self]
          exact hravail
        have hrest : ∀ y ∈ rest, v'.avail y = (h.view A).avail y := by
          refine hother _ { ({ h.slabs s with availableVecs := 0#64 } : ObjSlab).tryRelease.1 with
            next := 0 } fun y => ?_
          show ((sendSlab _ s (smBaseOf A sizeIdx) cpu).slabs y).availableSlots = _
          rw [sendSlab_availableSlots]
          exact congrArg (fun S : ℕ → ObjSlab => (S y).availableSlots) (Function.update_idem ..)
        calc passesNeeded v'.avail (rest ++ [s]) ≤ passesNeeded v'.avail rest :=
              passesNeeded_append_of_ne _ (hsv ▸ hF) rest
          _ = passesNeeded (h.view A).avail rest := passesNeeded_congr _ hrest
          _ < passesNeeded (h.view A).avail rest + 1 := Nat.lt_succ_self _
      · -- given up
        refine ⟨_, hdrop hrel, ?_⟩
        rw [Function.update_self, hneed]
        exact lt_of_eq_of_lt (passesNeeded_congr _ (hother _ _ fun _ => rfl)) (Nat.lt_succ_self _)
    · -- a block is taken: its address lies past the slab's header
      obtain ⟨k, hk, av, slots, hres, -, -⟩ := allocate_of_avail_ne (hI.rep s hs) hA cpu
      rw [pass_of_success A h sizeIdx cpu h0 hres (slot_lt_successBound hk)]
      intro hret
      have hpay : payloadOffset = 1280 := rfl
      omega

end Pass

/-! ## Whole calls -/

section Calls

variable {A : Region} {sizeIdx : BitVec 32} {cpu : ℕ}

theorem allocateInner_add {fuel : ℕ} {h : Heap} {r : Heap × ℕ}
    (hr : allocateInner A fuel h sizeIdx cpu = some r) (k : ℕ) :
    allocateInner A (fuel + k) h sizeIdx cpu = some r := by
  induction fuel generalizing h with
  | zero => simp [allocateInner] at hr
  | succ n ih =>
    rw [Nat.add_right_comm, allocateInner]
    rw [allocateInner] at hr
    cases hp : allocateInnerPass A h sizeIdx cpu with
    | done h' ret => rwa [hp] at hr
    | loop h' =>
      rw [hp] at hr
      exact ih hr

/-- From the accounting, `_allocate_inner` returns within the passes its list needs: by
induction on the passes, each that loops lowering the count. -/
theorem Inv.allocateInner_returns {h : Heap} {L : ℕ × ℕ → List ℕ} {live : Finset ℕ}
    (hI : Inv A (h.view A) L live) (hic : InRange (sizeIdx.toNat, cpu)) {fuel : ℕ}
    (hfuel : passesNeeded (h.view A).avail (L (sizeIdx.toNat, cpu)) ≤ fuel) :
    ∃ h' ret, allocateInner A fuel h sizeIdx cpu = some (h', ret) ∧
      (ret = 0 → Exhausted A sizeIdx cpu h') := by
  induction fuel generalizing h L with
  | zero => exact absurd hfuel (Nat.not_le.mpr (passesNeeded_pos _ _))
  | succ n ih =>
    have hpass := hI.pass_progress hic
    rw [allocateInner]
    cases hp : allocateInnerPass A h sizeIdx cpu with
    | done h' ret =>
      rw [hp] at hpass
      exact ⟨h', ret, rfl, hpass⟩
    | loop h' =>
      rw [hp] at hpass
      obtain ⟨L', hI', hlt⟩ := hpass
      exact ih hI' (by omega)

/-- In every state a sequence of operations reaches from a fresh allocator, for every class on
every CPU, `_allocate_inner` returns within the length of the CPU's available list of the class
plus two passes, and the same with more; it returns `NULL` only when that list is empty and the
bump pointer has reached `end`. The list is the one the accounting invariant reads off the
heap, which exists. -/
theorem allocateInner_within_list_length {w : World} (hw : w.Reachable A)
    (hic : InRange (sizeIdx.toNat, cpu)) :
    (∃ L, Inv A (w.heap.view A) L w.live) ∧
      ∀ L, Inv A (w.heap.view A) L w.live → ∃ h' ret,
        (∀ fuel, (L (sizeIdx.toNat, cpu)).length + 2 ≤ fuel →
          allocateInner A fuel w.heap sizeIdx cpu = some (h', ret)) ∧
        (ret = 0 → Exhausted A sizeIdx cpu h') := by
  refine ⟨StateMachine.Reachable.invariant (I := World.Accounted A) (World.accounted_init A)
    (fun _ _ h hs => World.accounted_step h hs) hw, fun L hI => ?_⟩
  obtain ⟨h', ret, hres, hnull⟩ :=
    hI.allocateInner_returns hic (passesNeeded_le_length _ (L (sizeIdx.toNat, cpu)))
  refine ⟨h', ret, fun fuel hfuel => ?_, hnull⟩
  obtain ⟨k, rfl⟩ := Nat.exists_eq_add_of_le hfuel
  exact allocateInner_add hres k

theorem allocateInner_within_list_length_first :
    InRange ((0#32).toNat, 0) ∧
      (∃ L, Inv World.mebibyte (World.firstWorld.heap.view World.mebibyte) L World.firstWorld.live) ∧
      ∀ L, Inv World.mebibyte (World.firstWorld.heap.view World.mebibyte) L World.firstWorld.live →
        ∃ h' ret,
        (∀ fuel, (L ((0#32).toNat, 0)).length + 2 ≤ fuel →
          allocateInner World.mebibyte fuel World.firstWorld.heap 0#32 0 = some (h', ret)) ∧
        (ret = 0 → Exhausted World.mebibyte 0#32 0 h') :=
  ⟨⟨by decide, by decide⟩,
    allocateInner_within_list_length World.firstWorld_reachable ⟨by decide, by decide⟩⟩

end Calls

end NCMalloc
