import NCMalloc.Allocator.SlabRun
import NCMalloc.Allocator.Accounting

/-!
# One slab under concurrent frees

A slab is worked on by one owner thread, of the CPU whose list holds it, and by threads of
any CPU that free its blocks. The owner's `_allocate` is an rseq critical section that reads
and writes only `available_vecs` and `available_slots`, words no free touches, so it is one
step. `_try_release` runs outside any critical section: each of its loads, stores and
`lock`-prefixed read-modify-writes of the slab's words is a step, as is each access of a
`_free` or `_set_owned` made on another CPU. The steps of the threads interleave in any order.

Over every interleaving from a freshly carved slab, the available slots, the freed slots, the
slots handed out and the slots whose free is under way never share a slot, and the slab has
an owner exactly while it is `OWNED`; so `_allocate` never returns a slot that is handed out
or being freed.
-/

namespace NCMalloc

namespace ObjSlab

open StateMachine

/-! ## Threads and steps -/

/-- Where the owner stands: outside `_try_release` (`idle`), or in it before an access of the
slab's words. `rv` is `reclaimed_vecs`, `idx` the word of the current pass, `it` what is left
of `index_iterator` and `rs` the loaded `reclaimed_slots`. -/
inductive ReleasePc
  | idle
  | loadVecs
  | giveUp
  | unsetVecs (rv : BitVec 64)
  | loadWord (rv : BitVec 64) (idx : Fin 64) (it : BitVec 64)
  | unsetWord (rv : BitVec 64) (idx : Fin 64) (it rs : BitVec 64)
  | storeWord (rv : BitVec 64) (idx : Fin 64) (it rs : BitVec 64)
  | storeVecs (rv : BitVec 64)
  deriving DecidableEq, Repr

/-- Where a thread freeing slot `k` stands in `_free` and then `_set_owned`: before the test
of its freed word, before setting its bit (`first` when the word was empty), before setting
the word's summary bit, before reading `state`, before the `lock btr` of `state`. -/
inductive FreePc
  | loadWord (k : ℕ)
  | setSlot (k : ℕ) (first : Bool)
  | setVec (v : Fin 64)
  | readState
  | claim
  deriving DecidableEq, Repr

/-- The slot a freeing thread holds until its bit is set. -/
def FreePc.slot : FreePc → Option ℕ
  | .loadWord k | .setSlot k _ => some k
  | _ => none

/-- The slab, its owner (`none` while no thread owns it), the threads freeing its blocks, and
the slots handed out, a ghost. -/
structure Shared where
  slab : ObjSlab
  owner : Option ReleasePc
  frees : List FreePc
  handed : Finset ℕ

/-- A slab of block size `b` carved from zeroed memory and sent to its owner's list. -/
def Shared.init (b : ℕ) : Shared := ⟨objSlab zeroed b, some .idle, [], ∅⟩

/-- The head of the `do`/`while` loop of `_try_release`: the next word of the iterator, or
the store of `available_vecs`. -/
def nextWord (rv it : BitVec 64) : ReleasePc :=
  if it = 0#64 then .storeVecs rv else .loadWord rv (word (tzcnt it)) (BitVec.blsr it)

/-- One access by one thread. The owner starts `_try_release` whenever it is idle, which only
adds interleavings to those where it follows a `FULL`. -/
inductive ConcStep : Shared → Shared → Prop
  | allocate (st : Shared) (cpu : ℕ) (h : st.owner = some .idle) :
      ConcStep st { st with
        slab := (st.slab.allocate cpu cpu).1
        handed :=
          if (st.slab.allocate cpu cpu).2 < SUCCESS_BOUND then
            insert (st.slab.allocate cpu cpu).2.toNat st.handed
          else st.handed }
  | startRelease (st : Shared) (h : st.owner = some .idle) :
      ConcStep st { st with owner := some .loadVecs }
  | loadVecs (st : Shared) (h : st.owner = some .loadVecs) :
      ConcStep st { st with
        owner := some (if st.slab.freedVecs = 0#64 then .giveUp else .unsetVecs st.slab.freedVecs) }
  | giveUp (st : Shared) (h : st.owner = some .giveUp) :
      ConcStep st { st with slab := { st.slab with state := UNOWNED }, owner := none }
  | unsetVecs (st : Shared) (rv : BitVec 64) (h : st.owner = some (.unsetVecs rv)) :
      ConcStep st { st with
        slab := { st.slab with freedVecs := st.slab.freedVecs &&& ~~~rv }
        owner := some (nextWord rv rv) }
  | loadWord (st : Shared) (rv : BitVec 64) (idx : Fin 64) (it : BitVec 64)
      (h : st.owner = some (.loadWord rv idx it)) :
      ConcStep st { st with owner := some (.unsetWord rv idx it (st.slab.freedSlots idx)) }
  | unsetWord (st : Shared) (rv : BitVec 64) (idx : Fin 64) (it rs : BitVec 64)
      (h : st.owner = some (.unsetWord rv idx it rs)) :
      ConcStep st { st with
        slab := { st.slab with
          freedSlots := Function.update st.slab.freedSlots idx (st.slab.freedSlots idx &&& ~~~rs) }
        owner := some (.storeWord rv idx it rs) }
  | storeWord (st : Shared) (rv : BitVec 64) (idx : Fin 64) (it rs : BitVec 64)
      (h : st.owner = some (.storeWord rv idx it rs)) :
      ConcStep st { st with
        slab := { st.slab with availableSlots := Function.update st.slab.availableSlots idx rs }
        owner := some (nextWord rv it) }
  | storeVecs (st : Shared) (rv : BitVec 64) (h : st.owner = some (.storeVecs rv)) :
      ConcStep st { st with slab := { st.slab with availableVecs := rv }, owner := some .idle }
  | startFree (st : Shared) (k : ℕ) (hk : k ∈ st.handed) :
      ConcStep st { st with frees := .loadWord k :: st.frees, handed := st.handed.erase k }
  | freeLoad (st : Shared) (pre post : List FreePc) (k : ℕ)
      (h : st.frees = pre ++ .loadWord k :: post) :
      ConcStep st { st with
        frees := pre ++ .setSlot k (decide (st.slab.freedSlots (vecOf k) = 0#64)) :: post }
  | setSlot (st : Shared) (pre post : List FreePc) (k : ℕ) (first : Bool)
      (h : st.frees = pre ++ .setSlot k first :: post) :
      ConcStep st { st with
        slab := { st.slab with
          freedSlots := Function.update st.slab.freedSlots (vecOf k)
            (st.slab.freedSlots (vecOf k) ||| 1#64 <<< (k % 64)) }
        frees := if first then pre ++ .setVec (vecOf k) :: post else pre ++ post }
  | setVec (st : Shared) (pre post : List FreePc) (v : Fin 64)
      (h : st.frees = pre ++ .setVec v :: post) :
      ConcStep st { st with
        slab := { st.slab with freedVecs := st.slab.freedVecs ||| 1#64 <<< v.val }
        frees := pre ++ .readState :: post }
  | readState (st : Shared) (pre post : List FreePc) (h : st.frees = pre ++ .readState :: post) :
      ConcStep st { st with
        frees := if st.slab.state = UNOWNED then pre ++ .claim :: post else pre ++ post }
  | claim (st : Shared) (pre post : List FreePc) (h : st.frees = pre ++ .claim :: post) :
      ConcStep st { st with
        slab := { st.slab with state := st.slab.state &&& ~~~1#64 }
        frees := pre ++ post
        owner := if st.slab.state.getLsbD 0 then some .idle else st.owner }

/-! ## Where the slots are -/

/-- The slots freeing threads hold. -/
def pending (frees : List FreePc) : List ℕ := frees.filterMap FreePc.slot

/-- The slots of word `idx` that `rs` marks. -/
def wordSlots (idx : Fin 64) (rs : BitVec 64) : Finset ℕ :=
  slotsOf (Function.update (fun _ => 0#64) idx rs)

/-- The slots `_try_release` has taken out of the freed word and not yet stored as available. -/
def transit : Option ReleasePc → Finset ℕ
  | some (.storeWord _ idx _ rs) => wordSlots idx rs
  | _ => ∅

theorem pending_append_cons (pre post : List FreePc) (f : FreePc) :
    pending (pre ++ f :: post) = pending pre ++ f.slot.toList ++ pending post := by
  cases hf : f.slot <;> simp [pending, List.filterMap_append, hf]

theorem pending_append (pre post : List FreePc) :
    pending (pre ++ post) = pending pre ++ pending post :=
  List.filterMap_append

theorem pending_remove {pre post : List FreePc} {f : FreePc} (hf : f.slot = none) :
    pending (pre ++ f :: post) = pending (pre ++ post) := by
  rw [pending_append_cons, hf, pending_append]
  simp

theorem pending_replace {pre post : List FreePc} {f g : FreePc} (hfg : f.slot = g.slot) :
    pending (pre ++ f :: post) = pending (pre ++ g :: post) := by
  rw [pending_append_cons, pending_append_cons, hfg]

theorem mem_wordSlots {idx : Fin 64} {rs : BitVec 64} {k : ℕ} :
    k ∈ wordSlots idx rs ↔ vecOf k = idx ∧ k < 4096 ∧ k % 64 ∈ rs.bitset := by
  rw [wordSlots, mem_slotsOf_update, mem_slotsOf]
  simp

theorem wordSlots_subset (f : Fin 64 → BitVec 64) (idx : Fin 64) :
    wordSlots idx (f idx) ⊆ slotsOf f := by
  intro k hk
  obtain ⟨rfl, hk, hb⟩ := mem_wordSlots.mp hk
  exact mem_slotsOf.mpr ⟨hk, hb⟩

theorem slotsOf_update_and_not (f : Fin 64 → BitVec 64) (idx : Fin 64) (rs : BitVec 64) :
    slotsOf (Function.update f idx (f idx &&& ~~~rs)) = slotsOf f \ wordSlots idx rs := by
  ext k
  rw [mem_slotsOf_update, Finset.mem_sdiff, mem_slotsOf, mem_wordSlots, BitVec.bitset_and_not]
  by_cases hv : vecOf k = idx
  · subst hv
    simp only [Finset.mem_sdiff, true_and, ne_eq, not_true_eq_false, false_and, or_false]
    tauto
  · simp [hv]

theorem mem_slotsOf_store {f : Fin 64 → BitVec 64} {idx : Fin 64} {rs : BitVec 64} {k : ℕ} :
    k ∈ slotsOf (Function.update f idx rs) ↔
      (k ∈ slotsOf f ∧ vecOf k ≠ idx) ∨ k ∈ wordSlots idx rs := by
  rw [mem_slotsOf_update, mem_wordSlots]
  tauto

theorem transit_nextWord (rv it : BitVec 64) : transit (some (nextWord rv it)) = ∅ := by
  unfold nextWord
  split <;> rfl

theorem nextWord_ne_unsetWord (rv it rv' : BitVec 64) (idx : Fin 64) (it' rs : BitVec 64) :
    nextWord rv it ≠ .unsetWord rv' idx it' rs := by
  unfold nextWord
  split <;> simp

/-! ## The invariant -/

/-- What every interleaving keeps: an owner exactly while the slab is `OWNED`; the available,
freed and handed-out slots, the slots of frees under way and the slots `_try_release` holds in
transit pairwise apart; and the bits `_try_release` loaded still freed until it unsets them. -/
structure ConcInv (st : Shared) : Prop where
  owned : (st.owner ≠ none ∧ st.slab.state = OWNED) ∨ (st.owner = none ∧ st.slab.state = UNOWNED)
  avail_freed : Disjoint (slotsOf st.slab.availableSlots) (slotsOf st.slab.freedSlots)
  avail_handed : Disjoint (slotsOf st.slab.availableSlots) st.handed
  freed_handed : Disjoint (slotsOf st.slab.freedSlots) st.handed
  pending_nodup : (pending st.frees).Nodup
  pending_out : ∀ k ∈ pending st.frees, k ∉ slotsOf st.slab.availableSlots ∧
    k ∉ slotsOf st.slab.freedSlots ∧ k ∉ st.handed ∧ k ∉ transit st.owner
  transit_out : ∀ k ∈ transit st.owner, k ∉ slotsOf st.slab.availableSlots ∧
    k ∉ slotsOf st.slab.freedSlots ∧ k ∉ st.handed
  loaded : ∀ rv idx it rs, st.owner = some (.unsetWord rv idx it rs) →
    wordSlots idx rs ⊆ slotsOf st.slab.freedSlots
  handed_lt : ∀ k ∈ st.handed, k < 4096
  pending_lt : ∀ k ∈ pending st.frees, k < 4096

theorem concInv_init (b : ℕ) : ConcInv (Shared.init b) := by
  have hF : slotsOf (objSlab zeroed b).freedSlots = ∅ := slotsOf_eq_empty_iff.mpr fun _ => rfl
  refine ⟨.inl ⟨by simp [Shared.init], rfl⟩, ?_, ?_, ?_, List.nodup_nil, ?_, ?_, ?_, ?_, ?_⟩
  · rw [Shared.init, hF]
    exact Finset.disjoint_empty_right _
  · exact Finset.disjoint_empty_right _
  · exact Finset.disjoint_empty_right _
  · intro k hk
    cases hk
  · intro k hk
    cases hk
  · intro rv idx it rs h
    cases h
  · intro k hk
    cases hk
  · intro k hk
    cases hk

section Steps

variable {st : Shared}

theorem ConcInv.of_sets {st' : Shared} (hI : ConcInv st)
    (hA : slotsOf st'.slab.availableSlots = slotsOf st.slab.availableSlots)
    (hF : slotsOf st'.slab.freedSlots = slotsOf st.slab.freedSlots)
    (hH : st'.handed = st.handed) (hP : pending st'.frees = pending st.frees)
    (hT : transit st'.owner ⊆ transit st.owner)
    (howned : (st'.owner ≠ none ∧ st'.slab.state = OWNED) ∨
      (st'.owner = none ∧ st'.slab.state = UNOWNED))
    (hloaded : ∀ rv idx it rs, st'.owner = some (.unsetWord rv idx it rs) →
      wordSlots idx rs ⊆ slotsOf st'.slab.freedSlots) : ConcInv st' := by
  refine ⟨howned, ?_, ?_, ?_, ?_, ?_, ?_, hloaded, hH ▸ hI.handed_lt, hP ▸ hI.pending_lt⟩
  · rw [hA, hF]
    exact hI.avail_freed
  · rw [hA, hH]
    exact hI.avail_handed
  · rw [hF, hH]
    exact hI.freed_handed
  · rw [hP]
    exact hI.pending_nodup
  · intro k hk
    rw [hP] at hk
    obtain ⟨h1, h2, h3, h4⟩ := hI.pending_out k hk
    rw [hA, hF, hH]
    exact ⟨h1, h2, h3, fun h => h4 (hT h)⟩
  · intro k hk
    rw [hA, hF, hH]
    exact hI.transit_out k (hT hk)

theorem ConcInv.owned_of_some (hI : ConcInv st) {o : ReleasePc} (h : st.owner = some o) :
    st.slab.state = OWNED := by
  rcases hI.owned with ⟨-, hs⟩ | ⟨hn, -⟩
  · exact hs
  · rw [h] at hn
    cases hn

theorem ConcInv.allocate (hI : ConcInv st) (h : st.owner = some .idle) (cpu : ℕ) :
    ConcInv { st with
      slab := (st.slab.allocate cpu cpu).1
      handed :=
        if (st.slab.allocate cpu cpu).2 < SUCCESS_BOUND then
          insert (st.slab.allocate cpu cpu).2.toNat st.handed
        else st.handed } := by
  have hT : transit st.owner = ∅ := by rw [h]; rfl
  have hown := hI.owned_of_some h
  rcases allocate_cases st.slab cpu with ⟨-, hres⟩ | ⟨v, -, hw, -, av, -, hres⟩
  · -- `FULL`: only the summary changes
    have hnot : ¬FULL < SUCCESS_BOUND := by decide
    simp only [hres, hnot, if_false]
    refine hI.of_sets rfl rfl rfl rfl (subset_refl _) (.inl ⟨by simp [h], hown⟩) ?_
    intro rv idx it rs ho
    simp [h] at ho
  · -- slot `x` of word `v` is handed out
    have hj := BitVec.ctz_toNat_lt hw
    have hx : 64 * v.val + (st.slab.availableSlots v).ctz.toNat < 4096 := by omega
    have hlt : BitVec.ofNat 64 (64 * v.val + (st.slab.availableSlots v).ctz.toNat) < SUCCESS_BOUND := by
      rw [BitVec.lt_def, slot_toNat hx, successBound_toNat]
      exact hx
    have hxA : 64 * v.val + (st.slab.availableSlots v).ctz.toNat ∈ slotsOf st.slab.availableSlots :=
      slot_mem_slotsOf (BitVec.ctz_mem_bitset hw)
    simp only [hres, hlt, if_true, slot_toNat hx]
    have hA := slotsOf_update_blsr st.slab.availableSlots hw
    generalize 64 * v.val + (st.slab.availableSlots v).ctz.toNat = x at hA hxA hx
    have hxF : x ∉ slotsOf st.slab.freedSlots := Finset.disjoint_left.mp hI.avail_freed hxA
    refine ⟨.inl ⟨by simp [h], hown⟩, ?_, ?_, ?_, hI.pending_nodup, ?_, ?_, ?_, ?_,
      hI.pending_lt⟩
    · rw [hA]
      exact Finset.disjoint_of_subset_left (Finset.erase_subset _ _) hI.avail_freed
    · rw [hA, Finset.disjoint_left]
      intro k hk hk'
      obtain ⟨hne, hkA⟩ := Finset.mem_erase.mp hk
      rcases Finset.mem_insert.mp hk' with rfl | hkH
      · exact hne rfl
      · exact Finset.disjoint_left.mp hI.avail_handed hkA hkH
    · rw [Finset.disjoint_left]
      intro k hkF hk'
      rcases Finset.mem_insert.mp hk' with rfl | hkH
      · exact hxF hkF
      · exact Finset.disjoint_left.mp hI.freed_handed hkF hkH
    · intro k hk
      obtain ⟨h1, h2, h3, -⟩ := hI.pending_out k hk
      have hne : k ≠ x := fun he => h1 (he ▸ hxA)
      rw [hA]
      exact ⟨fun hm => h1 (Finset.mem_of_mem_erase hm), h2,
        fun hm => (Finset.mem_insert.mp hm).elim hne h3, by simp [h, transit]⟩
    · intro k hk
      simp [h, transit] at hk
    · intro rv idx it rs ho
      simp [h] at ho
    · intro k hk
      rcases Finset.mem_insert.mp hk with rfl | hkH
      · exact hx
      · exact hI.handed_lt k hkH

theorem ConcInv.unsetWord (hI : ConcInv st) {rv : BitVec 64} {idx : Fin 64} {it rs : BitVec 64}
    (h : st.owner = some (.unsetWord rv idx it rs)) :
    ConcInv { st with
      slab := { st.slab with
        freedSlots := Function.update st.slab.freedSlots idx (st.slab.freedSlots idx &&& ~~~rs) }
      owner := some (.storeWord rv idx it rs) } := by
  have hsub := hI.loaded rv idx it rs h
  have hT : transit st.owner = ∅ := by rw [h]; rfl
  refine ⟨.inl ⟨by simp, hI.owned_of_some h⟩, ?_, hI.avail_handed, ?_, hI.pending_nodup, ?_, ?_, ?_,
    hI.handed_lt, hI.pending_lt⟩
  · dsimp only
    rw [slotsOf_update_and_not]
    exact Finset.disjoint_of_subset_right Finset.sdiff_subset hI.avail_freed
  · dsimp only
    rw [slotsOf_update_and_not]
    exact Finset.disjoint_of_subset_left Finset.sdiff_subset hI.freed_handed
  · intro k hk
    obtain ⟨h1, h2, h3, -⟩ := hI.pending_out k hk
    dsimp only
    rw [slotsOf_update_and_not]
    exact ⟨h1, fun hm => h2 (Finset.mem_sdiff.mp hm).1, h3, fun hm => h2 (hsub hm)⟩
  · -- the slots in transit were freed, so neither available nor handed out
    intro k hk
    have hkF := hsub hk
    dsimp only
    rw [slotsOf_update_and_not]
    exact ⟨fun hm => Finset.disjoint_left.mp hI.avail_freed hm hkF,
      fun hm => (Finset.mem_sdiff.mp hm).2 hk, Finset.disjoint_left.mp hI.freed_handed hkF⟩
  · intro rv' idx' it' rs' ho
    simp at ho

theorem ConcInv.storeWord (hI : ConcInv st) {rv : BitVec 64} {idx : Fin 64} {it rs : BitVec 64}
    (h : st.owner = some (.storeWord rv idx it rs)) :
    ConcInv { st with
      slab := { st.slab with availableSlots := Function.update st.slab.availableSlots idx rs }
      owner := some (nextWord rv it) } := by
  have hT : transit st.owner = wordSlots idx rs := by rw [h]; rfl
  refine ⟨.inl ⟨by simp, hI.owned_of_some h⟩, ?_, ?_, hI.freed_handed, hI.pending_nodup, ?_, ?_, ?_,
    hI.handed_lt, hI.pending_lt⟩
  · rw [Finset.disjoint_left]
    intro k hk hkF
    rcases mem_slotsOf_store.mp hk with ⟨hkA, -⟩ | hkT
    · exact Finset.disjoint_left.mp hI.avail_freed hkA hkF
    · exact (hI.transit_out k (hT ▸ hkT)).2.1 hkF
  · rw [Finset.disjoint_left]
    intro k hk hkH
    rcases mem_slotsOf_store.mp hk with ⟨hkA, -⟩ | hkT
    · exact Finset.disjoint_left.mp hI.avail_handed hkA hkH
    · exact (hI.transit_out k (hT ▸ hkT)).2.2 hkH
  · intro k hk
    obtain ⟨h1, h2, h3, h4⟩ := hI.pending_out k hk
    refine ⟨fun hm => ?_, h2, h3, by simp [transit_nextWord]⟩
    rcases mem_slotsOf_store.mp hm with ⟨hkA, -⟩ | hkT
    · exact h1 hkA
    · exact h4 (hT ▸ hkT)
  · intro k hk
    simp [transit_nextWord] at hk
  · intro rv' idx' it' rs' ho
    simp only [Option.some.injEq] at ho
    unfold nextWord at ho
    split at ho <;> cases ho

theorem ConcInv.startFree (hI : ConcInv st) {k : ℕ} (hk : k ∈ st.handed) :
    ConcInv { st with frees := .loadWord k :: st.frees, handed := st.handed.erase k } := by
  have hkp : k ∉ pending st.frees := fun hm => (hI.pending_out k hm).2.2.1 hk
  have hP : pending (FreePc.loadWord k :: st.frees) = k :: pending st.frees := rfl
  refine ⟨hI.owned, hI.avail_freed, ?_, ?_, ?_, ?_, ?_, hI.loaded, ?_, ?_⟩
  · exact Finset.disjoint_of_subset_right (Finset.erase_subset _ _) hI.avail_handed
  · exact Finset.disjoint_of_subset_right (Finset.erase_subset _ _) hI.freed_handed
  · rw [hP]
    exact List.nodup_cons.mpr ⟨hkp, hI.pending_nodup⟩
  · intro p hp
    rw [hP] at hp
    rcases List.mem_cons.mp hp with rfl | hp
    · exact ⟨fun hm => Finset.disjoint_left.mp hI.avail_handed hm hk,
        fun hm => Finset.disjoint_left.mp hI.freed_handed hm hk, Finset.notMem_erase _ _,
        fun hm => (hI.transit_out p hm).2.2 hk⟩
    · obtain ⟨h1, h2, h3, h4⟩ := hI.pending_out p hp
      exact ⟨h1, h2, fun hm => h3 (Finset.mem_of_mem_erase hm), h4⟩
  · intro t ht
    obtain ⟨h1, h2, h3⟩ := hI.transit_out t ht
    exact ⟨h1, h2, fun hm => h3 (Finset.mem_of_mem_erase hm)⟩
  · exact fun p hp => hI.handed_lt p (Finset.mem_of_mem_erase hp)
  · intro p hp
    rw [hP] at hp
    rcases List.mem_cons.mp hp with rfl | hp
    · exact hI.handed_lt p hk
    · exact hI.pending_lt p hp

theorem ConcInv.setSlot (hI : ConcInv st) {pre post : List FreePc} {k : ℕ} {first : Bool}
    (h : st.frees = pre ++ .setSlot k first :: post) (rest : List FreePc)
    (hrest : pending rest = pending pre ++ pending post) :
    ConcInv { st with
      slab := { st.slab with
        freedSlots := Function.update st.slab.freedSlots (vecOf k)
          (st.slab.freedSlots (vecOf k) ||| 1#64 <<< (k % 64)) }
      frees := rest } := by
  have hP : pending st.frees = pending pre ++ k :: pending post := by
    rw [h, pending_append_cons]
    simp [FreePc.slot]
  have hkmem : k ∈ pending st.frees := by
    rw [hP]
    exact List.mem_append_right _ List.mem_cons_self
  obtain ⟨hkA, hkF, hkH, hkT⟩ := hI.pending_out k hkmem
  have hk := hI.pending_lt k hkmem
  have hF : slotsOf (Function.update st.slab.freedSlots (vecOf k)
      (st.slab.freedSlots (vecOf k) ||| 1#64 <<< (k % 64))) = insert k (slotsOf st.slab.freedSlots) := by
    have hor := slotsOf_update_or st.slab.freedSlots (vecOf k) (Nat.mod_lt k (by norm_num))
    rwa [vecOf_val hk, show 64 * (k / 64) + k % 64 = k by omega] at hor
  have hnodup := hI.pending_nodup
  rw [hP, List.nodup_append, List.nodup_cons] at hnodup
  have hother : ∀ p ∈ pending rest, p ≠ k ∧ p ∈ pending st.frees := by
    intro p hp
    rw [hrest, List.mem_append] at hp
    rw [hP, List.mem_append, List.mem_cons]
    rcases hp with hp | hp
    · exact ⟨fun he => hnodup.2.2 p hp k List.mem_cons_self he, .inl hp⟩
    · exact ⟨fun he => hnodup.2.1.1 (he ▸ hp), .inr (.inr hp)⟩
  refine ⟨hI.owned, ?_, hI.avail_handed, ?_, ?_, ?_, ?_, ?_, hI.handed_lt, ?_⟩
  · dsimp only
    rw [hF, Finset.disjoint_insert_right]
    exact ⟨hkA, hI.avail_freed⟩
  · dsimp only
    rw [hF, Finset.disjoint_insert_left]
    exact ⟨hkH, hI.freed_handed⟩
  · rw [hrest, List.nodup_append]
    refine ⟨hnodup.1, hnodup.2.1.2, fun a ha b hb => hnodup.2.2 a ha b (List.mem_cons_of_mem _ hb)⟩
  · intro p hp
    obtain ⟨hne, hpm⟩ := hother p hp
    obtain ⟨h1, h2, h3, h4⟩ := hI.pending_out p hpm
    dsimp only
    rw [hF, Finset.mem_insert]
    exact ⟨h1, fun hm => hm.elim hne h2, h3, h4⟩
  · intro t ht
    obtain ⟨h1, h2, h3⟩ := hI.transit_out t ht
    have hne : t ≠ k := fun he => hkT (he ▸ ht)
    dsimp only
    rw [hF, Finset.mem_insert]
    exact ⟨h1, fun hm => hm.elim hne h2, h3⟩
  · intro rv idx it rs ho
    dsimp only
    rw [hF]
    exact (hI.loaded rv idx it rs ho).trans (Finset.subset_insert _ _)
  · exact fun p hp => hI.pending_lt p (hother p hp).2

/-- `_set_owned`'s `lock btr` of `state`: the freeing thread that clears the bit of an
`UNOWNED` slab becomes its owner; on an `OWNED` slab it changes nothing. -/
theorem ConcInv.claim (hI : ConcInv st) {pre post : List FreePc}
    (h : st.frees = pre ++ .claim :: post) :
    ConcInv { st with
      slab := { st.slab with state := st.slab.state &&& ~~~1#64 }
      frees := pre ++ post
      owner := if st.slab.state.getLsbD 0 then some .idle else st.owner } := by
  have hP : pending (pre ++ post) = pending st.frees := by
    rw [h, pending_remove rfl]
  rcases hI.owned with ⟨hn, hs⟩ | ⟨hn, hs⟩
  · -- an owner's slab: the bit is already clear
    have hb : st.slab.state.getLsbD 0 = false := by rw [hs]; decide
    have hs' : st.slab.state &&& ~~~1#64 = OWNED := by rw [hs]; decide
    refine hI.of_sets rfl rfl rfl hP ?_ ?_ ?_
    · simp only [hb]
      exact subset_refl _
    · simp only [hb]
      exact .inl ⟨hn, hs'⟩
    · simp only [hb]
      exact hI.loaded
  · -- an unowned slab: the freeing thread takes it, with nothing in transit
    have hb : st.slab.state.getLsbD 0 = true := by rw [hs]; decide
    have hs' : st.slab.state &&& ~~~1#64 = OWNED := by rw [hs]; decide
    refine hI.of_sets rfl rfl rfl hP ?_ ?_ ?_
    · simp only [hb, if_true]
      exact Finset.empty_subset _
    · simp only [hb, if_true]
      exact .inl ⟨by simp, hs'⟩
    · intro rv idx it rs ho
      simp [hb] at ho

/-- Every access of every thread keeps the invariant. -/
theorem ConcInv.step (hI : ConcInv st) {st' : Shared} (hs : ConcStep st st') : ConcInv st' := by
  cases hs with
  | allocate cpu h => exact hI.allocate h cpu
  | startRelease h =>
    refine hI.of_sets rfl rfl rfl rfl (Finset.empty_subset _) (.inl ⟨by simp, hI.owned_of_some h⟩) ?_
    intro rv idx it rs ho
    cases ho
  | loadVecs h =>
    refine hI.of_sets rfl rfl rfl rfl ?_ (.inl ⟨by simp, hI.owned_of_some h⟩) ?_
    · dsimp only
      split <;> exact Finset.empty_subset _
    · intro rv idx it rs ho
      dsimp only at ho
      split at ho <;> cases ho
  | giveUp h =>
    refine hI.of_sets rfl rfl rfl rfl (Finset.empty_subset _) (.inr ⟨rfl, rfl⟩) ?_
    intro rv idx it rs ho
    cases ho
  | unsetVecs rv h =>
    refine hI.of_sets rfl rfl rfl rfl ?_ (.inl ⟨by simp, hI.owned_of_some h⟩) ?_
    · dsimp only
      rw [transit_nextWord]
      exact Finset.empty_subset _
    · intro rv' idx it rs ho
      exact absurd (Option.some.inj ho) (nextWord_ne_unsetWord _ _ _ _ _ _)
  | loadWord rv idx it h =>
    refine hI.of_sets rfl rfl rfl rfl (Finset.empty_subset _) (.inl ⟨by simp, hI.owned_of_some h⟩) ?_
    intro rv' idx' it' rs ho
    cases ho
    exact wordSlots_subset _ _
  | unsetWord rv idx it rs h => exact hI.unsetWord h
  | storeWord rv idx it rs h => exact hI.storeWord h
  | storeVecs rv h =>
    refine hI.of_sets rfl rfl rfl rfl (Finset.empty_subset _) (.inl ⟨by simp, hI.owned_of_some h⟩) ?_
    intro rv' idx it rs ho
    cases ho
  | startFree k hk => exact hI.startFree hk
  | freeLoad pre post k h =>
    refine hI.of_sets rfl rfl rfl ?_ (subset_refl _) hI.owned hI.loaded
    rw [h]
    exact pending_replace rfl
  | setSlot pre post k first h =>
    refine hI.setSlot h _ ?_
    split
    · rw [pending_remove rfl, pending_append]
    · rw [pending_append]
  | setVec pre post v h =>
    refine hI.of_sets rfl rfl rfl ?_ (subset_refl _) hI.owned hI.loaded
    rw [h]
    exact pending_replace rfl
  | readState pre post h =>
    refine hI.of_sets rfl rfl rfl ?_ (subset_refl _) hI.owned hI.loaded
    rw [h]
    split
    · exact pending_replace rfl
    · exact (pending_remove rfl).symm
  | claim pre post h => exact hI.claim h

end Steps

/-! ## Every interleaving -/

theorem ConcInv.of_reachable {b : ℕ} {st : Shared} (hr : Reachable ConcStep (Shared.init b) st) :
    ConcInv st :=
  Reachable.invariant (concInv_init b) (fun _ _ hI hs => hI.step hs) hr

/-- The owner's accesses left before it is idle again or has given the slab up. -/
def ReleasePc.rank : ReleasePc → ℕ
  | .idle => 0
  | .loadVecs => 197
  | .giveUp => 1
  | .unsetVecs rv => 2 + 3 * rv.bitset.card
  | .loadWord _ _ it => 4 + 3 * it.bitset.card
  | .unsetWord _ _ it _ => 3 + 3 * it.bitset.card
  | .storeWord _ _ it _ => 2 + 3 * it.bitset.card
  | .storeVecs _ => 1

/-- The rank of an owner that is not there: none left. -/
def ownerRank (o : Option ReleasePc) : ℕ := (o.map ReleasePc.rank).getD 0

theorem card_bitset_le (x : BitVec 64) : x.bitset.card ≤ 64 := by
  simpa using Finset.card_le_card (BitVec.bitset_subset_range x)

theorem rank_nextWord (rv it : BitVec 64) : (nextWord rv it).rank = 1 + 3 * it.bitset.card := by
  unfold nextWord
  split
  · rename_i h
    subst h
    simp [ReleasePc.rank]
  · rename_i h
    have hc := BitVec.card_bitset_blsr h
    simp only [ReleasePc.rank]
    omega

theorem ReleasePc.rank_le (pc : ReleasePc) : pc.rank ≤ 197 := by
  cases pc with
  | unsetVecs rv =>
    have := card_bitset_le rv
    simp only [ReleasePc.rank]
    omega
  | loadWord _ _ it | unsetWord _ _ it _ | storeWord _ _ it _ =>
    have := card_bitset_le it
    simp only [ReleasePc.rank]
    omega
  | idle | loadVecs | giveUp | storeVecs => simp [ReleasePc.rank]

/-- Where the owner's next access takes it, as the owner steps of `ConcStep` have it. -/
def ownerAfter (st : Shared) : ReleasePc → Option ReleasePc
  | .idle => some .idle
  | .loadVecs =>
    some (if st.slab.freedVecs = 0#64 then .giveUp else .unsetVecs st.slab.freedVecs)
  | .giveUp => none
  | .unsetVecs rv => some (nextWord rv rv)
  | .loadWord rv idx it => some (.unsetWord rv idx it (st.slab.freedSlots idx))
  | .unsetWord rv idx it rs => some (.storeWord rv idx it rs)
  | .storeWord rv _ it _ => some (nextWord rv it)
  | .storeVecs _ => some .idle

theorem rank_ownerAfter (st : Shared) {pc : ReleasePc} (hpc : pc ≠ .idle) :
    ownerRank (ownerAfter st pc) < pc.rank := by
  cases pc with
  | idle => exact absurd rfl hpc
  | loadVecs =>
    have hc := card_bitset_le st.slab.freedVecs
    simp only [ownerAfter, ownerRank, Option.map_some, Option.getD_some]
    split <;> simp only [ReleasePc.rank] <;> omega
  | unsetVecs rv | storeWord rv _ it _ =>
    simp only [ownerAfter, ownerRank, Option.map_some, Option.getD_some]
    rw [rank_nextWord]
    simp only [ReleasePc.rank]
    omega
  | giveUp | loadWord | unsetWord | storeVecs => simp [ownerAfter, ownerRank, ReleasePc.rank]

section Progress

variable {st : Shared} {pc : ReleasePc} (h : st.owner = some pc)
include h

theorem ownerStep_exists (hpc : pc ≠ .idle) :
    ∃ st', ConcStep st st' ∧ st'.owner = ownerAfter st pc ∧ st'.frees = st.frees := by
  cases pc with
  | idle => exact absurd rfl hpc
  | loadVecs => exact ⟨_, .loadVecs st h, rfl, rfl⟩
  | giveUp => exact ⟨_, .giveUp st h, rfl, rfl⟩
  | unsetVecs rv => exact ⟨_, .unsetVecs st rv h, rfl, rfl⟩
  | loadWord rv idx it => exact ⟨_, .loadWord st rv idx it h, rfl, rfl⟩
  | unsetWord rv idx it rs => exact ⟨_, .unsetWord st rv idx it rs h, rfl, rfl⟩
  | storeWord rv idx it rs => exact ⟨_, .storeWord st rv idx it rs h, rfl, rfl⟩
  | storeVecs rv => exact ⟨_, .storeVecs st rv h, rfl, rfl⟩

/-- On an owned slab every step is the owner's next access or leaves the owner where it is:
a freeing thread's `lock btr` of `state` finds the bit clear. -/
theorem ownerStep_or_same (hI : ConcInv st) (hpc : pc ≠ .idle) {st' : Shared}
    (hs : ConcStep st st') : st'.owner = st.owner ∨ st'.owner = ownerAfter st pc := by
  have hown := hI.owned_of_some h
  cases hs with
  | allocate cpu h0 => exact absurd (Option.some.inj (h.symm.trans h0)) hpc
  | startRelease h0 => exact absurd (Option.some.inj (h.symm.trans h0)) hpc
  | claim pre post hf =>
    have hb : st.slab.state.getLsbD 0 = false := by rw [hown]; decide
    left
    simp only [hb, Bool.false_eq_true, if_false]
  | startFree | freeLoad | setSlot | setVec | readState => exact .inl rfl
  | loadVecs h0 | giveUp h0 | unsetVecs rv h0 | loadWord rv idx it h0 | unsetWord rv idx it rs h0
    | storeWord rv idx it rs h0 | storeVecs rv h0 =>
    rw [h] at h0
    cases h0
    exact .inr rfl

end Progress

/-- Over every interleaving from a freshly carved slab, an owner inside `_try_release` is never
held up: its next access is always enabled, every step of any thread either is that access,
which lowers the owner's rank, or leaves the owner where it is, and the rank is at most 197, so
the call ends within 197 accesses of the owner whatever the freeing threads do. -/
theorem release_wait_free (b : ℕ) {st : Shared} (hr : Reachable ConcStep (Shared.init b) st)
    {pc : ReleasePc} (h : st.owner = some pc) (hpc : pc ≠ .idle) :
    pc.rank ≤ 197 ∧ (∃ st', ConcStep st st' ∧ ownerRank st'.owner < pc.rank) ∧
      ∀ st', ConcStep st st' → st'.owner = st.owner ∨ ownerRank st'.owner < pc.rank := by
  have hI := ConcInv.of_reachable hr
  have hlt := rank_ownerAfter st hpc
  refine ⟨pc.rank_le, ?_, fun st' hs => ?_⟩
  · obtain ⟨st', hs, howner, -⟩ := ownerStep_exists h hpc
    exact ⟨st', hs, howner ▸ hlt⟩
  · rcases ownerStep_or_same h hI hpc hs with hsame | hnext
    · exact .inl hsame
    · exact .inr (hnext ▸ hlt)

/-- The slab of block size 144 with its owner about to load `freed_vecs` in `_try_release`. -/
def releasingShared : Shared := { Shared.init 144 with owner := some .loadVecs }

theorem releasingShared_reachable : Reachable ConcStep (Shared.init 144) releasingShared :=
  Reachable.refl.tail (ConcStep.startRelease _ rfl)

theorem release_wait_free_loadVecs :
    releasingShared.owner = some .loadVecs ∧ ReleasePc.loadVecs ≠ .idle ∧
      ReleasePc.loadVecs.rank ≤ 197 ∧
      (∃ st', ConcStep releasingShared st' ∧ ownerRank st'.owner < ReleasePc.loadVecs.rank) ∧
      ∀ st', ConcStep releasingShared st' →
        st'.owner = releasingShared.owner ∨ ownerRank st'.owner < ReleasePc.loadVecs.rank :=
  ⟨rfl, by decide, release_wait_free 144 releasingShared_reachable rfl (by decide)⟩

/-! ## Every operation in flight finishes

No access of the protocol waits for another thread: `_free` and `_set_owned` are straight-line
code around single `lock`-prefixed instructions, and `_try_release` runs over its snapshot.
`work` counts the accesses left to the owner and to every freeing thread; each step lowers it
but the three that start an operation. -/

/-- The accesses a freeing thread has left. -/
def FreePc.rank : FreePc → ℕ
  | .loadWord _ => 5
  | .setSlot _ first => if first then 4 else 1
  | .setVec _ => 3
  | .readState => 2
  | .claim => 1

/-- The accesses left to the owner and to every freeing thread. -/
def work (st : Shared) : ℕ := ownerRank st.owner + (st.frees.map FreePc.rank).sum

/-- The steps that start an operation: `_allocate` and the start of `_try_release` by the idle
owner, which leave the freeing threads as they are, and the start of a `_free`. -/
def Starts (st st' : Shared) : Prop :=
  (st.owner = some .idle ∧ st'.frees = st.frees) ∨
    ∃ k, st'.frees = .loadWord k :: st.frees ∧ st'.owner = st.owner

theorem FreePc.rank_pos (f : FreePc) : 0 < f.rank := by
  cases f with
  | setSlot _ first => cases first <;> simp [FreePc.rank]
  | loadWord | setVec | readState | claim => simp [FreePc.rank]

theorem FreePc.rank_setSlot_lt (k : ℕ) (first : Bool) :
    (FreePc.setSlot k first).rank < (FreePc.loadWord k).rank := by
  cases first <;> simp [FreePc.rank]

theorem FreePc.rank_le (f : FreePc) : f.rank ≤ 5 := by
  cases f with
  | setSlot _ first => cases first <;> simp [FreePc.rank]
  | loadWord | setVec | readState | claim => simp [FreePc.rank]

theorem ownerRank_eq_zero_iff {o : Option ReleasePc} : ownerRank o = 0 ↔ o = none ∨ o = some .idle := by
  rcases o with _ | pc
  · simp [ownerRank]
  · cases pc <;> simp [ownerRank, ReleasePc.rank]

theorem ownerRank_le (o : Option ReleasePc) : ownerRank o ≤ 197 := by
  rcases o with _ | pc
  · simp [ownerRank]
  · exact pc.rank_le

section Work

variable {st st' : Shared}

theorem work_eq_zero_iff :
    work st = 0 ↔ (st.owner = none ∨ st.owner = some .idle) ∧ st.frees = [] := by
  have hsum : (st.frees.map FreePc.rank).sum = 0 ↔ st.frees = [] := by
    simp [List.sum_eq_zero_iff, (FreePc.rank_pos _).ne', List.eq_nil_iff_forall_not_mem]
  rw [work, Nat.add_eq_zero_iff, ownerRank_eq_zero_iff, hsum]

theorem work_le : work st ≤ 197 + 5 * st.frees.length := by
  have hsum : (st.frees.map FreePc.rank).sum ≤ st.frees.length * 5 := by
    simpa using List.sum_le_card_nsmul (st.frees.map FreePc.rank) 5 (by simp [FreePc.rank_le])
  have := ownerRank_le st.owner
  rw [work]
  omega

theorem work_le_of_starts (h : Starts st st') : work st ≤ work st' := by
  rcases h with ⟨hidle, hf⟩ | ⟨k, hf, ho⟩
  · simp [work, hidle, hf, ownerRank, ReleasePc.rank]
  · simp only [work, hf, ho, List.map_cons, List.sum_cons]
    omega

theorem work_lt_of_owner {pc : ReleasePc} (h : st.owner = some pc) (hpc : pc ≠ .idle)
    (ho : st'.owner = ownerAfter st pc) (hf : st'.frees = st.frees) : work st' < work st := by
  have hlt := rank_ownerAfter st hpc
  have hown : ownerRank st.owner = pc.rank := by rw [h]; rfl
  rw [work, work, ho, hf, hown]
  omega

theorem work_lt_of_free {pre post : List FreePc} {f : FreePc} (gs : List FreePc)
    (h : st.frees = pre ++ f :: post)
    (hf : st'.frees = pre ++ gs ++ post) (hgs : (gs.map FreePc.rank).sum < f.rank)
    (ho : ownerRank st'.owner ≤ ownerRank st.owner) : work st' < work st := by
  simp only [work, h, hf, List.map_append, List.map_cons, List.sum_append, List.sum_cons]
  omega

/-- Every step lowers the work, but those that start an operation. -/
theorem work_step (hs : ConcStep st st') : work st' < work st ∨ Starts st st' := by
  cases hs with
  | allocate cpu h => exact .inr (.inl ⟨h, rfl⟩)
  | startRelease h => exact .inr (.inl ⟨h, rfl⟩)
  | startFree k hk => exact .inr (.inr ⟨k, rfl, rfl⟩)
  | loadVecs h => exact .inl (work_lt_of_owner h nofun rfl rfl)
  | giveUp h => exact .inl (work_lt_of_owner h nofun rfl rfl)
  | unsetVecs rv h => exact .inl (work_lt_of_owner h nofun rfl rfl)
  | loadWord rv idx it h => exact .inl (work_lt_of_owner h nofun rfl rfl)
  | unsetWord rv idx it rs h => exact .inl (work_lt_of_owner h nofun rfl rfl)
  | storeWord rv idx it rs h => exact .inl (work_lt_of_owner h nofun rfl rfl)
  | storeVecs rv h => exact .inl (work_lt_of_owner h nofun rfl rfl)
  | freeLoad pre post k h =>
    exact .inl (work_lt_of_free [.setSlot k (decide (st.slab.freedSlots (vecOf k) = 0#64))]
      h (by simp) (by simpa using FreePc.rank_setSlot_lt k _) le_rfl)
  | setSlot pre post k first h =>
    cases first with
    | true => exact .inl (work_lt_of_free [.setVec (vecOf k)] h (by simp) (by simp [FreePc.rank]) le_rfl)
    | false => exact .inl (work_lt_of_free [] h (by simp) (by simp [FreePc.rank]) le_rfl)
  | setVec pre post v h =>
    exact .inl (work_lt_of_free [.readState] h (by simp) (by simp [FreePc.rank]) le_rfl)
  | readState pre post h =>
    by_cases hu : st.slab.state = UNOWNED
    · exact .inl (work_lt_of_free [.claim] h (by simp [hu]) (by simp [FreePc.rank]) le_rfl)
    · exact .inl (work_lt_of_free [] h (by simp [hu]) (by simp [FreePc.rank]) le_rfl)
  | claim pre post h =>
    refine .inl (work_lt_of_free [] h (by simp) (by simp [FreePc.rank]) ?_)
    split <;> simp [ownerRank, ReleasePc.rank]

theorem exists_free_step {f : FreePc} {rest : List FreePc} (h : st.frees = f :: rest) :
    ∃ st', ConcStep st st' ∧ work st' < work st := by
  have h' : st.frees = [] ++ f :: rest := h
  cases f with
  | loadWord k =>
    exact ⟨_, .freeLoad st [] rest k h,
      work_lt_of_free [.setSlot k (decide (st.slab.freedSlots (vecOf k) = 0#64))] h'
        (by simp) (by simpa using FreePc.rank_setSlot_lt k _) le_rfl⟩
  | setSlot k first =>
    cases first with
    | true => exact ⟨_, .setSlot st [] rest k true h,
        work_lt_of_free [.setVec (vecOf k)] h' (by simp) (by simp [FreePc.rank]) le_rfl⟩
    | false => exact ⟨_, .setSlot st [] rest k false h,
        work_lt_of_free [] h' (by simp) (by simp [FreePc.rank]) le_rfl⟩
  | setVec v => exact ⟨_, .setVec st [] rest v h,
      work_lt_of_free [.readState] h' (by simp) (by simp [FreePc.rank]) le_rfl⟩
  | readState =>
    by_cases hu : st.slab.state = UNOWNED
    · exact ⟨_, .readState st [] rest h,
        work_lt_of_free [.claim] h' (by simp [hu]) (by simp [FreePc.rank]) le_rfl⟩
    · exact ⟨_, .readState st [] rest h,
        work_lt_of_free [] h' (by simp [hu]) (by simp [FreePc.rank]) le_rfl⟩
  | claim =>
    refine ⟨_, .claim st [] rest h, work_lt_of_free [] h' (by simp) (by simp [FreePc.rank]) ?_⟩
    split <;> simp [ownerRank, ReleasePc.rank]

/-- While work is left some thread can take an access that lowers it: the owner inside
`_try_release`, or else the first freeing thread. -/
theorem exists_work_step (hw : 0 < work st) : ∃ st', ConcStep st st' ∧ work st' < work st := by
  by_cases hown : ownerRank st.owner = 0
  · obtain ⟨f, rest, h⟩ : ∃ f rest, st.frees = f :: rest := by
      rcases hf : st.frees with _ | ⟨f, rest⟩
      · simp [work, hown, hf] at hw
      · exact ⟨f, rest, rfl⟩
    exact exists_free_step h
  · obtain ⟨pc, h, hpc⟩ : ∃ pc, st.owner = some pc ∧ pc ≠ .idle := by
      rcases ho : st.owner with _ | pc
      · simp [ho, ownerRank] at hown
      · exact ⟨pc, rfl, fun hi => hown (by rw [ho, hi]; rfl)⟩
    obtain ⟨st', hs, ho, hf⟩ := ownerStep_exists h hpc
    exact ⟨st', hs, work_lt_of_owner h hpc ho hf⟩

end Work

/-- The steps of threads already inside an operation. -/
def InFlight (st st' : Shared) : Prop := ConcStep st st' ∧ ¬Starts st st'

/-- Every operation under way on a slab finishes, whatever the interleaving: a run of steps that
starts no new operation has at most `work` steps, which is at most 197 for the owner and 5 for
each freeing thread; and such a run can only stop once the owner is idle or gone and every
`_free` has returned, since until then some thread can always take its next access. -/
theorem slab_operations_finish {st st' : Shared} {n : ℕ} (hrun : Run InFlight n st st') :
    n + work st' ≤ work st ∧ work st ≤ 197 + 5 * st.frees.length ∧
      ((∀ st'', ¬InFlight st' st'') → (st'.owner = none ∨ st'.owner = some .idle) ∧ st'.frees = []) := by
  refine ⟨hrun.length_add_le fun s s' hs => (work_step hs.1).resolve_right hs.2, work_le, ?_⟩
  intro hstop
  rw [← work_eq_zero_iff]
  by_contra hw
  obtain ⟨st'', hs, hlt⟩ := exists_work_step (Nat.pos_of_ne_zero hw)
  exact hstop st'' ⟨hs, fun hst => absurd (work_le_of_starts hst) (not_le.mpr hlt)⟩

/-- The slab of `releasingShared` after the owner's load of `freed_vecs`, which finds nothing
freed: the owner goes on to give the slab up. -/
def gaveUpShared : Shared := { releasingShared with owner := some .giveUp }

theorem releasingShared_loadVecs : InFlight releasingShared gaveUpShared := by
  refine ⟨?_, ?_⟩
  · have hs := ConcStep.loadVecs releasingShared rfl
    have h0 : releasingShared.slab.freedVecs = 0#64 := by decide
    rwa [if_pos h0] at hs
  · rintro (⟨hidle, -⟩ | ⟨k, hf, -⟩)
    · exact absurd hidle (by decide)
    · exact absurd hf (by simp [gaveUpShared, releasingShared, Shared.init])

theorem slab_operations_finish_loadVecs :
    Run InFlight 1 releasingShared gaveUpShared ∧
      (1 + work gaveUpShared ≤ work releasingShared ∧
        work releasingShared ≤ 197 + 5 * releasingShared.frees.length ∧
        ((∀ st'', ¬InFlight gaveUpShared st'') →
          (gaveUpShared.owner = none ∨ gaveUpShared.owner = some .idle) ∧ gaveUpShared.frees = [])) :=
  ⟨.tail (.refl _) releasingShared_loadVecs,
    slab_operations_finish (.tail (.refl _) releasingShared_loadVecs)⟩

end ObjSlab

end NCMalloc
