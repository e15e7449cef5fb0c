import NCMalloc.Container.BlockList

/-!
# Runs of inserts into a block list

From `block_list::zero`, inserts alone fill the blocks one after the other: the first insert
allocates block 1 and takes node 0; each later one takes the lowest free node of the head of the
`available_list`, which leaves that list when its last node is taken, and the insert after that
allocates the next block. So the `n`-th insert returns node `n % 64` of block `n / 64 + 1`, and no
node is handed out twice.

Once pops come between the inserts the program can abort: a block that a pop empties is kept
as the only available block but leaves the `iter_list`, the next insert places a node there,
and when the `iter_list` then runs empty, the next insert fails the assert of `_insert` that
the available block is free throughout.
-/

namespace NCMalloc.Container

open BitVec

/-- The free nodes of a block whose nodes below `r` are taken. -/
def upFrom (r : ℕ) : Finset ℕ := (Finset.range 64).filter (r ≤ ·)

section Slots

variable {x : BitVec 64} {r : ℕ}

theorem mem_upFrom {i : ℕ} : i ∈ upFrom r ↔ r ≤ i ∧ i < 64 := by
  rw [upFrom, Finset.mem_filter, Finset.mem_range]
  exact and_comm

theorem findFirstOne_of_upFrom (hx : x.bitset = upFrom r) (hr : r < 64) : findFirstOne x = r := by
  have hne : x ≠ 0#64 := by
    rintro rfl
    have hmem : r ∈ (0#64 : BitVec 64).bitset := by rw [hx, mem_upFrom]; omega
    simp at hmem
  have hle := ctz_le_of_mem_bitset (x := x) (i := r) (by rw [hx, mem_upFrom]; omega)
  have hge := (mem_upFrom.mp (hx ▸ ctz_mem_bitset hne)).1
  exact le_antisymm hle hge

theorem bitset_blsr_upFrom (hx : x.bitset = upFrom r) (hr : r < 64) :
    (blsr x).bitset = upFrom (r + 1) := by
  rw [bitset_blsr, hx]
  have hctz : x.ctz.toNat = r := findFirstOne_of_upFrom hx hr
  rw [hctz]
  ext i
  rw [Finset.mem_erase, mem_upFrom, mem_upFrom]
  omega

theorem eq_zero_iff_of_upFrom (hx : x.bitset = upFrom r) : x = 0#64 ↔ 64 ≤ r := by
  rw [← bitset_eq_empty_iff, hx, Finset.eq_empty_iff_forall_notMem]
  constructor
  · intro h
    by_contra hlt
    exact h r (mem_upFrom.mpr ⟨le_rfl, by omega⟩)
  · intro h i hi
    have := mem_upFrom.mp hi
    omega

theorem bitset_init (b : NodeBlock) : (b.init).nodeSlots.bitset = upFrom 1 := by
  ext i
  rw [mem_bitset, mem_upFrom]
  simp only [NodeBlock.init, getLsbD_not, getLsbD_one]
  by_cases hi : i < 64
  · simp [hi, Nat.one_le_iff_ne_zero]
  · simp [hi]

end Slots

namespace BlockList

/-! ## The shape inserts leave -/

/-- A block list that inserts alone have filled: blocks `1 … q` allocated in turn, all full but
the last, whose first `r` nodes are taken; it heads the `iter_list`, and the `available_list`
while it has a free node. -/
structure Filled (L : BlockList) (q r : ℕ) : Prop where
  q_pos : 0 < q
  r_pos : 0 < r
  r_le : r ≤ 64
  brk : L.brk = q + 1
  iterList : L.iterList = q
  availableList : L.availableList = if r = 64 then 0 else q
  slots : (L.blocks q).nodeSlots.bitset = upFrom r
  nextAvailable : (L.blocks q).nextAvailable = 0

/-! ### The branches of `_insert` -/

section Branches

variable {L : BlockList}

/-- `_insert` aborts exactly when `iter_list` is empty while `available_list` names a block
with a node taken. -/
theorem insert_eq_none_iff : L.insert = none ↔
    L.availableList ≠ 0 ∧ L.iterList = 0 ∧ (L.blocks L.availableList).nodeSlots ≠ allOnes 64 := by
  unfold insert
  split_ifs with h
  · exact iff_of_true rfl h
  · exact iff_of_false not_false h

theorem insert_of_no_available (hav : L.availableList = 0) (hit : L.iterList ≠ 0)
    (hne : L.brk ≠ L.iterList) :
    L.insertBody.2 = (L.brk, 0) ∧ L.insertBody.1.brk = L.brk + 1 ∧ L.insertBody.1.iterList = L.brk ∧
      L.insertBody.1.availableList = L.brk ∧
      (L.insertBody.1.blocks L.brk).nodeSlots = (NodeBlock.init default).nodeSlots ∧
      (L.insertBody.1.blocks L.brk).nextAvailable = 0 := by
  refine ⟨?_, ?_, ?_, ?_, ?_, ?_⟩ <;>
    simp [insertBody, hav, hit, hne, linkBlock, linkAvailable, setBlock]

/-- `_insert` into the head of the `available_list`, the last block of that list: it takes the
lowest free node, and the block leaves the list when it becomes full. -/
theorem insert_of_available (hav : L.availableList ≠ 0) (hit : L.iterList ≠ 0)
    (hnext : (L.blocks L.availableList).nextAvailable = 0) :
    L.insertBody.2 = (L.availableList, findFirstOne (L.blocks L.availableList).nodeSlots) ∧
      L.insertBody.1.brk = L.brk ∧ L.insertBody.1.iterList = L.iterList ∧
      L.insertBody.1.availableList =
        (if blsr (L.blocks L.availableList).nodeSlots = 0#64 then 0 else L.availableList) ∧
      (L.insertBody.1.blocks L.availableList).nodeSlots = blsr (L.blocks L.availableList).nodeSlots ∧
      (L.insertBody.1.blocks L.availableList).nextAvailable = 0 := by
  -- whether the block becomes full decides whether the `available_list` moves on
  by_cases hz : blsr (L.blocks L.availableList).nodeSlots = 0#64
  · refine ⟨?_, ?_, ?_, ?_, ?_, ?_⟩ <;>
      simp [insertBody, hav, hit, hz, hnext, NodeBlock.insert, setBlock]
  · refine ⟨?_, ?_, ?_, ?_, ?_, ?_⟩ <;>
      simp [insertBody, hav, hit, hz, hnext, NodeBlock.insert, setBlock]

end Branches

theorem insert_zero : zero.insert = some (zero.insertBody.1, 1, 0) ∧ Filled zero.insertBody.1 1 1 := by
  refine ⟨rfl, ⟨by decide, by decide, by decide, rfl, rfl, rfl, ?_, rfl⟩⟩
  exact bitset_init _

section Insert

variable {L : BlockList} {q r : ℕ}

theorem Filled.iterList_ne_zero (hF : Filled L q r) : L.iterList ≠ 0 := by
  rw [hF.iterList]
  exact hF.q_pos.ne'

/-- With a nonempty `iter_list` the assert of `_insert` is not reached. -/
theorem Filled.insert_eq (hF : Filled L q r) : L.insert = some L.insertBody := by
  rw [insert, if_neg]
  rintro ⟨-, hit, -⟩
  exact hF.iterList_ne_zero hit

theorem Filled.insert_full (hF : Filled L q 64) :
    L.insertBody.2 = (q + 1, 0) ∧ Filled L.insertBody.1 (q + 1) 1 := by
  have hav : L.availableList = 0 := by simpa using hF.availableList
  obtain ⟨hret, hbrk, hiter, havail, hslots, hnext⟩ :=
    insert_of_no_available hav hF.iterList_ne_zero (by rw [hF.brk, hF.iterList]; omega)
  rw [hF.brk] at hret hbrk hiter havail hslots hnext
  refine ⟨hret, ⟨by omega, by decide, by decide, hbrk, hiter, by simpa using havail, ?_, hnext⟩⟩
  rw [hslots]
  exact bitset_init _

theorem Filled.insert_room (hF : Filled L q r) (hr : r < 64) :
    L.insertBody.2 = (q, r) ∧ Filled L.insertBody.1 q (r + 1) := by
  have hav : L.availableList = q := by simpa [hr.ne] using hF.availableList
  obtain ⟨hret, hbrk, hiter, havail, hslots, hnext⟩ :=
    insert_of_available (by rw [hav]; exact hF.q_pos.ne') hF.iterList_ne_zero
      (by rw [hav]; exact hF.nextAvailable)
  rw [hav] at hret havail hslots hnext
  have hblsr := bitset_blsr_upFrom hF.slots hr
  have hfull : blsr (L.blocks q).nodeSlots = 0#64 ↔ r + 1 = 64 := by
    rw [eq_zero_iff_of_upFrom hblsr]
    omega
  refine ⟨by rw [hret, findFirstOne_of_upFrom hF.slots hr], ⟨hF.q_pos, by omega, by omega,
    hbrk.trans hF.brk, hiter.trans hF.iterList, ?_, by rw [hslots]; exact hblsr, hnext⟩⟩
  rw [havail]
  by_cases h64 : r + 1 = 64
  · simp [hfull.mpr h64, h64]
  · simp [hfull, h64]

end Insert

/-! ## Runs of inserts -/

theorem insertN_succ_of {n : ℕ} {L L' L'' : BlockList} {nodes : List (ℕ × ℕ)} {node : ℕ × ℕ}
    (h : insertN n L = some (L', nodes)) (hi : L'.insert = some (L'', node)) :
    insertN (n + 1) L = some (L'', nodes ++ [node]) := by
  simp [insertN, h, hi]

/-- The node the `i`-th insert from `zero()` returns. -/
def insertNode (i : ℕ) : ℕ × ℕ := (i / 64 + 1, i % 64)

/-- After `n + 1` inserts the list is filled up to node `n % 64` of block `n / 64 + 1`, and the
inserts returned the nodes in order: by induction on the inserts, each either taking the next
node of the last block or, the last block being full, allocating the next. -/
theorem insertN_filled (n : ℕ) :
    ∃ L, insertN (n + 1) zero = some (L, (List.range (n + 1)).map insertNode) ∧
      Filled L (n / 64 + 1) (n % 64 + 1) := by
  induction n with
  | zero =>
    obtain ⟨hins, hF⟩ := insert_zero
    have h0 : insertN 0 zero = some (zero, []) := rfl
    refine ⟨_, ?_, hF⟩
    rw [insertN_succ_of h0 hins]
    rfl
  | succ n ih =>
    obtain ⟨L, hL, hF⟩ := ih
    have hins : L.insert = some (L.insertBody.1, L.insertBody.2) := hF.insert_eq
    rw [List.range_succ (n := n + 1), List.map_append, List.map_singleton, insertNode]
    by_cases h63 : n % 64 = 63
    · -- the last block is full: the next insert opens block `n / 64 + 2`
      rw [h63] at hF
      obtain ⟨hnode, hF'⟩ := hF.insert_full
      have hdiv : (n + 1) / 64 = n / 64 + 1 := by omega
      have hmod : (n + 1) % 64 = 0 := by omega
      rw [hnode] at hins
      rw [hdiv, hmod]
      exact ⟨_, insertN_succ_of hL hins, hF'⟩
    · obtain ⟨hnode, hF'⟩ := hF.insert_room (by omega)
      have hdiv : (n + 1) / 64 = n / 64 := by omega
      have hmod : (n + 1) % 64 = n % 64 + 1 := by omega
      rw [hnode] at hins
      rw [hdiv, hmod]
      exact ⟨_, insertN_succ_of hL hins, hF'⟩

theorem insertNode_injective : Function.Injective insertNode := by
  intro i j h
  simp only [insertNode, Prod.mk.injEq] at h
  omega

/-- Inserts alone, from `block_list::zero`, never abort and return the nodes of the blocks in
order, node `i % 64` of block `i / 64 + 1` for the `i`-th, so never the same node twice. -/
theorem insertN_nodes (n : ℕ) :
    ∃ L, insertN n zero = some (L, (List.range n).map insertNode) ∧
      ((List.range n).map insertNode).Nodup := by
  have hrun : ∃ L, insertN n zero = some (L, (List.range n).map insertNode) := by
    cases n with
    | zero => exact ⟨zero, rfl⟩
    | succ n =>
      obtain ⟨L, hL, -⟩ := insertN_filled n
      exact ⟨L, hL⟩
  obtain ⟨L, hL⟩ := hrun
  exact ⟨L, hL, (List.nodup_range).map insertNode_injective⟩

/-! ## Inserts and pops -/

theorem run_append_insert_eq_none {ops : List Op} {L : BlockList} {live : List (ℕ × ℕ)}
    (hr : run ops = some (L, live)) (hins : L.insert = none) : run (ops ++ [.insert]) = none := by
  rw [run, List.foldlM_append]
  change (run ops >>= fun s => [Op.insert].foldlM step s) = none
  rw [hr]
  simp [step, hins]

/-- Inserts and pops alone, the way `slab_test` keeps its list of regions, make the program
abort. Sixty-five inserts, a pop and an insert leave node 0 of block 2 live on a block that is
off the `iter_list`; the sixty-four pops that follow empty block 1, free it and empty the
`iter_list`, so the next insert takes the second branch of `_insert`, whose assert that the
available block 2 is free throughout fails. -/
theorem run_reaches_insert_assert :
    ∃ L, run (List.replicate 65 .insert ++ [.pop, .insert] ++ List.replicate 64 .pop) =
        some (L, [(2, 0)]) ∧
      L.iterList = 0 ∧ L.availableList = 2 ∧ (L.blocks 2).nodeSlots ≠ allOnes 64 ∧
      run (List.replicate 65 .insert ++ [.pop, .insert] ++ List.replicate 64 .pop ++ [.insert]) =
        none := by
  have h : (run (List.replicate 65 .insert ++ [.pop, .insert] ++ List.replicate 64 .pop)).map
      (fun r => (r.2, r.1.iterList, r.1.availableList, (r.1.blocks 2).nodeSlots)) =
        some ([(2, 0)], 0, 2, ~~~1#64) := by
    decide +kernel
  obtain ⟨⟨L, live⟩, hr, hval⟩ := Option.map_eq_some_iff.mp h
  simp only [Prod.mk.injEq] at hval
  obtain ⟨hlive, hit, hav, hslots⟩ := hval
  have hfull : (L.blocks 2).nodeSlots ≠ allOnes 64 := by
    rw [hslots]
    decide
  have hins : L.insert = none :=
    insert_eq_none_iff.mpr ⟨by rw [hav]; decide, hit, by rw [hav]; exact hfull⟩
  exact ⟨L, by rw [hr, hlive], hit, hav, hfull, run_append_insert_eq_none hr hins⟩

end BlockList

end NCMalloc.Container
