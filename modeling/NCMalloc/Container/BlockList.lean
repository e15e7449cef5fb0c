import NCMalloc.Bits.Word

/-!
# Block lists

`block_list.h`: a `block_list<T>` keeps its elements in blocks of 64 nodes. A block's
`node_slots` has a bit set for every free node; the blocks with a live node are on the
`iter_list` (linked by `next_iter`, `prev_iter`), the blocks with a free node on the
`available_list` (linked by `next_available`, `prev_available`). Blocks live in a heap of
addresses, `0` being `NULL`; `calloc` hands out the next fresh address, and `free` leaves the
block's words as they were.

A node is named by its block and index. Running a node's destructor `node::destroy` (`~T`
for a type that is not trivially destructible) is recorded in a trace: the teardown
functions return the nodes they destroy, in order.

`node_block::destroy` and `destroy_batch` are do-while loops over `tzcnt` of the occupied
mask: on an empty mask their one pass destroys `nodes[64]`, past the array.
`block_list::destroy` walks from `available_list` along `next_iter`, so it misses the blocks
that are full, and once every block is full it destroys nothing.
-/

namespace NCMalloc.Container

/-- `bits::find_first_one<uint64_t>` (`tzcnt`): the lowest set bit, `64` for the zero word. -/
def findFirstOne (x : BitVec 64) : ℕ := x.ctz.toNat

/-- The words of a `node_block`; its `nodes` are named by index. -/
structure NodeBlock where
  nodeSlots : BitVec 64
  nextIter : ℕ
  prevIter : ℕ
  nextAvailable : ℕ
  prevAvailable : ℕ
  deriving DecidableEq, Repr

/-- A block as `calloc` returns it: every word zero. -/
instance : Inhabited NodeBlock := ⟨⟨0, 0, 0, 0, 0⟩⟩

namespace NodeBlock

/-- `node_block::init`: every node free but node 0. -/
def init (b : NodeBlock) : NodeBlock := { b with nodeSlots := ~~~1#64 }

/-- `node_block::insert`: take the lowest free node; the flag is `!node_slots`, set when the
block has become full. -/
def insert (b : NodeBlock) : NodeBlock × ℕ × Bool :=
  let idx := findFirstOne b.nodeSlots
  let nodeSlots := BitVec.blsr b.nodeSlots
  ({ b with nodeSlots }, idx, nodeSlots = 0)

/-- The do-while loop of `destroy_batch` and `destroy`: destroy the node at the lowest bit,
clear it, and go on while a bit is left. -/
def destroyLoop (s : BitVec 64) : List ℕ :=
  let idx := findFirstOne s
  if _h : BitVec.blsr s = 0#64 then [idx]
  else idx :: destroyLoop (BitVec.blsr s)
termination_by s.toNat
decreasing_by
  have hs : s ≠ 0#64 := fun hs => _h (by rw [hs, BitVec.blsr_zero])
  exact BitVec.blsr_toNat_lt hs

theorem findFirstOne_zero : findFirstOne 0#64 = 64 := by
  rw [findFirstOne, BitVec.ctz, BitVec.reverse_eq_zero_iff.mpr rfl,
    (BitVec.clz_eq_iff_eq_zero (x := 0#64)).mpr rfl]
  rfl

/-- On the zero word the loop still makes its one pass, at index 64. -/
theorem destroyLoop_zero : destroyLoop 0#64 = [64] := by
  rw [destroyLoop, dif_pos BitVec.blsr_zero, findFirstOne_zero]

theorem destroyLoop_spec {s : BitVec 64} (hs : s ≠ 0#64) :
    (destroyLoop s).Nodup ∧ ∀ i, i ∈ destroyLoop s ↔ i ∈ s.bitset := by
  -- induction along the loop: `blsr` takes the lowest bit out of the set
  induction s using destroyLoop.induct with
  | case1 s hb =>
    rw [destroyLoop, dif_pos hb]
    have hset : s.bitset = {s.ctz.toNat} := by
      have h := BitVec.bitset_blsr s
      rw [hb, BitVec.bitset_zero] at h
      exact (Finset.eq_singleton_iff_unique_mem.mpr ⟨BitVec.ctz_mem_bitset hs,
        fun i hi => by_contra fun hne => (Finset.notMem_empty i)
          (h ▸ Finset.mem_erase.mpr ⟨hne, hi⟩)⟩)
    simp [findFirstOne, hset]
  | case2 s hb ih =>
    rw [destroyLoop, dif_neg hb]
    obtain ⟨hnd, hmem⟩ := ih hb
    have hset := BitVec.bitset_blsr s
    refine ⟨List.nodup_cons.mpr ⟨fun h => ?_, hnd⟩, fun i => ?_⟩
    · have := (hmem _).mp h
      rw [hset] at this
      exact Finset.notMem_erase _ _ this
    · rw [List.mem_cons, hmem, hset, Finset.mem_erase, findFirstOne]
      constructor
      · rintro (rfl | ⟨-, hi⟩)
        · exact BitVec.ctz_mem_bitset hs
        · exact hi
      · intro hi
        by_cases h : i = s.ctz.toNat
        · exact Or.inl h
        · exact Or.inr ⟨h, hi⟩

/-- `node_block::destroy_batch(mask)`: the occupied nodes of `mask`. -/
def destroyBatch (b : NodeBlock) (mask : BitVec 64) : List ℕ := destroyLoop (~~~b.nodeSlots &&& mask)

/-- `node_block::destroy`: every occupied node. -/
def destroy (b : NodeBlock) : List ℕ := destroyLoop (~~~b.nodeSlots)

/-- With an occupied node in `mask`, `destroy_batch` destroys exactly the occupied nodes of
`mask`, each once. -/
theorem destroyBatch_spec (b : NodeBlock) {mask : BitVec 64} (h : ~~~b.nodeSlots &&& mask ≠ 0#64) :
    (b.destroyBatch mask).Nodup ∧
      ∀ i, i ∈ b.destroyBatch mask ↔ i ∈ (~~~b.nodeSlots).bitset ∧ i ∈ mask.bitset := by
  rw [destroyBatch]
  obtain ⟨hnd, hmem⟩ := destroyLoop_spec h
  exact ⟨hnd, fun i => by rw [hmem, BitVec.bitset_and, Finset.mem_inter]⟩

/-- A block with nodes 0 and 1 occupied, and the mask of node 1. -/
theorem destroyBatch_spec_node1 :
    ~~~(⟨~~~3#64, 0, 0, 0, 0⟩ : NodeBlock).nodeSlots &&& 2#64 ≠ 0#64 ∧
      ((⟨~~~3#64, 0, 0, 0, 0⟩ : NodeBlock).destroyBatch 2#64).Nodup ∧
      ∀ i, i ∈ (⟨~~~3#64, 0, 0, 0, 0⟩ : NodeBlock).destroyBatch 2#64 ↔
        i ∈ (~~~(⟨~~~3#64, 0, 0, 0, 0⟩ : NodeBlock).nodeSlots).bitset ∧ i ∈ (2#64 : BitVec 64).bitset :=
  ⟨by decide, destroyBatch_spec _ (by decide)⟩

/-- With no occupied node in `mask`, `destroy_batch` destroys `nodes[64]`, past the array. -/
theorem destroyBatch_of_empty (b : NodeBlock) {mask : BitVec 64} (h : ~~~b.nodeSlots &&& mask = 0#64) :
    b.destroyBatch mask = [64] := by
  rw [destroyBatch, h, destroyLoop_zero]

/-- `node_block::drop(mask)`: free the nodes of `mask`; the source returns the new
`node_slots`, which the callers read from the block. -/
def drop (b : NodeBlock) (mask : BitVec 64) : NodeBlock := { b with nodeSlots := b.nodeSlots ||| mask }

end NodeBlock

/-- A `block_list<T>` with the heap its blocks live in; `brk` is the address `calloc` returns
next. -/
structure BlockList where
  blocks : ℕ → NodeBlock
  iterList : ℕ
  availableList : ℕ
  brk : ℕ

namespace BlockList

/-- `block_list::zero` on a heap with no block yet. -/
def zero : BlockList := ⟨fun _ => default, 0, 0, 1⟩

/-- Write the words of block `b`. -/
def setBlock (L : BlockList) (b : ℕ) (blk : NodeBlock) : BlockList :=
  { L with blocks := Function.update L.blocks b blk }

/-- `block_list::link_available`: push `b` on the `available_list`. Its `prev_available` is
left as it was. -/
def linkAvailable (L : BlockList) (b : ℕ) : BlockList :=
  let L := L.setBlock b { L.blocks b with nextAvailable := L.availableList }
  let L := if L.availableList ≠ 0 then
      L.setBlock L.availableList { L.blocks L.availableList with prevAvailable := b }
    else L
  { L with availableList := b }

/-- `block_list::unlink_available`: take `b` off the `available_list`. -/
def unlinkAvailable (L : BlockList) (b : ℕ) : BlockList :=
  let next := (L.blocks b).nextAvailable
  let prev := (L.blocks b).prevAvailable
  let L := if next ≠ 0 then L.setBlock next { L.blocks next with prevAvailable := prev } else L
  if prev ≠ 0 then L.setBlock prev { L.blocks prev with nextAvailable := next }
  else { L with availableList := next }

/-- `block_list::link_block`: push `b` on the `iter_list`. -/
def linkBlock (L : BlockList) (b : ℕ) : BlockList :=
  let L := L.setBlock b { L.blocks b with nextIter := L.iterList }
  let L := if L.iterList ≠ 0 then
      L.setBlock L.iterList { L.blocks L.iterList with prevIter := b }
    else L
  { L with iterList := b }

/-- `block_list::unlink_block`: take `b` off the `iter_list`. -/
def unlinkBlock (L : BlockList) (b : ℕ) : BlockList :=
  let next := (L.blocks b).nextIter
  let prev := (L.blocks b).prevIter
  let L := if next ≠ 0 then L.setBlock next { L.blocks next with prevIter := prev } else L
  if prev ≠ 0 then L.setBlock prev { L.blocks prev with nextIter := next }
  else { L with iterList := next }

/-- `block_list::_insert` past its assert: the node the element is placed in. With no available
block a new one is allocated and linked on both lists; with an available block but an empty
`iter_list` the available block is reused from node 0; otherwise the head of the
`available_list` takes the element, and leaves that list when it becomes full. -/
def insertBody (L : BlockList) : BlockList × ℕ × ℕ :=
  if L.availableList = 0 then
    let b := L.brk
    let L := { L.setBlock b (NodeBlock.init default) with brk := L.brk + 1 }
    ((L.linkBlock b).linkAvailable b, b, 0)
  else if L.iterList = 0 then
    let b := L.availableList
    let L := L.setBlock b { (L.blocks b).init with nextIter := 0, prevIter := 0 }
    ({ L with iterList := b }, b, 0)
  else
    let b := L.availableList
    let (blk, idx, full) := (L.blocks b).insert
    let L := L.setBlock b blk
    if full then
      let L := { L with availableList := (L.blocks b).nextAvailable }
      let L := if L.availableList ≠ 0 then
          L.setBlock L.availableList { L.blocks L.availableList with prevAvailable := 0 }
        else L
      (L, b, idx)
    else (L, b, idx)

/-- `block_list::_insert`, `none` where it aborts: the second branch, an available block but an
empty `iter_list`, first asserts `block->node_slots == ~0UL`. The assert comes before any store,
so it is checked before the body runs. -/
def insert (L : BlockList) : Option (BlockList × ℕ × ℕ) :=
  if L.availableList ≠ 0 ∧ L.iterList = 0 ∧
      (L.blocks L.availableList).nodeSlots ≠ BitVec.allOnes 64 then none
  else some L.insertBody

/-- What `remove` and `remove_batch` do after freeing the nodes of `mask` in block `b`: a
block that was full goes back on the `available_list`; a block that became empty leaves the
`iter_list`, and is freed unless it is the only block left on the `available_list`. -/
def afterDrop (L : BlockList) (b : ℕ) (mask : BitVec 64) : BlockList :=
  let L := L.setBlock b ((L.blocks b).drop mask)
  let ret := (L.blocks b).nodeSlots
  if ret = mask then L.linkAvailable b
  else if ret = BitVec.allOnes 64 then
    let L := L.unlinkBlock b
    if (L.blocks L.availableList).nextAvailable ≠ 0 then L.unlinkAvailable b else L
  else L

/-- `block_list::remove(n)` of node `idx` of block `b`: destroy it, then free its slot. -/
def remove (L : BlockList) (b idx : ℕ) : BlockList × List (ℕ × ℕ) :=
  (L.afterDrop b (1#64 <<< idx), [(b, idx)])

/-- `block_list::remove_batch(b, mask)`. -/
def removeBatch (L : BlockList) (b : ℕ) (mask : BitVec 64) : BlockList × List (ℕ × ℕ) :=
  let destroyed := ((L.blocks b).destroyBatch mask).map ((b, ·))
  (L.afterDrop b mask, destroyed)

/-- `block_list::pop`: the lowest occupied node of the head of the `iter_list`. A block that
was full goes on the `available_list`; a block that becomes empty leaves the `iter_list`, and
is freed unless it is the only block on the `available_list`, in which case it is kept with
every node free. -/
def pop (L : BlockList) : BlockList × ℕ × ℕ :=
  let b := L.iterList
  let occupied := ~~~(L.blocks b).nodeSlots
  let idx := findFirstOne occupied
  let L := if occupied = BitVec.allOnes 64 then L.linkAvailable b else L
  let occupied := BitVec.blsr occupied
  if occupied = 0 then
    let L := L.unlinkBlock b
    if (L.blocks L.availableList).nextAvailable ≠ 0 then (L.unlinkAvailable b, b, idx)
    else (L.setBlock b { L.blocks b with nodeSlots := ~~~occupied }, b, idx)
  else (L.setBlock b { L.blocks b with nodeSlots := ~~~occupied }, b, idx)

/-- The loop of `block_list::destroy` from block `tmp`, for at most `fuel` blocks. -/
def destroyFrom (L : BlockList) : ℕ → ℕ → List (ℕ × ℕ)
  | 0, _ => []
  | fuel + 1, tmp =>
    if tmp = 0 then []
    else ((L.blocks tmp).destroy.map ((tmp, ·))) ++ L.destroyFrom fuel (L.blocks tmp).nextIter

/-- `block_list::destroy`: `tmp = available_list; while (tmp) { tmp->destroy(); tmp =
tmp->next_iter; }`. -/
def destroy (L : BlockList) (fuel : ℕ) : List (ℕ × ℕ) := L.destroyFrom fuel L.availableList

/-- `block_list::~block_list`: `destroy` when the `iter_list` is not empty. -/
def destruct (L : BlockList) (fuel : ℕ) : List (ℕ × ℕ) :=
  if L.iterList ≠ 0 then L.destroy fuel else []

/-- The visits of a `node_iterator` at `block` with the occupied bits `cur` still to visit,
for at most `fuel` visits: `get()` is the node at the lowest bit; `next()` clears it and, when
none is left, moves to `next_iter` and reads that block's occupied bits. -/
def nodeIterate (L : BlockList) : ℕ → ℕ → BitVec 64 → List (ℕ × ℕ)
  | 0, _, _ => []
  | fuel + 1, block, cur =>
    if block = 0 then []
    else
      let node := (block, findFirstOne cur)
      let cur := BitVec.blsr cur
      if cur = 0 then
        let block := (L.blocks block).nextIter
        node :: L.nodeIterate fuel block (if block ≠ 0 then ~~~(L.blocks block).nodeSlots else cur)
      else node :: L.nodeIterate fuel block cur

/-- The nodes a `node_iterator` from `nbegin()` visits, for at most `fuel` visits. -/
def nodes (L : BlockList) (fuel : ℕ) : List (ℕ × ℕ) :=
  L.nodeIterate fuel L.iterList (if L.iterList = 0 then 0 else ~~~(L.blocks L.iterList).nodeSlots)

/-- The operations on a block list. -/
inductive Op
  | insert
  | pop
  | remove (b idx : ℕ)
  | removeBatch (b : ℕ) (mask : BitVec 64)

/-- One operation, with the live nodes: those inserted and not yet popped or removed; `none`
where the program aborts. -/
def step (s : BlockList × List (ℕ × ℕ)) : Op → Option (BlockList × List (ℕ × ℕ))
  | .insert => s.1.insert.map fun (L, node) => (L, s.2 ++ [node])
  | .pop => let (L, node) := s.1.pop; some (L, s.2.erase node)
  | .remove b idx => some ((s.1.remove b idx).1, s.2.erase (b, idx))
  | .removeBatch b mask =>
    some ((s.1.removeBatch b mask).1, s.2.filter fun n => !(n.1 = b ∧ mask.getLsbD n.2))

/-- A run of operations from `zero()`, `none` if it aborts. -/
def run (ops : List Op) : Option (BlockList × List (ℕ × ℕ)) := ops.foldlM step (zero, [])

/-- Sixty-five inserts and a pop leave block 2 empty on the `available_list` but off the
`iter_list`; the next insert places its element there, so the iterator, which stops at
`NULL` after the 64 nodes of block 1, never visits it. -/
theorem nodes_run_misses :
    ∃ L live, run (List.replicate 65 .insert ++ [.pop, .insert]) = some (L, live) ∧
      live.length = 65 ∧ (2, 0) ∈ live ∧ L.nodes 65 = (List.range 64).map ((1, ·)) := by
  have h : (run (List.replicate 65 .insert ++ [.pop, .insert])).map
      (fun r => (r.2.length, decide ((2, 0) ∈ r.2), r.1.nodes 65)) =
        some (65, true, (List.range 64).map ((1, ·))) := by
    decide +kernel
  obtain ⟨⟨L, live⟩, hr, hval⟩ := Option.map_eq_some_iff.mp h
  simp only [Prod.mk.injEq, decide_eq_true_eq] at hval
  exact ⟨L, live, hr, hval.1, hval.2.1, hval.2.2⟩

/-- `n` inserts, with the nodes they return. -/
def insertN : ℕ → BlockList → Option (BlockList × List (ℕ × ℕ))
  | 0, L => some (L, [])
  | n + 1, L => do
    let (L, nodes) ← insertN n L
    let (L, node) ← L.insert
    pure (L, nodes ++ [node])

/-- Sixty-four inserts fill block 1 with the live nodes `0..63` and take it off the
`available_list`, so `destroy`, and the destructor `~block_list` that calls it, start from
`NULL` and run no `~T` at all, with any fuel. -/
theorem destroy_insertN_64 :
    ∃ L, insertN 64 zero = some (L, (List.range 64).map ((1, ·))) ∧
      ∀ fuel, L.destroy fuel = [] ∧ L.destruct fuel = [] := by
  have h : (insertN 64 zero).map (fun r => (r.2, r.1.availableList)) =
      some ((List.range 64).map ((1, ·)), 0) := by
    decide +kernel
  obtain ⟨⟨L, nodes⟩, hr, hval⟩ := Option.map_eq_some_iff.mp h
  simp only [Prod.mk.injEq] at hval
  obtain ⟨hnodes, hav⟩ := hval
  have hdestroy : ∀ fuel, L.destroy fuel = [] := fun fuel => by
    rw [destroy, hav]
    cases fuel <;> rfl
  refine ⟨L, by rw [hr, hnodes], fun fuel => ⟨hdestroy fuel, ?_⟩⟩
  rw [destruct]
  split_ifs
  · exact hdestroy fuel
  · rfl

end BlockList

end NCMalloc.Container
