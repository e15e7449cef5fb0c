import Mathlib

/-!
# Bounded stacks

A LIFO stack of at most `cap` entries, listed bottom first, and its representation as an
array of cells with a height: the stack of height `n` holds cells `0, ..., n - 1`, pushing
writes cell `n`, popping reads cell `n - 1`.
-/

/-- A stack of at most `cap` entries; the top is the last entry. -/
structure BoundedStack (α : Type*) (cap : ℕ) where
  items : List α
  length_le : items.length ≤ cap

namespace BoundedStack

variable {α : Type*} {cap : ℕ}

/-- Push onto a stack that is not full. -/
def push (s : BoundedStack α cap) (x : α) : Option (BoundedStack α cap) :=
  if h : s.items.length < cap then
    some ⟨s.items ++ [x], by rw [List.length_append, List.length_singleton]; omega⟩
  else none

/-- Pop from a nonempty stack: its top and the rest. -/
def pop (s : BoundedStack α cap) : Option (α × BoundedStack α cap) :=
  if h : s.items = [] then none
  else some (s.items.getLast h,
    ⟨s.items.dropLast, by rw [List.length_dropLast]; exact le_trans (Nat.sub_le _ _) s.length_le⟩)

@[ext] theorem ext {s t : BoundedStack α cap} (h : s.items = t.items) : s = t := by
  cases s
  cases t
  simp only at h
  simp [h]

theorem push_eq_none_iff {s : BoundedStack α cap} {x : α} :
    s.push x = none ↔ s.items.length = cap := by
  unfold push
  have := s.length_le
  split_ifs with h <;> simp <;> omega

theorem pop_eq_none_iff {s : BoundedStack α cap} : s.pop = none ↔ s.items = [] := by
  unfold pop
  split_ifs with h <;> simp [h]

theorem items_of_push {s t : BoundedStack α cap} {x : α} (h : s.push x = some t) :
    t.items = s.items ++ [x] := by
  unfold push at h
  split_ifs at h with hlt
  cases h
  rfl

theorem items_of_pop {s t : BoundedStack α cap} {x : α} (h : s.pop = some (x, t)) :
    s.items = t.items ++ [x] := by
  unfold pop at h
  split_ifs at h with hne
  cases h
  exact (List.dropLast_append_getLast hne).symm

theorem pop_push {s t : BoundedStack α cap} {x : α} (h : s.push x = some t) :
    t.pop = some (x, s) := by
  unfold push at h
  split_ifs at h with hlt
  cases h
  unfold pop
  have hne : s.items ++ [x] ≠ [] := by simp
  simp only [hne, dite_false, Option.some.injEq, Prod.mk.injEq]
  constructor
  · simp
  · ext1
    simp

/-! ## Array representation -/

/-- The entries `cells 0, ..., cells (n - 1)` of an array-backed stack of height `n`. -/
def cellsList (cells : ℕ → α) (n : ℕ) : List α := (List.range n).map cells

@[simp] theorem length_cellsList (cells : ℕ → α) (n : ℕ) : (cellsList cells n).length = n := by
  simp [cellsList]

theorem cellsList_succ (cells : ℕ → α) (n : ℕ) :
    cellsList cells (n + 1) = cellsList cells n ++ [cells n] := by
  simp [cellsList, List.range_succ]

theorem cellsList_congr {cells cells' : ℕ → α} {n : ℕ} (h : ∀ j < n, cells j = cells' j) :
    cellsList cells n = cellsList cells' n := by
  unfold cellsList
  apply List.map_congr_left
  intro j hj
  exact h j (List.mem_range.mp hj)

theorem cellsList_eq_nil_iff {cells : ℕ → α} {n : ℕ} : cellsList cells n = [] ↔ n = 0 := by
  simp [cellsList]

/-- The stack an array of cells with height `n` represents. -/
def ofCells (cells : ℕ → α) (n : ℕ) (h : n ≤ cap) : BoundedStack α cap :=
  ⟨cellsList cells n, by rw [length_cellsList]; exact h⟩

theorem ofCells_congr {cells cells' : ℕ → α} {n n' : ℕ} (hn : n = n')
    (hc : ∀ j < n, cells j = cells' j) (h : n ≤ cap) (h' : n' ≤ cap) :
    ofCells cells n h = ofCells cells' n' h' := by
  subst hn
  ext1
  exact cellsList_congr hc

theorem push_ofCells {cells : ℕ → α} {n : ℕ} (h : n < cap) (x : α) :
    (ofCells cells n h.le).push x = some (ofCells (Function.update cells n x) (n + 1) h) := by
  unfold push ofCells
  simp only [length_cellsList, h, dite_true, Option.some.injEq]
  ext1
  show cellsList cells n ++ [x] = cellsList (Function.update cells n x) (n + 1)
  rw [cellsList_succ, Function.update_self]
  congr 1
  exact cellsList_congr fun j hj => (Function.update_of_ne (Nat.ne_of_lt hj) _ _).symm

theorem pop_ofCells {cells : ℕ → α} {n : ℕ} (h : n + 1 ≤ cap) :
    (ofCells cells (n + 1) h).pop = some (cells n, ofCells cells n (by omega)) := by
  unfold pop ofCells
  have hne : cellsList cells (n + 1) ≠ [] := by simp [cellsList_eq_nil_iff]
  simp only [hne, dite_false, Option.some.injEq, Prod.mk.injEq]
  simp [cellsList_succ]

end BoundedStack
