import Mathlib

/-!
# Null-terminated linked lists

A heap gives every node its `next` pointer, and `null` ends a list. `Chain next null a l` says
that following `next` from `a` visits exactly the nodes of `l`, in order, and then reaches
`null`. Such a list is determined by its head and repeats no node; the operations of a queue
kept as a head and a tail (take the head, append after the tail) keep it.
-/

namespace LinkedList

variable {α : Type*}

/-- Following `next` from `a` visits the nodes of `l` and then reaches `null`. -/
inductive Chain (next : α → α) (null : α) : α → List α → Prop
  | nil : Chain next null null []
  | cons {a : α} {l : List α} : a ≠ null → Chain next null (next a) l → Chain next null a (a :: l)

variable {next next' : α → α} {null : α}

namespace Chain

theorem head_eq_null_iff {a : α} {l : List α} (h : Chain next null a l) : a = null ↔ l = [] := by
  cases h with
  | nil => simp
  | cons ha _ => simp [ha]

theorem head_eq {a x : α} {l : List α} (h : Chain next null a (x :: l)) : a = x := by
  cases h
  rfl

theorem tail {a : α} {l : List α} (h : Chain next null a (a :: l)) : Chain next null (next a) l := by
  cases h with
  | cons _ h => exact h

theorem unique {a : α} {l₁ l₂ : List α} (h₁ : Chain next null a l₁) (h₂ : Chain next null a l₂) :
    l₁ = l₂ := by
  induction h₁ generalizing l₂ with
  | nil =>
    cases h₂ with
    | nil => rfl
    | cons ha _ => exact absurd rfl ha
  | cons ha _ ih =>
    cases h₂ with
    | nil => exact absurd rfl ha
    | cons _ h₂ => rw [ih h₂]

theorem mem_subchain {a z : α} {l : List α} (h : Chain next null a l) (hz : z ∈ l) :
    ∃ l', Chain next null z l' ∧ l'.length ≤ l.length := by
  induction h with
  | nil => simp at hz
  | cons ha hc ih =>
    rcases List.mem_cons.mp hz with rfl | hz
    · exact ⟨_, Chain.cons ha hc, le_rfl⟩
    · obtain ⟨l', hl', hle⟩ := ih hz
      exact ⟨l', hl', by simp only [List.length_cons]; omega⟩

/-- A chain repeats no node: a repeated node would start a chain shorter than itself. -/
theorem nodup {a : α} {l : List α} (h : Chain next null a l) : l.Nodup := by
  induction h with
  | nil => exact List.nodup_nil
  | cons ha hc ih =>
    refine List.nodup_cons.mpr ⟨fun hmem => ?_, ih⟩
    obtain ⟨l', hl', hle⟩ := hc.mem_subchain hmem
    have heq := unique (Chain.cons ha hc) hl'
    rw [← heq, List.length_cons] at hle
    omega

theorem null_not_mem {a : α} {l : List α} (h : Chain next null a l) : null ∉ l := by
  induction h with
  | nil => simp
  | cons ha _ ih =>
    rw [List.mem_cons, not_or]
    exact ⟨Ne.symm ha, ih⟩

theorem congr {a : α} {l : List α} (h : Chain next null a l) (hn : ∀ x ∈ l, next' x = next x) :
    Chain next' null a l := by
  induction h with
  | nil => exact Chain.nil
  | cons ha _ ih =>
    refine Chain.cons ha ?_
    rw [hn _ List.mem_cons_self]
    exact ih fun x hx => hn x (List.mem_cons_of_mem _ hx)

theorem singleton {x : α} (hx : x ≠ null) (hnx : next x = null) : Chain next null x [x] :=
  Chain.cons hx (hnx ▸ Chain.nil)

theorem snoc [DecidableEq α] {a t x : α} {l : List α} (h : Chain next null a l)
    (ht : l.getLast? = some t) (hx : x ≠ null) (hxl : x ∉ l) (hnx : next x = null) :
    Chain (Function.update next t x) null a (l ++ [x]) := by
  induction h with
  | nil => simp at ht
  | @cons a l ha hc ih =>
    refine Chain.cons ha ?_
    rcases l with _ | ⟨b, l⟩
    · -- `a` is the last node
      simp only [List.getLast?_singleton, Option.some.injEq] at ht
      subst ht
      rw [Function.update_self]
      have hxa : x ≠ a := fun e => hxl (e ▸ List.mem_singleton_self _)
      exact Chain.singleton hx (by rw [Function.update_of_ne hxa, hnx])
    · have hta : t ≠ a := by
        intro e
        subst e
        have hlast : t ∈ b :: l := List.mem_of_getLast? (by simpa using ht)
        exact (List.nodup_cons.mp (Chain.cons ha hc).nodup).1 hlast
      rw [Function.update_of_ne (Ne.symm hta)]
      exact ih (by simpa using ht) (fun hm => hxl (List.mem_cons_of_mem _ hm))

end Chain

end LinkedList
