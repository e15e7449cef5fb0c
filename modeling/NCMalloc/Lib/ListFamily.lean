import Mathlib

/-!
# Families of lists without repetitions

A family `F : ι → List α` in which no element occurs twice, in one list or across two. Taking
a sublist of one member (dropping its head, its last element, or one element) keeps that, and
so does appending an element found nowhere in the family.
-/

namespace ListFamily

variable {ι α : Type*}

/-- No element occurs twice in the family. -/
structure Distinct (F : ι → List α) : Prop where
  nodup : ∀ i, (F i).Nodup
  disjoint : ∀ i j, i ≠ j → (F i).Disjoint (F j)

/-- `a` is in some list of the family. -/
def Mem (F : ι → List α) (a : α) : Prop := ∃ i, a ∈ F i

variable {F : ι → List α}

theorem mem_of_mem {i : ι} {a : α} (h : a ∈ F i) : Mem F a := ⟨i, h⟩

theorem Distinct.eq_of_mem (h : Distinct F) {a : α} {i j : ι} (hi : a ∈ F i) (hj : a ∈ F j) :
    i = j := by
  by_contra hne
  exact h.disjoint i j hne hi hj

/-- After appending `a` to `F i`, list `i` still meets no other list. -/
private theorem disjoint_append_of_not_mem (h : Distinct F) {i k : ι} {a x : α} (ha : ¬Mem F a)
    (hik : i ≠ k) (hx : x ∈ F i ++ [a]) (hxk : x ∈ F k) : False := by
  rcases List.mem_append.mp hx with hx | hx
  · exact h.disjoint i k hik hx hxk
  · rw [List.mem_singleton] at hx
    rw [hx] at hxk
    exact ha ⟨k, hxk⟩

variable [DecidableEq ι]

theorem mem_update {i : ι} {l : List α} {a : α} :
    Mem (Function.update F i l) a ↔ a ∈ l ∨ ∃ j, j ≠ i ∧ a ∈ F j := by
  constructor
  · rintro ⟨j, hj⟩
    by_cases hji : j = i
    · subst hji
      rw [Function.update_self] at hj
      exact Or.inl hj
    · rw [Function.update_of_ne hji] at hj
      exact Or.inr ⟨j, hji, hj⟩
  · rintro (ha | ⟨j, hji, hj⟩)
    · exact ⟨i, by rwa [Function.update_self]⟩
    · exact ⟨j, by rwa [Function.update_of_ne hji]⟩

theorem mem_update_iff {i : ι} {l : List α} {a b : α} (hi : ∀ x, x ∈ F i ↔ x = a ∨ x ∈ l) :
    Mem F b ↔ Mem (Function.update F i l) b ∨ b = a := by
  rw [mem_update]
  constructor
  · rintro ⟨j, hj⟩
    by_cases hji : j = i
    · subst hji
      rcases (hi b).mp hj with hb | hb
      · exact Or.inr hb
      · exact Or.inl (Or.inl hb)
    · exact Or.inl (Or.inr ⟨j, hji, hj⟩)
  · rintro ((hb | ⟨j, -, hj⟩) | hb)
    · exact ⟨i, (hi b).mpr (Or.inr hb)⟩
    · exact ⟨j, hj⟩
    · exact ⟨i, (hi b).mpr (Or.inl hb)⟩

theorem mem_update_append {i : ι} {a b : α} :
    Mem (Function.update F i (F i ++ [a])) b ↔ Mem F b ∨ b = a := by
  rw [mem_update, List.mem_append, List.mem_singleton]
  constructor
  · rintro ((hb | hb) | ⟨j, -, hj⟩)
    · exact Or.inl ⟨i, hb⟩
    · exact Or.inr hb
    · exact Or.inl ⟨j, hj⟩
  · rintro (⟨j, hj⟩ | hb)
    · by_cases hji : j = i
      · subst hji
        exact Or.inl (Or.inl hj)
      · exact Or.inr ⟨j, hji, hj⟩
    · exact Or.inl (Or.inr hb)

theorem Distinct.not_mem_update (h : Distinct F) {i : ι} {l : List α} {a : α} (ha : a ∈ F i)
    (hal : a ∉ l) : ¬Mem (Function.update F i l) a := by
  rw [mem_update]
  rintro (ha' | ⟨j, hji, hj⟩)
  · exact hal ha'
  · exact h.disjoint j i hji hj ha

theorem Distinct.update_sublist (h : Distinct F) {i : ι} {l : List α} (hl : l.Sublist (F i)) :
    Distinct (Function.update F i l) where
  nodup j := by
    by_cases hji : j = i
    · subst hji
      rw [Function.update_self]
      exact hl.nodup (h.nodup j)
    · rw [Function.update_of_ne hji]
      exact h.nodup j
  disjoint j k hjk a hj hk := by
    by_cases hji : j = i
    · subst hji
      rw [Function.update_self] at hj
      rw [Function.update_of_ne (Ne.symm hjk)] at hk
      exact h.disjoint j k hjk (hl.subset hj) hk
    · rw [Function.update_of_ne hji] at hj
      by_cases hki : k = i
      · subst hki
        rw [Function.update_self] at hk
        exact h.disjoint j k hjk hj (hl.subset hk)
      · rw [Function.update_of_ne hki] at hk
        exact h.disjoint j k hjk hj hk

theorem Distinct.update_append (h : Distinct F) {i : ι} {a : α} (ha : ¬Mem F a) :
    Distinct (Function.update F i (F i ++ [a])) where
  nodup j := by
    by_cases hji : j = i
    · subst hji
      rw [Function.update_self, List.nodup_append]
      refine ⟨h.nodup j, List.nodup_singleton a, ?_⟩
      intro x hx y hy hxy
      rw [List.mem_singleton] at hy
      subst hy hxy
      exact ha ⟨j, hx⟩
    · rw [Function.update_of_ne hji]
      exact h.nodup j
  disjoint j k hjk x hj hk := by
    by_cases hji : j = i
    · subst hji
      rw [Function.update_self] at hj
      rw [Function.update_of_ne (Ne.symm hjk)] at hk
      exact disjoint_append_of_not_mem h ha hjk hj hk
    · rw [Function.update_of_ne hji] at hj
      by_cases hki : k = i
      · subst hki
        rw [Function.update_self] at hk
        exact disjoint_append_of_not_mem h ha (Ne.symm hjk) hk hj
      · rw [Function.update_of_ne hki] at hk
        exact h.disjoint j k hjk hj hk

end ListFamily
