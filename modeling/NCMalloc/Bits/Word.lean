import Mathlib

/-!
# Machine words as bit sets

A `BitVec w` word read as the finite set of its set bit positions, with the two bit
instructions that bitmap code is built from: `ctz` (x86 `tzcnt`, the number of trailing
zeros, `w` for the zero word) and `blsr` (`x & (x - 1)`, which resets the lowest set bit).
The results are stated on `bitset`, so that a loop over the set bits of a word is an
induction over a finite set.
-/

namespace Nat

theorem testBit_sub_one_of_lowest (n k i : Nat) (hk : n.testBit k = true)
    (hlow : ∀ j < k, n.testBit j = false) :
    (n - 1).testBit i = (decide (i < k) || (decide (k < i) && n.testBit i)) := by
  induction k generalizing n i with
  | zero =>
    have hodd : n % 2 = 1 := by simpa [Nat.testBit_zero] using hk
    cases i with
    | zero => simp [Nat.testBit_zero]; omega
    | succ i =>
      have hdiv : (n - 1) / 2 = n / 2 := by omega
      simp [Nat.testBit_add_one, hdiv]
  | succ k ih =>
    have heven : n % 2 = 0 := by
      simpa [Nat.testBit_zero] using hlow 0 (Nat.succ_pos k)
    have hk' : (n / 2).testBit k = true := by rwa [Nat.testBit_add_one] at hk
    have hlow' : ∀ j < k, (n / 2).testBit j = false := fun j hj => by
      simpa [Nat.testBit_add_one] using hlow (j + 1) (by omega)
    have hpos : n / 2 ≠ 0 := by
      rintro h
      simp [h] at hk'
    cases i with
    | zero => simp [Nat.testBit_zero]; omega
    | succ i =>
      have hdiv : (n - 1) / 2 = n / 2 - 1 := by omega
      rw [Nat.testBit_add_one, hdiv, ih (n / 2) i hk' hlow', Nat.testBit_add_one]
      simp

end Nat

namespace BitVec

variable {w : Nat}

/-- The positions of the set bits of a word. -/
def bitset (x : BitVec w) : Finset ℕ := (Finset.range w).filter (fun i => x.getLsbD i)

@[simp] theorem mem_bitset {x : BitVec w} {i : ℕ} : i ∈ x.bitset ↔ x.getLsbD i = true := by
  constructor
  · intro h
    exact (Finset.mem_filter.mp h).2
  · intro h
    exact Finset.mem_filter.mpr ⟨Finset.mem_range.mpr (BitVec.lt_of_getLsbD h), h⟩

theorem lt_of_mem_bitset {x : BitVec w} {i : ℕ} (h : i ∈ x.bitset) : i < w :=
  BitVec.lt_of_getLsbD (mem_bitset.mp h)

theorem bitset_subset_range (x : BitVec w) : x.bitset ⊆ Finset.range w :=
  Finset.filter_subset _ _

theorem eq_of_bitset_eq {x y : BitVec w} (h : x.bitset = y.bitset) : x = y := by
  apply BitVec.eq_of_getLsbD_eq
  intro i hi
  have := congrArg (fun s => i ∈ s) h
  simp only [mem_bitset, eq_iff_iff] at this
  cases hx : x.getLsbD i <;> cases hy : y.getLsbD i <;> simp_all

@[simp] theorem bitset_zero : (0#w).bitset = ∅ := by
  ext i
  simp

@[simp] theorem bitset_eq_empty_iff {x : BitVec w} : x.bitset = ∅ ↔ x = 0#w := by
  constructor
  · intro h
    exact eq_of_bitset_eq (h.trans bitset_zero.symm)
  · rintro rfl
    exact bitset_zero

theorem bitset_nonempty {x : BitVec w} (hx : x ≠ 0#w) : x.bitset.Nonempty :=
  Finset.nonempty_iff_ne_empty.mpr (mt bitset_eq_empty_iff.mp hx)

@[simp] theorem bitset_allOnes : (allOnes w).bitset = Finset.range w := by
  ext i
  simp

@[simp] theorem bitset_and (x y : BitVec w) : (x &&& y).bitset = x.bitset ∩ y.bitset := by
  ext i
  simp

@[simp] theorem bitset_or (x y : BitVec w) : (x ||| y).bitset = x.bitset ∪ y.bitset := by
  ext i
  simp

theorem bitset_and_not (x y : BitVec w) : (x &&& ~~~y).bitset = x.bitset \ y.bitset := by
  ext i
  simp only [mem_bitset, getLsbD_and, getLsbD_not, Finset.mem_sdiff, Bool.and_eq_true,
    decide_eq_true_eq, Bool.not_eq_true', Bool.not_eq_true]
  constructor
  · rintro ⟨h1, -, h2⟩
    exact ⟨h1, h2⟩
  · rintro ⟨h1, h2⟩
    exact ⟨h1, BitVec.lt_of_getLsbD h1, h2⟩

@[simp] theorem bitset_twoPow (k : ℕ) :
    (twoPow w k).bitset = if k < w then {k} else ∅ := by
  ext i
  by_cases hk : k < w
  · simp only [mem_bitset, getLsbD_twoPow, hk, decide_true, Bool.true_and, decide_eq_true_eq,
      if_true, Finset.mem_singleton]
    exact eq_comm
  · simp only [mem_bitset, getLsbD_twoPow, hk, decide_false, Bool.false_and, if_false,
      Finset.notMem_empty]
    simp

theorem bitset_one_shiftLeft (k : ℕ) :
    (1#w <<< k).bitset = if k < w then {k} else ∅ :=
  bitset_twoPow k

theorem bitset_twoPow_sub_one {k : ℕ} (hk : k < w) :
    (twoPow w k - 1#w).bitset = Finset.range k := by
  ext i
  have hlt : 2 ^ k < 2 ^ w := Nat.pow_lt_pow_right (by decide) hk
  have hone : 1 ≤ 2 ^ k := Nat.one_le_two_pow
  have hval : (twoPow w k - 1#w).toNat = 2 ^ k - 1 := by
    have hw : 0 < w := by omega
    rw [toNat_sub, toNat_twoPow_of_lt hk, toNat_ofNat, Nat.one_mod_two_pow hw,
      show 2 ^ w - 1 + 2 ^ k = 2 ^ k - 1 + 2 ^ w by omega, Nat.add_mod_right,
      Nat.mod_eq_of_lt (by omega)]
  simp only [mem_bitset, getLsbD, hval, Nat.testBit_two_pow_sub_one, decide_eq_true_eq,
    Finset.mem_range]

/-! ## Lowest set bit -/

theorem ctz_toNat_lt {x : BitVec w} (hx : x ≠ 0#w) : x.ctz.toNat < w := by
  have h := ctz_lt_iff_ne_zero.mpr hx
  rw [lt_def] at h
  have hw : w < 2 ^ w := Nat.lt_two_pow_self
  simpa [Nat.mod_eq_of_lt hw] using h

theorem ctz_mem_bitset {x : BitVec w} (hx : x ≠ 0#w) : x.ctz.toNat ∈ x.bitset :=
  mem_bitset.mpr (getLsbD_true_ctz_of_ne_zero hx)

theorem ctz_le_of_mem_bitset {x : BitVec w} {i : ℕ} (h : i ∈ x.bitset) : x.ctz.toNat ≤ i := by
  by_contra hlt
  have := getLsbD_false_of_lt_ctz (x := x) (i := i) (by omega)
  simp_all

/-! ## Resetting the lowest set bit -/

theorem toNat_sub_one_of_ne_zero {x : BitVec w} (hx : x ≠ 0#w) :
    (x - 1#w).toNat = x.toNat - 1 := by
  have hpos := toNat_pos_of_ne_zero hx
  have hw : 0 < w := by
    rcases Nat.eq_zero_or_pos w with h | h
    · subst h
      exact absurd (eq_nil x) (by simpa using hx)
    · exact h
  have hlt : x.toNat < 2 ^ w := x.isLt
  rw [toNat_sub, toNat_ofNat, Nat.one_mod_two_pow hw,
    show 2 ^ w - 1 + x.toNat = x.toNat - 1 + 2 ^ w by omega, Nat.add_mod_right,
    Nat.mod_eq_of_lt (by omega)]

/-- `blsr x = x & (x - 1)`: the word with its lowest set bit reset. -/
def blsr (x : BitVec w) : BitVec w := x &&& (x - 1#w)

@[simp] theorem blsr_zero : blsr (0#w) = 0#w := by
  simp [blsr]

theorem getLsbD_blsr {x : BitVec w} (hx : x ≠ 0#w) (i : Nat) :
    (blsr x).getLsbD i = (x.getLsbD i && decide (i ≠ x.ctz.toNat)) := by
  have hk := getLsbD_true_ctz_of_ne_zero hx
  have hlow : ∀ j < x.ctz.toNat, x.toNat.testBit j = false := fun j hj =>
    getLsbD_false_of_lt_ctz hj
  rw [blsr, getLsbD_and]
  unfold getLsbD
  rw [toNat_sub_one_of_ne_zero hx, Nat.testBit_sub_one_of_lowest _ _ _ hk hlow]
  by_cases h1 : i < x.ctz.toNat
  · simp [hlow i h1]
  · by_cases h2 : i = x.ctz.toNat
    · subst h2
      simp
    · have h3 : x.ctz.toNat < i := by omega
      simp [h1, h2, h3]

/-- `blsr` removes exactly the least element of the bit set. -/
theorem bitset_blsr (x : BitVec w) : (blsr x).bitset = x.bitset.erase x.ctz.toNat := by
  by_cases hx : x = 0#w
  · subst hx
    simp
  · ext i
    simp only [mem_bitset, getLsbD_blsr hx, Bool.and_eq_true, decide_eq_true_eq,
      Finset.mem_erase]
    exact And.comm

theorem card_bitset_blsr {x : BitVec w} (hx : x ≠ 0#w) :
    (blsr x).bitset.card + 1 = x.bitset.card := by
  rw [bitset_blsr]
  exact Finset.card_erase_add_one (ctz_mem_bitset hx)

theorem blsr_toNat_lt {x : BitVec w} (hx : x ≠ 0#w) : (blsr x).toNat < x.toNat := by
  have hle : (blsr x).toNat ≤ (x - 1#w).toNat := by
    rw [blsr, toNat_and]
    exact Nat.and_le_right
  have hpos := toNat_pos_of_ne_zero hx
  rw [toNat_sub_one_of_ne_zero hx] at hle
  omega

end BitVec
