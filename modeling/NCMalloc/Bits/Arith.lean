import Mathlib

/-!
# Word arithmetic by bit tricks

Idioms of branch-free integer code and what they compute. Clearing the low bits with
`x & ~(2^k - 1)` rounds down to a multiple of `2^k`. Or-ing a word with its shifts by
`1, 2, 4, ...` fills every bit below the highest one, the step of rounding up to a power of
two. Comparing with `2^k - 1` and shifting by `k` halves the range in which the highest bit
lies, the step of a binary search for `log2`. Counting leading zeros is `log2` read from the
top.
-/

namespace BitVec

variable {w : ℕ}

theorem and_not_add_and (y m : BitVec w) : (y &&& ~~~m) + (y &&& m) = y := by
  rw [BitVec.add_eq_or_of_and_eq_zero]
  · ext i hi
    simp only [BitVec.getElem_or, BitVec.getElem_and, BitVec.getElem_not]
    cases y[i] <;> cases m[i] <;> rfl
  · ext i hi
    simp only [BitVec.getElem_and, BitVec.getElem_not, BitVec.getElem_zero]
    cases y[i] <;> cases m[i] <;> rfl

theorem toNat_and_not_of_toNat_eq (y m : BitVec w) (k : ℕ) (hm : m.toNat = 2 ^ k - 1) :
    (y &&& ~~~m).toNat = y.toNat / 2 ^ k * 2 ^ k := by
  have h := congrArg BitVec.toNat (and_not_add_and y m)
  have hlow : (y &&& m).toNat = y.toNat % 2 ^ k := by
    rw [BitVec.toNat_and, hm, Nat.and_two_pow_sub_one_eq_mod]
  have hhigh : (y &&& ~~~m).toNat ≤ y.toNat := by
    rw [BitVec.toNat_and]
    exact Nat.and_le_left
  rw [BitVec.toNat_add, hlow] at h
  have hy := y.isLt
  have hmod := Nat.mod_add_div y.toNat (2 ^ k)
  have hmod' := Nat.mod_lt y.toNat (Nat.two_pow_pos k)
  rw [Nat.mul_comm] at hmod
  rcases Nat.lt_or_ge ((y &&& ~~~m).toNat + y.toNat % 2 ^ k) (2 ^ w) with hs | hs
  · rw [Nat.mod_eq_of_lt hs] at h
    omega
  · rw [Nat.mod_eq_sub_mod hs, Nat.mod_eq_of_lt (by omega)] at h
    omega

end BitVec

namespace Nat

variable {x p m j k : ℕ}

/-- Bits `p` down to `p - m + 1` of `x` are set, and none above `p`. -/
def TopOnes (x p m : ℕ) : Prop := x < 2 ^ (p + 1) ∧ ∀ i ≤ p, p < i + m → x.testBit i = true

theorem topOnes_log (hx : x ≠ 0) : TopOnes x (Nat.log 2 x) 1 := by
  refine ⟨Nat.lt_pow_succ_log_self (by norm_num) x, fun i hi hlt => ?_⟩
  have hi' : i = Nat.log 2 x := by omega
  rw [hi', ← Nat.log2_eq_log_two]
  exact Nat.testBit_log2 hx

theorem TopOnes.or_shiftRight (h : TopOnes x p m) (hj : j ≤ m) :
    TopOnes (x ||| x >>> j) p (m + j) := by
  obtain ⟨hlt, hones⟩ := h
  refine ⟨Nat.or_lt_two_pow hlt (lt_of_le_of_lt (Nat.shiftRight_le x j) hlt), fun i hi hpi => ?_⟩
  rw [Nat.testBit_or, Nat.testBit_shiftRight]
  by_cases hm : p < i + m
  · rw [hones i hi hm, Bool.true_or]
  · -- bit `i` is below the run; its copy shifted down from `j + i` lies inside it
    rw [hones (j + i) (by omega) (by omega), Bool.or_true]

/-- Or-ing with shifts by the run's length, `m, 2m, 4m, ...`, doubles the run at each shift. -/
theorem TopOnes.foldl_or_shiftRight (h : TopOnes x p m) (n : ℕ) :
    TopOnes (((List.range n).map fun i => m * 2 ^ i).foldl (fun v s => v ||| v >>> s) x) p
      (m * 2 ^ n) := by
  induction n with
  | zero => simpa using h
  | succ n ih =>
    rw [List.range_succ, List.map_append, List.foldl_append, pow_succ, mul_two, mul_add]
    exact ih.or_shiftRight le_rfl

theorem TopOnes.eq (h : TopOnes x p m) (hm : p < m) : x = 2 ^ (p + 1) - 1 := by
  apply Nat.eq_of_testBit_eq
  intro i
  rw [Nat.testBit_two_pow_sub_one]
  by_cases hi : i ≤ p
  · rw [h.2 i hi (by omega), decide_eq_true (by omega)]
  · rw [Nat.testBit_lt_two_pow (lt_of_lt_of_le h.1 (Nat.pow_le_pow_right (by norm_num) (by omega))),
      decide_eq_false (by omega)]

theorem clog_two_eq_log_pred {v : ℕ} (hv : 2 ≤ v) : Nat.clog 2 v = Nat.log 2 (v - 1) + 1 := by
  have hlt := Nat.lt_pow_succ_log_self (by norm_num : 1 < 2) (v - 1)
  have hle := Nat.pow_log_le_self 2 (show v - 1 ≠ 0 by omega)
  apply le_antisymm
  · exact Nat.clog_le_of_le_pow (by omega)
  · exact (Nat.lt_clog_iff_pow_lt (by norm_num)).mpr (by omega)

/-- One step of the binary search for the highest bit: compared with `2^k - 1`, a number
below `2^(2k)` is shifted down by `k` exactly when its highest bit is at `k` or above. -/
theorem log_two_shiftRight_step (hx : x ≠ 0) (hlt : x < 2 ^ (2 * k)) :
    Nat.log 2 x = (if 2 ^ k - 1 < x then k else 0) + Nat.log 2 (x >>> (if 2 ^ k - 1 < x then k else 0)) ∧
      x >>> (if 2 ^ k - 1 < x then k else 0) ≠ 0 ∧
      x >>> (if 2 ^ k - 1 < x then k else 0) < 2 ^ k := by
  have hpos := Nat.two_pow_pos k
  by_cases h : 2 ^ k - 1 < x
  · rw [if_pos h, Nat.shiftRight_eq_div_pow]
    have hk : 2 ^ k ≤ x := by omega
    have hlog : k ≤ Nat.log 2 x := Nat.le_log_of_pow_le (by norm_num) hk
    refine ⟨?_, (Nat.div_pos hk hpos).ne', Nat.div_lt_of_lt_mul ?_⟩
    · rw [Nat.log_div_base_pow]
      omega
    · rwa [← pow_add, ← two_mul]
  · rw [if_neg h, Nat.shiftRight_zero, Nat.zero_add]
    exact ⟨rfl, hx, by omega⟩

theorem log_two_of_lt_four (hx : x ≠ 0) (h : x < 4) : Nat.log 2 x = x >>> 1 := by
  interval_cases x <;> decide

theorem or_eq_add_of_dvd {r s : ℕ} (hr : 2 ^ j ∣ r) (hs : s < 2 ^ j) : r ||| s = r + s := by
  obtain ⟨a, rfl⟩ := hr
  exact (Nat.two_pow_add_eq_or_of_lt hs a).symm

theorem eq_of_mul_add_eq {b q q' r r' : ℕ} (hr : r < b) (hr' : r' < b)
    (h : q * b + r = q' * b + r') : q = q' ∧ r = r' := by
  have hb : 0 < b := by omega
  have h1 := (Nat.div_mod_unique hb).mpr ⟨(by rw [h]; ring : r' + b * q' = q * b + r), hr'⟩
  have h2 := (Nat.div_mod_unique hb).mpr ⟨(by ring : r + b * q = q * b + r), hr⟩
  exact ⟨h2.1.symm.trans h1.1, h2.2.symm.trans h1.2⟩

end Nat

namespace BitVec

variable {w : ℕ}

theorem toNat_foldl_or_ushiftRight (x : BitVec w) (ks : List ℕ) :
    (ks.foldl (fun v s => v ||| v >>> s) x).toNat =
      ks.foldl (fun v s => v ||| v >>> s) x.toNat := by
  induction ks generalizing x with
  | nil => rfl
  | cons k ks ih => rw [List.foldl_cons, ih, List.foldl_cons, BitVec.toNat_or, BitVec.toNat_ushiftRight]

theorem toNat_clz {x : BitVec w} (hx : x ≠ 0#w) : (clz x).toNat = w - 1 - Nat.log 2 x.toNat := by
  have hx' : x.toNat ≠ 0 := fun h => hx (BitVec.eq_of_toNat_eq h)
  have hw : 0 < w := Nat.pos_of_ne_zero fun h => hx' (by subst h; exact BitVec.toNat_of_zero_length rfl x)
  have hc : (clz x).toNat < w := by
    have h := BitVec.lt_def.mp (BitVec.clz_lt_iff_ne_zero.mpr hx)
    rwa [BitVec.natCast_eq_ofNat, BitVec.toNat_ofNat, Nat.mod_two_pow_self] at h
  have hlog : Nat.log 2 x.toNat = w - 1 - (clz x).toNat := by
    rw [Nat.log_eq_iff (Or.inr ⟨by norm_num, hx'⟩)]
    refine ⟨BitVec.two_pow_sub_clz_le_toNat_of_ne_zero hw hx, ?_⟩
    have h := BitVec.toNat_lt_two_pow_sub_clz (x := x)
    rwa [show w - 1 - (clz x).toNat + 1 = w - (clz x).toNat by omega]
  omega

end BitVec
