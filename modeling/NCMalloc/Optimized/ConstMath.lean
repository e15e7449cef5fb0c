import Mathlib
import NCMalloc.Bits.Arith

/-!
# Constant arithmetic

`const_math.h` (`cmath::`) and the power-of-two helper of `bits.h`: rounding to a multiple,
the floor of `log2` by a binary search on the highest bit, and the least power of two at
least `v`. The templates are written for a word of any width `w`; the source instantiates
them at 32 and 64 bits, where `if constexpr (sizeof(T) == sizeof(uint64_t))` adds a step,
and the specifications are proved for those two widths.

`cmath::next_p2` smears the highest bit of `v - 1` downwards and adds one; `bits::next_p2`
shifts one left by the bit length of `v - 1`, read off `lzcnt`. They agree from 2 up, and
at 1 the special case of `bits::next_p2` returns 0.
-/

namespace NCMalloc

/-! ## Rounding -/

/-- `cmath::roundup<T>`. The literal `1` of `T` is asked for as the raw numeral, the form
numerals elaborate to, so that at `ℕ` it is the usual `1`. -/
def roundup {T : Type} [Add T] [Sub T] [Mul T] [Div T] [OfNat T (nat_lit 1)] (a b : T) : T :=
  b * ((a + (b - 1)) / b)

/-- `cmath::rounddown<T>`. -/
def rounddown {T : Type} [Mul T] [Div T] (a b : T) : T := b * (a / b)

theorem roundup_of_dvd {a b : ℕ} (hb : 0 < b) (h : b ∣ a) : roundup a b = a := by
  obtain ⟨q, rfl⟩ := h
  rw [roundup, Nat.mul_add_div hb, Nat.div_eq_of_lt (by omega), Nat.add_zero]

theorem roundup_of_le {a b : ℕ} (ha : 0 < a) (h : a ≤ b) : roundup a b = b := by
  have hq : (a + (b - 1)) / b = 1 := Nat.div_eq_of_lt_le (by omega) (by omega)
  rw [roundup, hq, Nat.mul_one]

theorem le_roundup (a : ℕ) {b : ℕ} (hb : 0 < b) : a ≤ roundup a b := by
  have hdiv := Nat.div_add_mod (a + (b - 1)) b
  have hmod := Nat.mod_lt (a + (b - 1)) hb
  rw [roundup]
  omega

/-! ## `next_p2` -/

/-- `cmath::next_p2<T>`: decrement, then `v |= v >> s` for `s = 1, 2, 4, 8, 16` and, in the
64-bit instantiation, `32`, then increment. -/
def nextP2 {w : ℕ} (v : BitVec w) : BitVec w :=
  let v := [1, 2, 4, 8, 16].foldl (fun v s => v ||| v >>> s) (v - 1)
  let v := if w = 64 then v ||| v >>> 32 else v
  v + 1

section NextP2

variable {w : ℕ}

theorem toNat_sub_one {v : BitVec w} (hw : 0 < w) (h : 1 ≤ v.toNat) : (v - 1).toNat = v.toNat - 1 := by
  have hone : (1 : BitVec w).toNat = 1 := BitVec.toNat_one hw
  rw [BitVec.toNat_sub_of_le (BitVec.le_def.mpr (by omega)), hone]

theorem toNat_smear {v : BitVec w} (hw : 0 < w) (h : 1 ≤ v.toNat) :
    ([1, 2, 4, 8, 16].foldl (fun v s => v ||| v >>> s) (v - 1)).toNat =
      ((List.range 5).map fun i => 1 * 2 ^ i).foldl (fun v s => v ||| v >>> s) (v.toNat - 1) := by
  rw [BitVec.toNat_foldl_or_ushiftRight, toNat_sub_one hw h]
  rfl

/-- `cmath::next_p2` is the least power of two at least `v`, for `1 ≤ v ≤ 2^(w-1)` in both
instantiations. -/
theorem nextP2_toNat (hw : w = 32 ∨ w = 64) {v : BitVec w} (h1 : 1 ≤ v.toNat)
    (h2 : v.toNat ≤ 2 ^ (w - 1)) : (nextP2 v).toNat = 2 ^ Nat.clog 2 v.toNat := by
  have hw0 : 0 < w := by omega
  set z := [1, 2, 4, 8, 16].foldl (fun v s => v ||| v >>> s) (v - 1) with hz
  have hsmear : z.toNat = _ := toNat_smear hw0 h1
  have hnext : nextP2 v = (if w = 64 then z ||| z >>> 32 else z) + 1 := rfl
  rw [hnext]
  rcases Nat.lt_or_ge v.toNat 2 with hv | hv
  · -- `v = 1`: `v - 1` has no bit to smear, and the increment gives one
    obtain hv1 : v.toNat = 1 := by omega
    rw [hv1, show ((List.range 5).map fun i => 1 * 2 ^ i).foldl (fun v s => v ||| v >>> s) (1 - 1) = 0
      by decide] at hsmear
    have hz0 : z = 0 := BitVec.eq_of_toNat_eq hsmear
    rw [hz0, hv1, Nat.clog_one_right]
    split_ifs <;> simp [BitVec.toNat_one hw0]
  · -- the bits below the highest bit `p` of `v - 1` are all set after the smear
    have htop := (Nat.topOnes_log (x := v.toNat - 1) (by omega)).foldl_or_shiftRight 5
    rw [← hsmear, Nat.one_mul] at htop
    have hp : Nat.log 2 (v.toNat - 1) < w - 1 := Nat.log_lt_of_lt_pow (by omega) (by omega)
    have hfill : (if w = 64 then z ||| z >>> 32 else z).toNat = 2 ^ (Nat.log 2 (v.toNat - 1) + 1) - 1 := by
      rcases hw with rfl | rfl
      · rw [if_neg (by decide)]
        exact htop.eq (by omega)
      · -- the 64-bit instantiation smears once more, by 32
        rw [if_pos rfl, BitVec.toNat_or, BitVec.toNat_ushiftRight]
        exact (htop.or_shiftRight le_rfl).eq (by omega)
    have hpow : 2 ^ (Nat.log 2 (v.toNat - 1) + 1) < 2 ^ w := Nat.pow_lt_pow_right (by norm_num) (by omega)
    have hpos := Nat.one_le_two_pow (n := Nat.log 2 (v.toNat - 1) + 1)
    have hone : (1 : BitVec w).toNat = 1 := BitVec.toNat_one hw0
    rw [BitVec.toNat_add_of_lt (by rw [hfill, hone]; omega), hfill, hone, Nat.clog_two_eq_log_pred hv]
    omega

end NextP2

/-! ## `ulog2` -/

/-- One step of `cmath::ulog2` with threshold and shift `(thr, sh)`:
`s = (v > thr) << sh; v >>= s; r |= s`. -/
def ulog2Step {w : ℕ} (rv : BitVec 32 × BitVec w) (step : ℕ × ℕ) : BitVec 32 × BitVec w :=
  let s : BitVec 32 := (if rv.2 > BitVec.ofNat w step.1 then 1#32 else 0#32) <<< step.2
  (rv.1 ||| s, rv.2 >>> s.toNat)

/-- `cmath::ulog2<T>`: the highest set bit of `v`, found by halving the range it lies in;
the 64-bit instantiation starts with a step of 32 bits. -/
def ulog2 {w : ℕ} (v : BitVec w) : BitVec 32 :=
  let rv : BitVec 32 × BitVec w :=
    if w = 64 then [(0xffffffff, 5), (0xffff, 4)].foldl ulog2Step (0, v)
    else [(0xffff, 4)].foldl ulog2Step (0, v)
  let rv := [(0xff, 3), (0xf, 2), (0x3, 1)].foldl ulog2Step rv
  rv.1 ||| (rv.2 >>> 1).setWidth 32

section Ulog2

variable {w : ℕ}

/-- The search state once `v` is known to lie below `2^(2^e)`: `v` is nonzero, `r` is a
multiple of `2^e`, and the highest bit of the input `x` is `r` plus the highest bit of `v`. -/
def Ulog2Inv (x e : ℕ) (rv : BitVec 32 × BitVec w) : Prop :=
  rv.2.toNat ≠ 0 ∧ rv.2.toNat < 2 ^ 2 ^ e ∧ 2 ^ e ∣ rv.1.toNat ∧
    Nat.log 2 x = rv.1.toNat + Nat.log 2 rv.2.toNat

theorem Ulog2Inv.init {v : BitVec w} {e : ℕ} (hv : v ≠ 0) (hw : w ≤ 2 ^ e) :
    Ulog2Inv v.toNat e (0, v) := by
  refine ⟨fun h => hv (BitVec.eq_of_toNat_eq h), ?_, dvd_zero _, (Nat.zero_add _).symm⟩
  exact lt_of_lt_of_le v.isLt (Nat.pow_le_pow_right (by norm_num) hw)

theorem Ulog2Inv.step {x sh thr : ℕ} {rv : BitVec 32 × BitVec w} (h : Ulog2Inv x (sh + 1) rv)
    (hthr : thr = 2 ^ 2 ^ sh - 1) (hw : 2 ^ sh ≤ w) (hsh : sh < 32) :
    Ulog2Inv x sh (ulog2Step rv (thr, sh)) := by
  obtain ⟨hv0, hvlt, hdvd, hlog⟩ := h
  have hthrlt : thr < 2 ^ w := by
    have := Nat.pow_le_pow_right (show 0 < 2 by norm_num) hw
    omega
  have hcmp : (rv.2 > BitVec.ofNat w thr) ↔ thr < rv.2.toNat := by
    rw [gt_iff_lt, BitVec.lt_def, BitVec.toNat_ofNat, Nat.mod_eq_of_lt hthrlt]
  have hs : ((if rv.2 > BitVec.ofNat w thr then 1#32 else 0#32) <<< sh).toNat =
      if 2 ^ 2 ^ sh - 1 < rv.2.toNat then 2 ^ sh else 0 := by
    have hlt : 2 ^ sh < 2 ^ 32 := Nat.pow_lt_pow_right (by norm_num) hsh
    by_cases hc : thr < rv.2.toNat
    · rw [if_pos (hcmp.mpr hc), ← hthr, if_pos hc, BitVec.toNat_shiftLeft, Nat.shiftLeft_eq]
      rw [show (1#32).toNat = 1 from rfl, Nat.one_mul]
      exact Nat.mod_eq_of_lt hlt
    · rw [if_neg (mt hcmp.mp hc), ← hthr, if_neg hc]
      simp
  have hstep := Nat.log_two_shiftRight_step (k := 2 ^ sh) hv0 (by rwa [← pow_succ'])
  obtain ⟨hlog', hne, hlt⟩ := hstep
  have hsle : (if 2 ^ 2 ^ sh - 1 < rv.2.toNat then 2 ^ sh else 0) < 2 ^ (sh + 1) := by
    have := Nat.pow_lt_pow_right (show 1 < 2 by norm_num) (Nat.lt_succ_self sh)
    split_ifs <;> omega
  have hr : (rv.1 ||| (if rv.2 > BitVec.ofNat w thr then 1#32 else 0#32) <<< sh).toNat =
      rv.1.toNat + if 2 ^ 2 ^ sh - 1 < rv.2.toNat then 2 ^ sh else 0 := by
    rw [BitVec.toNat_or, hs, Nat.or_eq_add_of_dvd hdvd hsle]
  simp only [ulog2Step]
  refine ⟨?_, ?_, ?_, ?_⟩
  · rwa [BitVec.toNat_ushiftRight, hs]
  · rwa [BitVec.toNat_ushiftRight, hs]
  · rw [hr]
    refine dvd_add (dvd_trans (pow_dvd_pow 2 (Nat.le_succ sh)) hdvd) ?_
    split_ifs <;> simp
  · rw [hr, BitVec.toNat_ushiftRight, hs, hlog, hlog']
    ring

theorem Ulog2Inv.finish {x : ℕ} {rv : BitVec 32 × BitVec w} (h : Ulog2Inv x 1 rv) :
    (rv.1 ||| (rv.2 >>> 1).setWidth 32).toNat = Nat.log 2 x := by
  obtain ⟨hv0, hvlt, hdvd, hlog⟩ := h
  have hlow : ((rv.2 >>> 1).setWidth 32).toNat = rv.2.toNat >>> 1 := by
    rw [BitVec.toNat_setWidth, BitVec.toNat_ushiftRight, Nat.mod_eq_of_lt]
    rw [Nat.shiftRight_eq_div_pow]
    omega
  rw [BitVec.toNat_or, hlow, Nat.or_eq_add_of_dvd hdvd (by rw [Nat.shiftRight_eq_div_pow]; omega),
    hlog, Nat.log_two_of_lt_four hv0 (by simpa using hvlt)]

/-- `cmath::ulog2` is the floor of `log2 v` for every nonzero `v` of both instantiations. -/
theorem ulog2_toNat (hw : w = 32 ∨ w = 64) {v : BitVec w} (hv : v ≠ 0) :
    (ulog2 v).toNat = Nat.log 2 v.toNat := by
  have h4 : Ulog2Inv v.toNat 4 (if w = 64 then [(0xffffffff, 5), (0xffff, 4)].foldl ulog2Step (0, v)
      else [(0xffff, 4)].foldl ulog2Step (0, v)) := by
    rcases hw with rfl | rfl
    · rw [if_neg (by decide)]
      exact (Ulog2Inv.init hv (by norm_num)).step rfl (by norm_num) (by norm_num)
    · rw [if_pos rfl]
      exact ((Ulog2Inv.init hv (by norm_num)).step rfl (by norm_num) (by norm_num)).step rfl
        (by norm_num) (by norm_num)
  have h1 := ((h4.step rfl (by omega) (by norm_num)).step rfl (by omega) (by norm_num)).step rfl
    (by omega) (by norm_num)
  exact Ulog2Inv.finish h1

end Ulog2

/-! ## `bits::next_p2` -/

namespace Bits

variable {w : ℕ}

/-- `bits::lzcnt<T>` (`_lzcnt_u32`, `_lzcnt_u64`): the leading zeros, `w` for the zero word. -/
def lzcnt (v : BitVec w) : BitVec w := v.clz

/-- `bits::next_p2<T>`: one shifted left by `8 * sizeof(T) - lzcnt(v - 1)`, the bit length of
`v - 1`; `0` for `v = 1`. At `v = 0` and above `2^(w-1)` the count is the width, a shift C
leaves undefined; x86's shifts take the count modulo the width. -/
def nextP2 (v : BitVec w) : BitVec w :=
  if v = 1 then 0 else (1 : BitVec w) <<< ((w - (lzcnt (v - 1)).toNat) % w)

/-- At 1 the special case returns 0 where `cmath::next_p2` returns 1, in both instantiations;
without it, `lzcnt(0) = w` would give `1 << 0 = 1`. -/
theorem nextP2_one : nextP2 (1 : BitVec 32) = 0 ∧ NCMalloc.nextP2 (1 : BitVec 32) = 1 ∧
    nextP2 (1 : BitVec 64) = 0 ∧ NCMalloc.nextP2 (1 : BitVec 64) = 1 := by
  decide

/-- From 2 up, `bits::next_p2` shifts one by the bit length of `v - 1`: the least power of two
at least `v`. -/
theorem toNat_nextP2 (hw : w = 32 ∨ w = 64) {v : BitVec w} (h2 : 2 ≤ v.toNat)
    (hle : v.toNat ≤ 2 ^ (w - 1)) : (nextP2 v).toNat = 2 ^ Nat.clog 2 v.toNat := by
  have hw0 : 0 < w := by omega
  have hone : (1 : BitVec w).toNat = 1 := BitVec.toNat_one hw0
  have hv1 : v ≠ 1 := fun h => by rw [h, hone] at h2; omega
  have hsub := toNat_sub_one hw0 (by omega : 1 ≤ v.toNat)
  have hsub0 : v - 1 ≠ 0#w := fun h => by rw [h, BitVec.toNat_zero] at hsub; omega
  -- the bit length of `v - 1` is its highest bit plus one, the exponent of the next power
  have hlen : w - (lzcnt (v - 1)).toNat = Nat.clog 2 v.toNat := by
    have hp : Nat.log 2 (v.toNat - 1) < w := Nat.log_lt_of_lt_pow (by omega) (by omega)
    rw [lzcnt, BitVec.toNat_clz hsub0, hsub, Nat.clog_two_eq_log_pred h2]
    omega
  have hclog : Nat.clog 2 v.toNat < w := by
    rw [Nat.clog_two_eq_log_pred h2]
    have := Nat.log_lt_of_lt_pow (b := 2) (show v.toNat - 1 ≠ 0 by omega)
      (show v.toNat - 1 < 2 ^ (w - 1) by omega)
    omega
  rw [nextP2, if_neg hv1, hlen, Nat.mod_eq_of_lt hclog, BitVec.toNat_shiftLeft, hone, Nat.shiftLeft_eq,
    Nat.one_mul]
  exact Nat.mod_eq_of_lt (Nat.pow_lt_pow_right (by norm_num) hclog)

/-- From 2 up, the shift by the bit length of `v - 1` is the smear of `cmath::next_p2`: both give
the least power of two at least `v`. -/
theorem nextP2_eq (hw : w = 32 ∨ w = 64) {v : BitVec w} (h2 : 2 ≤ v.toNat)
    (hle : v.toNat ≤ 2 ^ (w - 1)) :
    nextP2 v = NCMalloc.nextP2 v ∧ (nextP2 v).toNat = 2 ^ Nat.clog 2 v.toNat := by
  have hbits := toNat_nextP2 hw h2 hle
  have hcmath := nextP2_toNat hw (by omega) hle
  exact ⟨BitVec.eq_of_toNat_eq (hbits.trans hcmath.symm), hbits⟩

/-- At 100 both give 128. -/
theorem nextP2_eq_hundred :
    ((32 = 32 ∨ 32 = 64) ∧ 2 ≤ (100#32).toNat ∧ (100#32).toNat ≤ 2 ^ (32 - 1)) ∧
      (nextP2 100#32 = NCMalloc.nextP2 100#32 ∧
        (nextP2 100#32).toNat = 2 ^ Nat.clog 2 (100#32).toNat) :=
  ⟨⟨Or.inl rfl, by decide, by decide⟩, nextP2_eq (Or.inl rfl) (by decide) (by decide)⟩

end Bits

end NCMalloc
