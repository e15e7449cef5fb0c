import Mathlib

/-!
# Order statistics of a timing run

`stats.cc`: `stats_out::get_stats` sorts the samples and `sorted_array_to_stats` reads the
statistics off the sorted array: minimum, maximum, median, the 90th, 95th and 99th
percentiles, the mean and the spread. The array is a list and each `data[i]` a checked read
that fails with the index asked for when it lies past the end, where C reads outside the
array. Samples are rationals: the percentile indices are the exact floors of `.99 * n`,
`.95 * n` and `.90 * n`, and the mean keeps the source's `int` accumulator and its unsigned
division; the rounding of each double sum is left out.

For an odd count the reads stay inside the array and give the order statistics. For an
even count the median reads `data[n/2]` and `data[n/2 + 1]`, one past the middle pair: at
`n = 2` the second read is past the end.
-/

namespace NCMalloc.Stats

/-- `data[i]` on an array holding `data`: past the end it fails with the index. -/
def read (data : List ℚ) (i : ℕ) : Except ℕ ℚ :=
  match data[i]? with
  | some x => .ok x
  | none => .error i

theorem read_of_lt {data : List ℚ} {i : ℕ} (h : i < data.length) : read data i = pure data[i] := by
  rw [read, List.getElem?_eq_getElem h]
  rfl

theorem getElem?_of_lt {data : List ℚ} {i : ℕ} (h : i < data.length) : data[i]? = some data[i]! := by
  rw [getElem!_pos data i h]
  exact List.getElem?_eq_getElem h

theorem read_of_lt' {data : List ℚ} {i : ℕ} (h : i < data.length) : read data i = pure data[i]! := by
  rw [read_of_lt h, getElem!_pos data i h]

theorem read_of_le {data : List ℚ} {i : ℕ} (h : data.length ≤ i) : read data i = .error i := by
  rw [read, List.getElem?_eq_none h]

/-- A loop `for (i = 0; i < n; ++i) acc = g(acc, data[i])` below the length folds the first
`n` entries. -/
theorem foldlM_read {data : List ℚ} {β : Type} (g : β → ℚ → β) (a : β) {n : ℕ}
    (hn : n ≤ data.length) :
    (List.range n).foldlM (fun acc i => do let x ← read data i; pure (g acc x)) a =
      pure ((data.take n).foldl g a) := by
  induction n with
  | zero => rfl
  | succ n ih =>
    have hlt : n < data.length := by omega
    rw [List.range_succ, List.foldlM_append, ih (by omega), List.take_add_one,
      List.getElem?_eq_getElem hlt, Option.toList_some, List.foldl_append]
    simp only [List.foldlM_cons, List.foldlM_nil, read_of_lt hlt, pure_bind, bind_pure]
    rfl

/-- The fields of `stats_out` that `sorted_array_to_stats` writes, the time unit apart. -/
structure StatsOut where
  N : ℕ
  median : ℚ
  mean : ℚ
  max : ℚ
  min : ℚ
  p99 : ℚ
  p95 : ℚ
  p90 : ℚ
  stddev : ℚ
  variance : ℚ
deriving DecidableEq, Repr

/-- C's conversion of a `double` to `int`: toward zero. Outside the range of `int` C leaves
it undefined; the `cvttsd2si` of the x86 build gives `INT_MIN` there. -/
def doubleToInt (q : ℚ) : ℤ :=
  if -2 ^ 31 ≤ q.num.tdiv q.den ∧ q.num.tdiv q.den < 2 ^ 31 then q.num.tdiv q.den else -2 ^ 31

/-- `std::accumulate(data, data + n, 0)`: the initial value `0` is an `int`, so each partial
sum is converted back to `int`. -/
def accumulate (data : List ℚ) (n : ℕ) : Except ℕ ℤ :=
  (List.range n).foldlM (fun acc i => do let x ← read data i; pure (doubleToInt (acc + x))) 0

/-- `stddev_and_variance`: `none` where it prints its error and leaves both outputs as they
were. The sum of squared deviations goes to `stddev` over `n - 1` and to `variance` over
`n`, as the source writes them. -/
def stddevAndVariance (mean : ℚ) (data : List ℚ) (n : ℕ) : Except ℕ (Option (ℚ × ℚ)) :=
  if n ≤ 1 then pure none
  else do
    let sum ← (List.range n).foldlM
      (fun sum i => do let x ← read data i; pure (sum + (x - mean) * (x - mean))) 0
    pure (some (sum / (n - 1 : ℕ), sum / n))

/-- `uint64_t p99_idx = .99 * ((double)n)` and its siblings for 95 and 90: the index of a
percentile, the product read as an exact real and truncated. -/
def percentileIdx (pct n : ℕ) : ℕ := pct * n / 100

theorem percentileIdx_lt {pct n : ℕ} (hpct : pct < 100) (hn : 0 < n) : percentileIdx pct n < n := by
  rw [percentileIdx, Nat.div_lt_iff_lt_mul (by norm_num)]
  nlinarith

/-- The median expression of `sorted_array_to_stats`:
`(n % 2) ? data[n / 2] : (data[n / 2] + data[(n / 2) + 1]) / 2`. -/
def median (data : List ℚ) (n : ℕ) : Except ℕ ℚ :=
  if n % 2 = 1 then read data (n / 2)
  else do
    let a ← read data (n / 2)
    let b ← read data (n / 2 + 1)
    pure ((a + b) / 2)

/-- `stats_out::sorted_array_to_stats` on the state `s`. The count of one reads `data[0]`
for every field; otherwise the mean divides the `int` sum by the `uint32_t` count, so the
sum is taken modulo `2^32` first, and `stddev` and `variance` keep their old values when
`stddev_and_variance` returns early. -/
def sortedArrayToStats (s : StatsOut) (data : List ℚ) (n : ℕ) : Except ℕ StatsOut :=
  if n = 1 then do
    let x ← read data 0
    pure { N := 1, median := x, mean := x, max := x, min := x, p99 := x, p95 := x, p90 := x,
           stddev := 0, variance := 0 }
  else do
    let med ← median data n
    let acc ← accumulate data n
    let mean : ℚ := ((acc % 2 ^ 32).toNat / n : ℕ)
    let max ← read data (n - 1)
    let min ← read data 0
    let p99 ← read data (percentileIdx 99 n)
    let p95 ← read data (percentileIdx 95 n)
    let p90 ← read data (percentileIdx 90 n)
    let spread ← stddevAndVariance mean data n
    pure { N := n, median := med, mean, max, min, p99, p95, p90,
           stddev := (spread.map Prod.fst).getD s.stddev,
           variance := (spread.map Prod.snd).getD s.variance }

/-- Two samples: the median reads `data[2]`, past the end of the array. -/
theorem sortedArrayToStats_two (s : StatsOut) (x y : ℚ) :
    sortedArrayToStats s [x, y] 2 = .error 2 := by
  rfl

/-- The fields of `t` that `sorted_array_to_stats` reads at fixed places of `n` samples: the
count, the first and last samples, and the samples at the percentile indices. -/
def Selected (data : List ℚ) (n : ℕ) (t : StatsOut) : Prop :=
  t.N = n ∧ data[0]? = some t.min ∧ data[n - 1]? = some t.max ∧
    data[percentileIdx 99 n]? = some t.p99 ∧ data[percentileIdx 95 n]? = some t.p95 ∧
    data[percentileIdx 90 n]? = some t.p90

section Reads

variable {data : List ℚ} {n : ℕ}

theorem accumulate_of_le (hn : n ≤ data.length) :
    accumulate data n = pure ((data.take n).foldl (fun acc x => doubleToInt (acc + x)) 0) :=
  foldlM_read _ _ hn

theorem stddevAndVariance_ok (mean : ℚ) (hn : n ≤ data.length) :
    ∃ r, stddevAndVariance mean data n = pure r := by
  unfold stddevAndVariance
  split_ifs
  · exact ⟨none, rfl⟩
  · rw [foldlM_read _ _ hn]
    exact ⟨_, rfl⟩

/-- Past the median, every read of `sorted_array_to_stats` lies inside an array of `n ≠ 1`
samples: the result takes the median that was read, the first and last samples and the
samples at the percentile indices. -/
theorem sortedArrayToStats_of_median (s : StatsOut) (hn1 : n ≠ 1) (hpos : 0 < n)
    (hlen : data.length = n) {m : ℚ} (hm : median data n = .ok m) :
    ∃ t, sortedArrayToStats s data n = .ok t ∧ t.median = m ∧ Selected data n t := by
  have hread : ∀ i, i < n → read data i = pure data[i]! := fun i hi => read_of_lt' (by omega)
  have hsome : ∀ i, i < n → data[i]? = some data[i]! := fun i hi => getElem?_of_lt (by omega)
  have hm' : median data n = pure m := hm
  obtain ⟨r, hr⟩ := stddevAndVariance_ok
    (((((data.take n).foldl (fun acc x => doubleToInt (acc + x)) 0) % 2 ^ 32).toNat / n : ℕ) : ℚ)
    hlen.ge
  simp only [sortedArrayToStats, if_neg hn1, hm', accumulate_of_le hlen.ge, hread (n - 1) (by omega),
    hread 0 hpos, hread _ (percentileIdx_lt (by norm_num : 99 < 100) hpos),
    hread _ (percentileIdx_lt (by norm_num : 95 < 100) hpos),
    hread _ (percentileIdx_lt (by norm_num : 90 < 100) hpos), hr, pure_bind]
  exact ⟨_, rfl, rfl, rfl, hsome 0 hpos, hsome (n - 1) (by omega),
    hsome _ (percentileIdx_lt (by norm_num) hpos), hsome _ (percentileIdx_lt (by norm_num) hpos),
    hsome _ (percentileIdx_lt (by norm_num) hpos)⟩

theorem sortedArrayToStats_odd (s : StatsOut) (hlen : data.length = n) (hodd : n % 2 = 1) :
    ∃ t, sortedArrayToStats s data n = .ok t ∧ data[(n - 1) / 2]? = some t.median ∧
      Selected data n t := by
  rcases Nat.lt_or_ge n 3 with hn | hn
  · -- the count of one reads `data[0]` for every field
    obtain rfl : n = 1 := by omega
    obtain ⟨x, rfl⟩ := List.length_eq_one_iff.mp hlen
    exact ⟨_, rfl, rfl, rfl, rfl, rfl, rfl, rfl, rfl⟩
  · have hmid : (n - 1) / 2 = n / 2 := by omega
    have hm : median data n = .ok data[n / 2]! := by
      rw [median, if_pos hodd, read_of_lt' (by omega)]
      rfl
    obtain ⟨t, ht, hmed, hsel⟩ := sortedArrayToStats_of_median s (by omega) (by omega) hlen hm
    refine ⟨t, ht, ?_, hsel⟩
    rw [hmid, hmed]
    exact getElem?_of_lt (by omega)

/-- For an even count of at least four every read lies inside the array, but the median is
taken from `data[n/2]` and `data[n/2 + 1]`, the pair above the middle one. -/
theorem sortedArrayToStats_even (s : StatsOut) (hlen : data.length = n) (heven : n % 2 = 0)
    (h4 : 4 ≤ n) :
    ∃ t, sortedArrayToStats s data n = .ok t ∧
      (∃ a b, data[n / 2]? = some a ∧ data[n / 2 + 1]? = some b ∧ t.median = (a + b) / 2) ∧
      Selected data n t := by
  have hm : median data n = .ok ((data[n / 2]! + data[n / 2 + 1]!) / 2) := by
    rw [median, if_neg (by omega), read_of_lt' (by omega), read_of_lt' (by omega)]
    rfl
  obtain ⟨t, ht, hmed, hsel⟩ := sortedArrayToStats_of_median s (by omega) (by omega) hlen hm
  exact ⟨t, ht, ⟨_, _, getElem?_of_lt (by omega), getElem?_of_lt (by omega), hmed⟩, hsel⟩

end Reads

/-- `stats_out::get_stats` on doubles: nothing to do on no samples, otherwise sort ascending
(`std::sort`) and read the statistics. -/
def getStats (s : StatsOut) (data : List ℚ) : Except ℕ StatsOut :=
  if data.length = 0 then pure s
  else sortedArrayToStats s (data.mergeSort fun a b => decide (a ≤ b)) data.length

theorem le_of_pairwise {l : List ℚ} (hs : l.Pairwise (· ≤ ·)) {i j : ℕ} {a b : ℚ} (hij : i ≤ j)
    (ha : l[i]? = some a) (hb : l[j]? = some b) : a ≤ b := by
  obtain ⟨hi, rfl⟩ := List.getElem?_eq_some_iff.mp ha
  obtain ⟨hj, rfl⟩ := List.getElem?_eq_some_iff.mp hb
  rcases Nat.lt_or_eq_of_le hij with h | rfl
  · exact List.pairwise_iff_getElem.mp hs i j hi hj h
  · exact le_rfl

/-- `get_stats` on any samples but two: the reads stay inside the sorted array, the minimum and
maximum are samples that bound every sample, and the percentiles are samples. -/
theorem getStats_bounds (s : StatsOut) {data : List ℚ} (h0 : data ≠ []) (h2 : data.length ≠ 2) :
    ∃ t, getStats s data = .ok t ∧ t.N = data.length ∧ t.min ∈ data ∧ t.max ∈ data ∧
      (∀ x ∈ data, t.min ≤ x ∧ x ≤ t.max) ∧ t.p99 ∈ data ∧ t.p95 ∈ data ∧ t.p90 ∈ data := by
  set l := data.mergeSort fun a b => decide (a ≤ b)
  have hlen : l.length = data.length := List.length_mergeSort _
  have hperm : l.Perm data := List.mergeSort_perm _ _
  have hsorted : l.Pairwise (· ≤ ·) := List.pairwise_mergeSort' _ data
  have hn : data.length ≠ 0 := fun h => h0 (List.length_eq_zero_iff.mp h)
  obtain ⟨t, ht, hsel⟩ : ∃ t, sortedArrayToStats s l data.length = .ok t ∧ Selected l data.length t := by
    rcases Nat.mod_two_eq_zero_or_one data.length with he | ho
    · obtain ⟨t, ht, -, hsel⟩ := sortedArrayToStats_even s hlen he (by omega)
      exact ⟨t, ht, hsel⟩
    · obtain ⟨t, ht, -, hsel⟩ := sortedArrayToStats_odd s hlen ho
      exact ⟨t, ht, hsel⟩
  obtain ⟨hN, hmin, hmax, h99, h95, h90⟩ := hsel
  have hmem : ∀ {i x}, l[i]? = some x → x ∈ data := fun h => hperm.mem_iff.mp (List.mem_of_getElem? h)
  refine ⟨t, by rw [getStats, if_neg hn]; exact ht, hN, hmem hmin, hmem hmax, ?_, hmem h99,
    hmem h95, hmem h90⟩
  intro x hx
  obtain ⟨j, hj, rfl⟩ := List.getElem_of_mem (hperm.mem_iff.mpr hx)
  exact ⟨le_of_pairwise hsorted (Nat.zero_le j) hmin (List.getElem?_eq_getElem hj),
    le_of_pairwise hsorted (by omega) (List.getElem?_eq_getElem hj) hmax⟩

theorem getStats_bounds_three :
    [(3 : ℚ), 1, 2] ≠ [] ∧ [(3 : ℚ), 1, 2].length ≠ 2 ∧
      ∃ t, getStats ⟨0, 0, 0, 0, 0, 0, 0, 0, 0, 0⟩ [3, 1, 2] = .ok t ∧ t.N = [(3 : ℚ), 1, 2].length ∧
        t.min ∈ [(3 : ℚ), 1, 2] ∧ t.max ∈ [(3 : ℚ), 1, 2] ∧
        (∀ x ∈ [(3 : ℚ), 1, 2], t.min ≤ x ∧ x ≤ t.max) ∧ t.p99 ∈ [(3 : ℚ), 1, 2] ∧
        t.p95 ∈ [(3 : ℚ), 1, 2] ∧ t.p90 ∈ [(3 : ℚ), 1, 2] :=
  ⟨by simp, by decide, getStats_bounds _ (by simp) (by decide)⟩

end NCMalloc.Stats
