import EventStreamCore.Lib.CountingSort
import EventStreamCore.Metrics.Histogram
import Mathlib.Data.List.GetD
import Mathlib.Data.List.Induction

/-!
# What the percentiles are

`LatencyHistogram::calculatePercentile`, `getMinValue` and `getMaxValue`,
`include/eventstream/core/metrics/histogram.hpp:63–116`, over the latencies recorded: bucketing
keeps the order, so the sample at an index stands in the bucket of the latency that sorting would
put there. The counters have 64 bits.
-/

namespace EventStreamCore.Metrics.LatencyHistogram
open EventStreamCore.Lib

/-! ### The buckets -/

private theorem shift_toNat {bucket : Nat} (h : bucket < numBuckets) :
    ((1 : UInt64) <<< UInt64.ofNat bucket).toNat = 2 ^ bucket := by
  have hb : bucket < 64 := h
  have hpow : 2 ^ bucket < 2 ^ 64 := Nat.pow_lt_pow_right (by decide) hb
  have hsize : bucket < UInt64.size := Nat.lt_trans hb (by decide)
  rw [UInt64.toNat_shiftLeft, UInt64.toNat_ofNat_of_lt' hsize, Nat.mod_eq_of_lt hb,
    UInt64.toNat_one, Nat.one_shiftLeft, Nat.mod_eq_of_lt hpow]

theorem bucketMin_toNat {bucket : Nat} (h : bucket < numBuckets) :
    (bucketMin bucket).toNat = if bucket = 0 then 0 else 2 ^ bucket := by
  rw [bucketMin]
  split
  · rfl
  · exact shift_toNat h

/-- The upper bound of a bucket does not overflow, at the last one by its own case. -/
theorem bucketMax_toNat {bucket : Nat} (h : bucket < numBuckets) :
    (bucketMax bucket).toNat = 2 ^ (bucket + 1) - 1 := by
  rw [bucketMax]
  split
  · next hlast =>
    subst hlast
    decide
  · next hlast =>
    have hb : bucket < 64 := h
    have hnext : bucket + 1 < numBuckets := show bucket + 1 < 64 by omega
    have hpos := Nat.two_pow_pos (bucket + 1)
    rw [UInt64.toNat_sub_of_le, shift_toNat hnext]
    · rfl
    · rw [UInt64.le_iff_toNat_le, shift_toNat hnext]
      exact hpos

/-- The sum of a bucket's lower bound and half its width does not overflow. -/
theorem midpoint_toNat {bucket : Nat} (h : bucket < numBuckets) :
    (midpoint bucket).toNat = (bucketMin bucket).toNat + 2 ^ bucket / 2 := by
  have hpow : 2 ^ bucket ≤ 2 ^ 63 :=
    Nat.pow_le_pow_right (by decide) (Nat.le_of_lt_succ h)
  have hmin : (bucketMin bucket).toNat ≤ 2 ^ bucket := by
    have hpos := Nat.two_pow_pos bucket
    rw [bucketMin_toNat h]
    split <;> omega
  rw [midpoint, UInt64.toNat_add, UInt64.toNat_div, shift_toNat h]
  apply Nat.mod_eq_of_lt
  change _ + 2 ^ bucket / 2 < 2 ^ 64
  omega

/-- A bucket's representative lies in the bucket. -/
theorem midpoint_mem {bucket : Nat} (h : bucket < numBuckets) :
    bucketMin bucket ≤ midpoint bucket ∧ midpoint bucket ≤ bucketMax bucket := by
  have hpow : 2 ^ (bucket + 1) = 2 ^ bucket * 2 := Nat.pow_succ 2 bucket
  have hpos := Nat.two_pow_pos bucket
  rw [UInt64.le_iff_toNat_le, UInt64.le_iff_toNat_le, bucketMax_toNat h, midpoint_toNat h]
  constructor
  · omega
  · rw [bucketMin_toNat h]
    split <;> omega

/-- A latency lies in its bucket. -/
theorem bucketForLatency_mem (latencyNs : UInt64) :
    bucketMin (bucketForLatency latencyNs) ≤ latencyNs ∧
      latencyNs ≤ bucketMax (bucketForLatency latencyNs) := by
  have hb := (bucketForLatency latencyNs).isLt
  rw [UInt64.le_iff_toNat_le, UInt64.le_iff_toNat_le, bucketMin_toNat hb, bucketMax_toNat hb]
  rw [bucketForLatency]
  split
  · next hle =>
    have hone : latencyNs.toNat ≤ 1 := UInt64.le_iff_toNat_le.mp hle
    simpa using hone
  · next hle =>
    have hone : 1 < latencyNs.toNat := UInt64.lt_iff_toNat_lt.mp (UInt64.not_le.mp hle)
    have hlog : latencyNs.toNat.log2 ≤ numBuckets - 1 :=
      Nat.le_of_lt_succ (Nat.log2_lt (by omega) |>.mpr latencyNs.toNat_lt)
    have hlow := Nat.log2_self_le (n := latencyNs.toNat) (by omega)
    have hhigh := Nat.lt_log2_self (n := latencyNs.toNat)
    have hpos : latencyNs.toNat.log2 ≠ 0 := by
      intro hzero
      rw [hzero] at hhigh
      omega
    simp only [Nat.min_eq_left hlog, if_neg hpos]
    omega

/-- Every value of a bucket is below every value of a later one. -/
theorem bucketMax_lt_bucketMin {b b' : Nat} (hlt : b < b') (h : b' < numBuckets) :
    bucketMax b < bucketMin b' := by
  have hpow : 2 ^ (b + 1) ≤ 2 ^ b' := Nat.pow_le_pow_right (by decide) hlt
  have hpos := Nat.two_pow_pos (b + 1)
  rw [UInt64.lt_iff_toNat_lt, bucketMax_toNat (Nat.lt_trans hlt h), bucketMin_toNat h,
    if_neg (by omega)]
  omega

/-- Bucketing keeps the order of the latencies. -/
theorem bucketForLatency_mono {a b : UInt64} (h : a ≤ b) :
    (bucketForLatency a).val ≤ (bucketForLatency b).val := by
  apply Nat.le_of_not_lt
  intro hlt
  have hbelow := bucketMax_lt_bucketMin hlt (bucketForLatency a).isLt
  have hab : b < a := UInt64.lt_of_le_of_lt (bucketForLatency_mem b).2
    (UInt64.lt_of_lt_of_le hbelow (bucketForLatency_mem a).1)
  exact UInt64.not_le.mpr hab h

/-- The representatives keep the order of the buckets. -/
theorem midpoint_mono {b b' : Nat} (hle : b ≤ b') (h : b' < numBuckets) :
    midpoint b ≤ midpoint b' := by
  rcases Nat.eq_or_lt_of_le hle with rfl | hlt
  · exact UInt64.le_refl _
  · apply UInt64.le_trans (midpoint_mem (Nat.lt_trans hlt h)).2
    exact UInt64.le_trans (UInt64.le_of_lt (bucketMax_lt_bucketMin hlt h)) (midpoint_mem h).1

/-! ### The counters after a list of latencies -/

/-- The histogram after recording a list of latencies. -/
def ofLatencies (latencies : List UInt64) : LatencyHistogram := latencies.foldl record initial

/-- The buckets of a list of latencies. -/
def bucketsOf (latencies : List UInt64) : List Nat :=
  latencies.map fun latencyNs ↦ (bucketForLatency latencyNs).val

private theorem ofLatencies_concat (latencies : List UInt64) (latencyNs : UInt64) :
    ofLatencies (latencies ++ [latencyNs]) = (ofLatencies latencies).record latencyNs := by
  rw [ofLatencies, List.foldl_append]
  rfl

private theorem getBucketCount_record (h : LatencyHistogram) (latencyNs : UInt64) (b : Nat) :
    (h.record latencyNs).getBucketCount b = h.getBucketCount b +
      if (bucketForLatency latencyNs).val = b then 1 else 0 := by
  by_cases hb : b < numBuckets
  · simp only [getBucketCount, dif_pos hb, record]
    by_cases heq : (bucketForLatency latencyNs).val = b
    · have hfin : (⟨b, hb⟩ : Fin numBuckets) = bucketForLatency latencyNs := Fin.ext heq.symm
      rw [if_pos heq, hfin, Function.update_self]
    · have hfin : (⟨b, hb⟩ : Fin numBuckets) ≠ bucketForLatency latencyNs :=
        fun h ↦ heq (Fin.ext_iff.mp h).symm
      rw [if_neg heq, Function.update_of_ne hfin, UInt64.add_zero]
  · have hne : (bucketForLatency latencyNs).val ≠ b := by
      have hlt := (bucketForLatency latencyNs).isLt
      omega
    simp only [getBucketCount, dif_neg hb, if_neg hne]
    rfl

theorem totalCount_ofLatencies (latencies : List UInt64) :
    (ofLatencies latencies).totalCount = UInt64.ofNat latencies.length := by
  induction latencies using List.reverseRecOn with
  | nil => rfl
  | append_singleton latencies latencyNs ih =>
    rw [ofLatencies_concat, List.length_append, UInt64.ofNat_add, ← ih]
    rfl

/-- A counter holds how many of the latencies fall into its bucket, in 64 bits. -/
theorem getBucketCount_ofLatencies (latencies : List UInt64) (b : Nat) :
    (ofLatencies latencies).getBucketCount b = UInt64.ofNat ((bucketsOf latencies).count b) := by
  induction latencies using List.reverseRecOn with
  | nil =>
    simp only [getBucketCount, ofLatencies, List.foldl_nil, initial]
    split <;> rfl
  | append_singleton latencies latencyNs ih =>
    rw [ofLatencies_concat, getBucketCount_record, ih]
    simp only [bucketsOf, List.map_append, List.count_append, UInt64.ofNat_add,
      List.map_singleton, List.count_singleton, beq_iff_eq]
    split <;> rfl

/-- The histogram does not depend on the order of the recordings. -/
theorem ofLatencies_congr {latencies latencies' : List UInt64}
    (hperm : latencies.Perm latencies') : ofLatencies latencies = ofLatencies latencies' := by
  have htotal := totalCount_ofLatencies latencies
  have htotal' := totalCount_ofLatencies latencies'
  rw [hperm.length_eq, ← htotal'] at htotal
  have hbuckets : (ofLatencies latencies).buckets = (ofLatencies latencies').buckets := by
    funext b
    have hcount := getBucketCount_ofLatencies latencies b
    have hcount' := getBucketCount_ofLatencies latencies' b
    rw [bucketsOf, (hperm.map _).count_eq, ← bucketsOf, ← hcount'] at hcount
    simpa only [getBucketCount, dif_pos b.isLt] using hcount
  exact congrArg₂ LatencyHistogram.mk hbuckets htotal

/-! ### The samples and the order statistics -/

private theorem count_bucketsOf_le {latencies : List UInt64} {b : Nat} :
    (bucketsOf latencies).count b ≤ latencies.length := by
  apply Nat.le_trans List.count_le_length
  exact Nat.le_of_eq (List.length_map _)

/-- While no counter has wrapped, the samples are the representatives of the latencies' buckets,
in the order of the latencies. -/
theorem samples_ofLatencies {latencies : List UInt64} (hlen : latencies.length < 2 ^ 64) :
    (ofLatencies latencies).samples =
      latencies.mergeSort.map fun latencyNs ↦ midpoint (bucketForLatency latencyNs) := by
  have hcount (b : Nat) : ((ofLatencies latencies).getBucketCount b).toNat =
      (bucketsOf latencies).count b := by
    rw [getBucketCount_ofLatencies]
    exact UInt64.toNat_ofNat_of_lt' (Nat.lt_of_le_of_lt count_bucketsOf_le hlen)
  have hkeys : ∀ x ∈ bucketsOf latencies, x ∈ List.range numBuckets := by
    intro x hx
    obtain ⟨latencyNs, -, rfl⟩ := List.mem_map.mp hx
    exact List.mem_range.mpr (bucketForLatency latencyNs).isLt
  have hsamples : (ofLatencies latencies).samples =
      (replicateCounts (List.range numBuckets) ((bucketsOf latencies).count ·)).map midpoint := by
    simp only [samples, replicateCounts, hcount, List.map_flatMap, List.map_replicate]
  rw [hsamples, replicateCounts_eq_mergeSort List.nodup_range List.pairwise_le_range hkeys,
    bucketsOf, mergeSort_map_of_le fun _ _ ↦ bucketForLatency_mono, List.map_map]
  rfl

/-- The latency that sorting puts at an index. -/
def orderStatistic (latencies : List UInt64) (idx : Nat) : UInt64 :=
  latencies.mergeSort.getD idx 0

theorem clampIndex_lt (position : Nat → Nat) {size : Nat} (h : 0 < size) :
    clampIndex position size < size := by
  rw [clampIndex]
  split <;> omega

theorem orderStatistic_mem {latencies : List UInt64} {idx : Nat} (h : idx < latencies.length) :
    orderStatistic latencies idx ∈ latencies := by
  have hidx : idx < latencies.mergeSort.length := by
    rw [List.length_mergeSort]
    exact h
  rw [orderStatistic, List.getD_eq_getElem _ _ hidx]
  exact List.mem_mergeSort.mp (List.getElem_mem hidx)

theorem orderStatistic_mono {latencies : List UInt64} {i j : Nat} (hij : i ≤ j)
    (hj : j < latencies.length) : orderStatistic latencies i ≤ orderStatistic latencies j := by
  have hidx : j < latencies.mergeSort.length := by
    rw [List.length_mergeSort]
    exact hj
  rw [orderStatistic, orderStatistic, List.getD_eq_getElem _ _ hidx,
    List.getD_eq_getElem _ _ (Nat.lt_of_le_of_lt hij hidx)]
  exact getElem_mergeSort_le hij hidx

/-- A percentile is the representative of the bucket of an order statistic. -/
theorem calculatePercentile_eq_midpoint {latencies : List UInt64} (hne : latencies ≠ [])
    (hlen : latencies.length < 2 ^ 64) (position : Nat → Nat) :
    (ofLatencies latencies).calculatePercentile position =
      midpoint (bucketForLatency
        (orderStatistic latencies (clampIndex position latencies.length))) := by
  have hpos : 0 < latencies.length := List.length_pos_iff.mpr hne
  have htotal : (ofLatencies latencies).totalCount ≠ 0 := by
    rw [totalCount_ofLatencies]
    intro hzero
    have hnat := congrArg UInt64.toNat hzero
    rw [UInt64.toNat_ofNat_of_lt' hlen, UInt64.toNat_zero] at hnat
    omega
  have hsamples := samples_ofLatencies hlen
  have hsize : (ofLatencies latencies).samples.length = latencies.length := by
    rw [hsamples, List.length_map, List.length_mergeSort]
  have hnonempty : (ofLatencies latencies).samples.isEmpty = false := by
    rw [List.isEmpty_eq_false_iff, ← List.length_pos_iff, hsize]
    exact hpos
  have hsorted : (ofLatencies latencies).samples.Pairwise (· ≤ ·) := by
    rw [hsamples]
    apply List.Pairwise.map _ _ (pairwise_mergeSort_le latencies)
    intro a b hab
    exact midpoint_mono (bucketForLatency_mono hab) (bucketForLatency b).isLt
  -- the samples are collected in order, so `nth_element` finds nothing to move
  rw [calculatePercentile, if_neg htotal]
  simp only [hnonempty, Bool.false_eq_true, if_false]
  rw [← eq_mergeSort (List.Perm.refl _) hsorted, hsize, hsamples]
  exact List.getD_map _ (d := 0) fun latencyNs ↦ midpoint (bucketForLatency latencyNs)

/-! ### The smallest and the largest bucket in use -/

private theorem find?_first {α : Type} {R : α → α → Prop} {p : α → Bool} {l : List α} {a x : α}
    (hl : l.Pairwise R) (hfind : l.find? p = some a) (hx : x ∈ l) (hp : p x) : a = x ∨ R a x := by
  obtain ⟨-, before, after, rfl, hbefore⟩ := List.find?_eq_some_iff_append.mp hfind
  rcases List.mem_append.mp hx with hmem | hmem
  · have hnot := hbefore x hmem
    rw [hp] at hnot
    exact absurd hnot (by decide)
  · rcases List.mem_cons.mp hmem with rfl | hafter
    · exact Or.inl rfl
    · exact Or.inr ((List.pairwise_cons.mp (List.pairwise_append.mp hl).2.1).1 x hafter)

private theorem getBucketCount_pos {latencies : List UInt64} (hlen : latencies.length < 2 ^ 64)
    {latencyNs : UInt64} (hmem : latencyNs ∈ latencies) :
    (ofLatencies latencies).getBucketCount (bucketForLatency latencyNs) > 0 := by
  have hbucket : (bucketForLatency latencyNs).val ∈ bucketsOf latencies :=
    List.mem_map.mpr ⟨latencyNs, hmem, rfl⟩
  rw [getBucketCount_ofLatencies, gt_iff_lt, UInt64.lt_iff_toNat_lt,
    UInt64.toNat_ofNat_of_lt' (Nat.lt_of_le_of_lt count_bucketsOf_le hlen)]
  exact List.count_pos_iff.mpr hbucket

/-- `getMinValue` is at most the lower bound of the bucket of every latency recorded. -/
theorem getMinValue_le {latencies : List UInt64} (hlen : latencies.length < 2 ^ 64)
    {latencyNs : UInt64} (hmem : latencyNs ∈ latencies) :
    (ofLatencies latencies).getMinValue ≤ bucketMin (bucketForLatency latencyNs) := by
  have hpos := decide_eq_true (getBucketCount_pos hlen hmem)
  have hrange : (bucketForLatency latencyNs).val ∈ List.range numBuckets :=
    List.mem_range.mpr (bucketForLatency latencyNs).isLt
  rw [getMinValue]
  split
  · next b hfind =>
    rcases find?_first List.pairwise_lt_range hfind hrange hpos with rfl | hlt
    · exact UInt64.le_refl _
    · have hb := bucketMax_lt_bucketMin hlt (bucketForLatency latencyNs).isLt
      have hmid := midpoint_mem (Nat.lt_trans hlt (bucketForLatency latencyNs).isLt)
      exact UInt64.le_trans (UInt64.le_trans hmid.1 hmid.2) (UInt64.le_of_lt hb)
  · next hnone => exact absurd hpos (List.find?_eq_none.mp hnone _ hrange)

/-- `getMaxValue` is at least the upper bound of the bucket of every latency recorded. -/
theorem le_getMaxValue {latencies : List UInt64} (hlen : latencies.length < 2 ^ 64)
    {latencyNs : UInt64} (hmem : latencyNs ∈ latencies) :
    bucketMax (bucketForLatency latencyNs) ≤ (ofLatencies latencies).getMaxValue := by
  have hpos := decide_eq_true (getBucketCount_pos hlen hmem)
  have hrange : (bucketForLatency latencyNs).val ∈ (List.range numBuckets).reverse :=
    List.mem_reverse.mpr (List.mem_range.mpr (bucketForLatency latencyNs).isLt)
  rw [getMaxValue]
  split
  · next b hfind =>
    have hb : b < numBuckets :=
      List.mem_range.mp (List.mem_reverse.mp (List.mem_of_find?_eq_some hfind))
    have hdown : (List.range numBuckets).reverse.Pairwise (· > ·) :=
      List.pairwise_reverse.mpr List.pairwise_lt_range
    rcases find?_first hdown hfind hrange hpos with rfl | hlt
    · exact UInt64.le_refl _
    · have hmid := midpoint_mem hb
      exact UInt64.le_trans (UInt64.le_of_lt (bucketMax_lt_bucketMin hlt hb))
        (UInt64.le_trans hmid.1 hmid.2)
  · next hnone => exact absurd hpos (List.find?_eq_none.mp hnone _ hrange)

/-- For every list of up to `2 ^ 64 - 1` latencies, a percentile is the representative of the
bucket of the latency that sorting puts at its index. Both lie in the bounds of that bucket,
which no arithmetic overflows; they and all latencies lie between `getMinValue` and
`getMaxValue`; a higher index gives no lower percentile, and the order of the recordings does
not matter. -/
theorem calculatePercentile_orderStatistic {latencies : List UInt64} (hne : latencies ≠ [])
    (hlen : latencies.length < 2 ^ 64) (position : Nat → Nat) :
    let h := ofLatencies latencies
    let idx := clampIndex position latencies.length
    let latency := orderStatistic latencies idx
    let b := (bucketForLatency latency).val
    let result := h.calculatePercentile position
    idx < latencies.length ∧ result = midpoint b ∧
      (bucketMin b ≤ result ∧ result ≤ bucketMax b) ∧
      (bucketMin b ≤ latency ∧ latency ≤ bucketMax b) ∧
      (∀ k < numBuckets, ((1 : UInt64) <<< UInt64.ofNat k).toNat = 2 ^ k ∧
        (midpoint k).toNat = (bucketMin k).toNat + 2 ^ k / 2 ∧
        (bucketMax k).toNat = 2 ^ (k + 1) - 1) ∧
      (h.getMinValue ≤ result ∧ result ≤ h.getMaxValue) ∧
      (∀ l ∈ latencies, h.getMinValue ≤ l ∧ l ≤ h.getMaxValue) ∧
      (∀ position', idx ≤ clampIndex position' latencies.length →
        result ≤ h.calculatePercentile position') ∧
      ∀ latencies', latencies'.Perm latencies →
        (ofLatencies latencies').calculatePercentile position = result := by
  intro h idx latency b result
  have hsize : 0 < latencies.length := List.length_pos_iff.mpr hne
  have hidx : idx < latencies.length := clampIndex_lt position hsize
  have hmem : latency ∈ latencies := orderStatistic_mem hidx
  have hresult : result = midpoint b := calculatePercentile_eq_midpoint hne hlen position
  have hin : bucketMin b ≤ result ∧ result ≤ bucketMax b := by
    rw [hresult]
    exact midpoint_mem (bucketForLatency latency).isLt
  refine ⟨hidx, hresult, hin, bucketForLatency_mem latency, ?arithmetic, ?bounds, ?all,
    ?monotone, ?order⟩
  case arithmetic =>
    intro k hk
    exact ⟨shift_toNat hk, midpoint_toNat hk, bucketMax_toNat hk⟩
  case bounds =>
    exact ⟨UInt64.le_trans (getMinValue_le hlen hmem) hin.1,
      UInt64.le_trans hin.2 (le_getMaxValue hlen hmem)⟩
  case all =>
    intro l hl
    have hbucket := bucketForLatency_mem l
    exact ⟨UInt64.le_trans (getMinValue_le hlen hl) hbucket.1,
      UInt64.le_trans hbucket.2 (le_getMaxValue hlen hl)⟩
  case monotone =>
    intro position' hle
    have hmono := orderStatistic_mono hle (clampIndex_lt position' hsize)
    rw [hresult, calculatePercentile_eq_midpoint hne hlen position']
    exact midpoint_mono (bucketForLatency_mono hmono) (bucketForLatency _).isLt
  case order =>
    intro latencies' hperm
    rw [ofLatencies_congr hperm]

/-- At the highest index the largest latency is found, in the bucket that ends at `UINT64_MAX`. -/
theorem calculatePercentile_orderStatistic_edges :
    (ofLatencies [4, 18446744073709551615, 0, 9223372036854775808, 1]).calculatePercentile
        (fun size ↦ size) = 13835058055282163712 ∧
      orderStatistic [4, 18446744073709551615, 0, 9223372036854775808, 1] 4 =
        18446744073709551615 := by
  have hsort : [0, 1, 4, 9223372036854775808, 18446744073709551615] = List.mergeSort
      ([4, 18446744073709551615, 0, 9223372036854775808, 1] : List UInt64) :=
    eq_mergeSort (by decide) (by decide)
  have hlatency : orderStatistic [4, 18446744073709551615, 0, 9223372036854775808, 1] 4 =
      18446744073709551615 := by
    rw [orderStatistic, ← hsort]
    rfl
  obtain ⟨-, hresult, -⟩ := calculatePercentile_orderStatistic
    (List.cons_ne_nil 4 [18446744073709551615, 0, 9223372036854775808, 1]) (by decide)
    (fun size ↦ size)
  refine ⟨?_, hlatency⟩
  have hbucket : (bucketForLatency (orderStatistic
      [4, 18446744073709551615, 0, 9223372036854775808, 1] 4)).val = 63 := by
    rw [hlatency]
    decide
  exact hresult.trans (congrArg midpoint hbucket)

/-- After `2 ^ 64` recordings of one latency its counter and the total are zero again, and the
percentile is not the representative of the latency's bucket. -/
theorem calculatePercentile_wrapped :
    ¬ ∀ (latencies : List UInt64) (position : Nat → Nat), latencies ≠ [] →
      (ofLatencies latencies).calculatePercentile position = midpoint (bucketForLatency
        (orderStatistic latencies (clampIndex position latencies.length))) := by
  intro h
  have hne : List.replicate (2 ^ 64) (5 : UInt64) ≠ [] := by
    rw [ne_eq, List.replicate_eq_nil_iff]
    decide
  have hcall := h (List.replicate (2 ^ 64) 5) (fun _ ↦ 0) hne
  have htotal : (ofLatencies (List.replicate (2 ^ 64) 5)).totalCount = 0 := by
    rw [totalCount_ofLatencies, List.length_replicate]
    decide
  have hmem := orderStatistic_mem (clampIndex_lt (fun _ ↦ 0) (List.length_pos_iff.mpr hne))
  rw [calculatePercentile, if_pos htotal, List.eq_of_mem_replicate hmem] at hcall
  exact absurd hcall (by decide)

end EventStreamCore.Metrics.LatencyHistogram
