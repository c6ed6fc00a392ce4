import Mathlib.Algebra.Ring.Nat
import Mathlib.Logic.Function.Basic

/-!
# The latency histogram

`LatencyHistogram`, `include/eventstream/core/metrics/histogram.hpp:28–116,154–197`: one counter
for each power of two. A bucket stands for its midpoint when percentiles are taken.
-/

namespace EventStreamCore.Metrics

/-- `NUM_BUCKETS`. -/
def numBuckets : Nat := 64

/-- The counters. -/
structure LatencyHistogram where
  buckets : Fin numBuckets → UInt64
  totalCount : UInt64

namespace LatencyHistogram

/-- A new histogram. -/
def initial : LatencyHistogram := ⟨fun _ ↦ 0, 0⟩

/-- `bucketForLatency`: the position of the most significant bit. -/
def bucketForLatency (latencyNs : UInt64) : Fin numBuckets :=
  if latencyNs ≤ 1 then ⟨0, by decide⟩
  else ⟨min latencyNs.toNat.log2 (numBuckets - 1),
    Nat.lt_of_le_of_lt (Nat.min_le_right _ _) (by decide)⟩

/-- `record`. -/
def record (h : LatencyHistogram) (latencyNs : UInt64) : LatencyHistogram :=
  let bucket := bucketForLatency latencyNs
  ⟨Function.update h.buckets bucket (h.buckets bucket + 1), h.totalCount + 1⟩

/-- `getBucketCount`. -/
def getBucketCount (h : LatencyHistogram) (bucket : Nat) : UInt64 :=
  if hb : bucket < numBuckets then h.buckets ⟨bucket, hb⟩ else 0

/-- `bucketMin`. -/
def bucketMin (bucket : Nat) : UInt64 :=
  if bucket = 0 then 0 else 1 <<< UInt64.ofNat bucket

/-- `bucketMax`. -/
def bucketMax (bucket : Nat) : UInt64 :=
  if bucket = 63 then UInt64.ofNat (2 ^ 64 - 1) else (1 <<< UInt64.ofNat (bucket + 1)) - 1

/-- What `calculatePercentile` pushes for a sample of a bucket. -/
def midpoint (bucket : Nat) : UInt64 :=
  bucketMin bucket + (1 <<< UInt64.ofNat bucket) / 2

/-- The samples `calculatePercentile` collects. -/
def samples (h : LatencyHistogram) : List UInt64 :=
  (List.range numBuckets).flatMap fun b ↦
    List.replicate (h.getBucketCount b).toNat (midpoint b)

/-- The index `calculatePercentile` reads; `position` is the product of the percentile with the
number of samples, as the floating-point arithmetic and the conversion leave it. -/
def clampIndex (position : Nat → Nat) (size : Nat) : Nat :=
  if position size ≥ size then size - 1 else position size

/-- `calculatePercentile`; `nth_element` puts at `idx` what sorting the samples would. -/
def calculatePercentile (h : LatencyHistogram) (position : Nat → Nat) : UInt64 :=
  if h.totalCount = 0 then 0
  else
    let samples := h.samples
    if samples.isEmpty then 0
    else samples.mergeSort.getD (clampIndex position samples.length) 0

/-- `getMinValue`. -/
def getMinValue (h : LatencyHistogram) : UInt64 :=
  match (List.range numBuckets).find? fun b ↦ h.getBucketCount b > 0 with
  | some b => bucketMin b
  | none => 0

/-- `getMaxValue`. -/
def getMaxValue (h : LatencyHistogram) : UInt64 :=
  match (List.range numBuckets).reverse.find? fun b ↦ h.getBucketCount b > 0 with
  | some b => bucketMax b
  | none => 0

end LatencyHistogram
end EventStreamCore.Metrics
