import HftProj.Lib.Ranks
import Mathlib.Algebra.Order.BigOperators.Group.List
import Mathlib.Algebra.Order.Group.Nat
import Mathlib.Data.List.Induction

/-!
# The latency histogram

Values below 1024 have a bucket each, each power of two up to 2^26 has 64, and all others share
the last. A percentile is the value of the bucket in which the running total reaches its rank.
The mean, and the rounding of a percentage to a rank, are in floating point and left out.
-/

namespace HftProj.Engine.Histogram

open HftProj.Lib

def LINEAR_BUCKETS : ℕ := 1024
def LOG_BANDS : ℕ := 16
def SUB_BUCKETS : ℕ := 64
def TOTAL_BUCKETS : ℕ := LINEAR_BUCKETS + LOG_BANDS * SUB_BUCKETS + 1

/-- `leading_zeros` of a nonzero `u64`. -/
def leadingZeros (val : ℕ) : ℕ := 63 - val.log2

structure StaticHistogram where
  buckets : List ℕ
  count : ℕ
  min : ℕ
  max : ℕ
  sum : ℕ

/-- The bucket a value is counted in. -/
def bucketOf (val : ℕ) : ℕ :=
  if val < 1024 then val
  else
    let log := 63 - leadingZeros val
    if 10 ≤ log ∧ log < 26 then
      let band := log - 10
      let base := 1 <<< log
      let offset := val - base
      let sub := (offset <<< 6) >>> log
      LINEAR_BUCKETS + band * SUB_BUCKETS + Nat.min sub (SUB_BUCKETS - 1)
    else TOTAL_BUCKETS - 1

namespace StaticHistogram

def new : StaticHistogram where
  buckets := List.replicate TOTAL_BUCKETS 0
  count := 0
  min := 2 ^ 64 - 1
  max := 0
  sum := 0

/-- The counters of a bucket saturate; the count and the sum wrap. -/
def record (h : StaticHistogram) (val : ℕ) : StaticHistogram where
  buckets :=
    if bucketOf val < TOTAL_BUCKETS then
      h.buckets.modify (bucketOf val) fun cnt => Nat.min (cnt + 1) (2 ^ 32 - 1)
    else h.buckets
  count := (h.count + 1) % 2 ^ 64
  min := if val < h.min then val else h.min
  max := if h.max < val then val else h.max
  sum := (h.sum + val) % 2 ^ 64

def bucketToVal (h : StaticHistogram) (idx : ℕ) : ℕ :=
  if idx < LINEAR_BUCKETS then idx
  else if idx < TOTAL_BUCKETS - 1 then
    let bandIdx := idx - LINEAR_BUCKETS
    let band := bandIdx / SUB_BUCKETS
    let sub := bandIdx % SUB_BUCKETS
    let log := band + 10
    let base := 1 <<< log
    let step := base >>> 6
    base + sub * step
  else h.max

/-- `target` is the rank the percentage comes to. -/
def percentile (h : StaticHistogram) (target : ℕ) : ℕ :=
  if h.count = 0 then 0
  else
    match Ranks.reach target 0 0 h.buckets with
    | some idx => h.bucketToVal idx
    | none => h.max

/-- The histogram of a list of recorded values. -/
def ofValues (xs : List ℕ) : StaticHistogram := xs.foldl record new

end StaticHistogram

open StaticHistogram

/-! ## The two bucket maps -/

variable {v w : ℕ}

/-- The power of two at or below a value. -/
theorem log2_bounds (h : 1024 ≤ v) : 10 ≤ v.log2 ∧ 2 ^ v.log2 ≤ v ∧ v < 2 * 2 ^ v.log2 := by
  have hne : v ≠ 0 := by omega
  refine ⟨(Nat.le_log2 hne).mpr h, Nat.log2_self_le hne, ?_⟩
  have hlt : v < 2 ^ (v.log2 + 1) := Nat.lt_log2_self
  rwa [Nat.pow_succ, Nat.mul_comm] at hlt

theorem log_eq (h : v < 2 ^ 64) (hpos : 1024 ≤ v) : 63 - leadingZeros v = v.log2 := by
  have hlt : v.log2 < 64 := (Nat.log2_lt (by omega)).mpr h
  rw [leadingZeros]
  omega

/-- Which of the 64 parts of its power of two a value lies in. -/
def part (v : ℕ) : ℕ := (v - 2 ^ v.log2) * 64 / 2 ^ v.log2

theorem part_lt (h : 1024 ≤ v) : part v < 64 := by
  obtain ⟨-, hle, hlt⟩ := log2_bounds h
  apply Nat.div_lt_of_lt_mul
  omega

theorem part_mono (hvw : v ≤ w) (hlog : v.log2 = w.log2) : part v ≤ part w := by
  rw [part, part, hlog]
  exact Nat.div_le_div_right (Nat.mul_le_mul_right 64 (Nat.sub_le_sub_right hvw _))

theorem bucketOf_low (h : v < 1024) : bucketOf v = v := if_pos h

theorem bucketOf_mid (h : 1024 ≤ v) (hlt : v < 2 ^ 26) :
    bucketOf v = 1024 + (v.log2 - 10) * 64 + part v := by
  have hlog : v.log2 < 26 := (Nat.log2_lt (by omega)).mpr hlt
  have hpart := part_lt h
  have hsub : ((v - 1 <<< v.log2) <<< 6) >>> v.log2 = part v := by
    rw [Nat.shiftLeft_eq, Nat.shiftLeft_eq, Nat.shiftRight_eq_div_pow, Nat.one_mul]
    rfl
  rw [bucketOf, if_neg (by omega), log_eq (by omega) h]
  dsimp only
  rw [if_pos ⟨(log2_bounds h).1, hlog⟩, hsub]
  have hmin : Nat.min (part v) (SUB_BUCKETS - 1) = part v := Nat.min_eq_left (by
    rw [SUB_BUCKETS]
    omega)
  rw [hmin]
  rfl

theorem bucketOf_high (h : 2 ^ 26 ≤ v) (hlt : v < 2 ^ 64) : bucketOf v = TOTAL_BUCKETS - 1 := by
  have hlog : 26 ≤ v.log2 := (Nat.le_log2 (by omega)).mpr h
  rw [bucketOf, if_neg (by omega), log_eq hlt (by omega)]
  exact if_neg (by omega)

theorem bucketOf_mid_lt (h : 1024 ≤ v) (hlt : v < 2 ^ 26) :
    1024 ≤ bucketOf v ∧ bucketOf v < TOTAL_BUCKETS - 1 := by
  have hlog : v.log2 < 26 := (Nat.log2_lt (by omega)).mpr hlt
  have := part_lt h
  rw [bucketOf_mid h hlt, TOTAL_BUCKETS, LINEAR_BUCKETS, LOG_BANDS, SUB_BUCKETS]
  omega

theorem bucketOf_lt (h : v < 2 ^ 64) : bucketOf v < TOTAL_BUCKETS := by
  rcases Nat.lt_or_ge v 1024 with hlow | hlow
  · rw [bucketOf_low hlow, TOTAL_BUCKETS, LINEAR_BUCKETS]
    omega
  · rcases Nat.lt_or_ge v (2 ^ 26) with hmid | hhigh
    · have := bucketOf_mid_lt hlow hmid
      omega
    · rw [bucketOf_high hhigh h, TOTAL_BUCKETS]
      omega

theorem bucketOf_mono (hvw : v ≤ w) (hw : w < 2 ^ 64) : bucketOf v ≤ bucketOf w := by
  rcases Nat.lt_or_ge w (2 ^ 26) with hmid | hhigh
  · rcases Nat.lt_or_ge v 1024 with hlow | hlow
    · rw [bucketOf_low hlow]
      rcases Nat.lt_or_ge w 1024 with hlow' | hlow'
      · rwa [bucketOf_low hlow']
      · have := bucketOf_mid_lt hlow' hmid
        omega
    · have hv := bucketOf_mid hlow (Nat.lt_of_le_of_lt hvw hmid)
      have hw := bucketOf_mid (hlow.trans hvw) hmid
      obtain ⟨hten, hbase, hless⟩ := log2_bounds hlow
      obtain ⟨hten', hbase', hless'⟩ := log2_bounds (hlow.trans hvw)
      have hlog : v.log2 ≤ w.log2 := (Nat.le_log2 (by omega)).mpr (hbase.trans hvw)
      rcases Nat.lt_or_eq_of_le hlog with hlt | heq
      · have := part_lt hlow
        omega
      · have hpart := part_mono hvw heq
        omega
  · have := bucketOf_lt (Nat.lt_of_le_of_lt hvw hw)
    rw [bucketOf_high hhigh hw]
    omega

variable {h : StaticHistogram}

theorem bucketToVal_low (hv : v < 1024) : h.bucketToVal (bucketOf v) = v := by
  rw [bucketOf_low hv]
  exact if_pos hv

theorem bucketToVal_mid (hv : 1024 ≤ v) (hlt : v < 2 ^ 26) :
    h.bucketToVal (bucketOf v) = 2 ^ v.log2 + part v * (2 ^ v.log2 / 64) := by
  obtain ⟨hlow, hhigh⟩ := bucketOf_mid_lt hv hlt
  obtain ⟨hten, -, -⟩ := log2_bounds hv
  have hpart := part_lt hv
  have hlin : ¬ bucketOf v < LINEAR_BUCKETS := Nat.not_lt_of_le hlow
  have hidx : bucketOf v - LINEAR_BUCKETS = (v.log2 - 10) * 64 + part v := by
    rw [bucketOf_mid hv hlt, LINEAR_BUCKETS]
    omega
  have hband : ((v.log2 - 10) * 64 + part v) / 64 + 10 = v.log2 := by omega
  have hsub : ((v.log2 - 10) * 64 + part v) % 64 = part v := by omega
  rw [bucketToVal, if_neg hlin, if_pos hhigh]
  simp only [hidx, SUB_BUCKETS, hband, hsub, Nat.shiftLeft_eq, Nat.one_mul,
    Nat.shiftRight_eq_div_pow]

/-- The value of a bucket is the least one counted in it, within a 64th of the others. -/
theorem bucketToVal_mid_near (hv : 1024 ≤ v) (hlt : v < 2 ^ 26) :
    h.bucketToVal (bucketOf v) ≤ v ∧ 64 * (v - h.bucketToVal (bucketOf v)) < v := by
  obtain ⟨hten, hbase, hless⟩ := log2_bounds hv
  obtain ⟨k, hk⟩ : ∃ k, v.log2 = k + 6 := ⟨v.log2 - 6, by omega⟩
  have hpow : 2 ^ v.log2 = 64 * 2 ^ k := by
    rw [hk, Nat.pow_add, Nat.mul_comm]
  have hstep : part v = (v - 2 ^ v.log2) / 2 ^ k := by
    rw [part, hpow, Nat.mul_comm _ 64]
    exact Nat.mul_div_mul_left _ _ (by omega)
  have hquot : 2 ^ v.log2 / 64 = 2 ^ k := by
    rw [hpow]
    exact Nat.mul_div_cancel_left _ (by omega)
  have hdiv := Nat.div_add_mod (v - 2 ^ v.log2) (2 ^ k)
  have hmod : (v - 2 ^ v.log2) % 2 ^ k < 2 ^ k := Nat.mod_lt _ (Nat.two_pow_pos k)
  rw [bucketToVal_mid hv hlt, hquot, hstep, Nat.mul_comm]
  omega

theorem bucketToVal_high (hv : 2 ^ 26 ≤ v) (hlt : v < 2 ^ 64) :
    h.bucketToVal (bucketOf v) = h.max := by
  rw [bucketOf_high hv hlt]
  rfl

/-! ## Runs of records -/

/-- What a histogram holds of the values recorded. -/
structure Recorded (xs : List ℕ) (h : StaticHistogram) : Prop where
  count : h.count = xs.length
  length : h.buckets.length = TOTAL_BUCKETS
  buckets : ∀ i (hi : i < h.buckets.length), h.buckets[i] = xs.countP (bucketOf · = i)
  le_max : ∀ x ∈ xs, x ≤ h.max
  max_mem : h.max = 0 ∨ h.max ∈ xs

theorem recorded_new : Recorded [] new where
  count := rfl
  length := List.length_replicate
  buckets := fun _ _ => List.getElem_replicate _
  le_max := fun _ hx => absurd hx List.not_mem_nil
  max_mem := Or.inl rfl

/-- With fewer than 2^32 values no counter saturates. -/
theorem Recorded.record {xs : List ℕ} (hrec : Recorded xs h) (hlen : xs.length + 1 < 2 ^ 32)
    (hv : v < 2 ^ 64) : Recorded (xs ++ [v]) (h.record v) where
  count := by
    rw [StaticHistogram.record, hrec.count, List.length_append, List.length_singleton]
    exact Nat.mod_eq_of_lt (by omega)
  length := by
    rw [StaticHistogram.record]
    dsimp only
    rw [if_pos (bucketOf_lt hv), List.length_modify, hrec.length]
  buckets := by
    intro i hi
    have hlt : i < h.buckets.length := by
      simpa [StaticHistogram.record, bucketOf_lt hv] using hi
    have hle : h.buckets[i] ≤ xs.length := by
      rw [hrec.buckets i hlt]
      exact List.countP_le_length
    have hmin : Nat.min (h.buckets[i] + 1) (2 ^ 32 - 1) = h.buckets[i] + 1 :=
      Nat.min_eq_left (by omega)
    rw [hrec.buckets i hlt] at hmin
    simp only [StaticHistogram.record, if_pos (bucketOf_lt hv), List.getElem_modify,
      List.countP_append, List.countP_singleton, hrec.buckets i hlt, decide_eq_true_eq]
    split
    · exact hmin
    · rfl
  le_max := by
    intro x hx
    have hmax : v ≤ (h.record v).max ∧ h.max ≤ (h.record v).max := by
      rw [StaticHistogram.record]
      dsimp only
      split <;> omega
    obtain hx | hx := List.mem_append.mp hx
    · exact (hrec.le_max x hx).trans hmax.2
    · exact (List.mem_singleton.mp hx) ▸ hmax.1
  max_mem := by
    rw [StaticHistogram.record]
    dsimp only
    split
    · exact Or.inr (List.mem_append_right xs (List.mem_singleton_self v))
    · exact hrec.max_mem.imp_right (List.mem_append_left [v])

theorem ofValues_snoc (xs : List ℕ) (v : ℕ) : ofValues (xs ++ [v]) = (ofValues xs).record v := by
  rw [ofValues, List.foldl_append]
  rfl

theorem recorded_ofValues {xs : List ℕ} (hlen : xs.length < 2 ^ 32) (hxs : ∀ x ∈ xs, x < 2 ^ 64) :
    Recorded xs (ofValues xs) := by
  induction xs using List.reverseRecOn with
  | nil => exact recorded_new
  | append_singleton xs v ih =>
      rw [List.length_append, List.length_singleton] at hlen
      rw [ofValues_snoc]
      refine Recorded.record (ih (by omega) fun x hx => ?_) hlen ?_
      · exact hxs x (List.mem_append_left [v] hx)
      · exact hxs v (List.mem_append_right xs (List.mem_singleton_self v))

/-! ## Percentiles -/

variable {xs : List ℕ} {t : ℕ}

/-- A percentile is the value of the bucket of the entry of its rank. -/
theorem percentile_eq (hlen : xs.length < 2 ^ 32) (hxs : ∀ x ∈ xs, x < 2 ^ 64) (ht : 1 ≤ t)
    (hv : Ranks.nth xs t = some v) :
    (ofValues xs).percentile t = (ofValues xs).bucketToVal (bucketOf v) := by
  have hrec := recorded_ofValues hlen hxs
  have hmem := Ranks.nth_mem hv
  have hcount : (ofValues xs).count ≠ 0 := by
    rw [hrec.count]
    exact List.length_pos_iff.mpr (List.ne_nil_of_mem hmem) |>.ne'
  have hreach : Ranks.reach t 0 0 (ofValues xs).buckets = some (bucketOf v) := by
    refine Ranks.reach_class ?_ hrec.buckets ht hv ?_
    · exact fun x _ y hy hxy => bucketOf_mono hxy (hxs y hy)
    · rw [hrec.length]
      exact bucketOf_lt (hxs v hmem)
  rw [percentile, if_neg hcount, hreach]

theorem ofValues_max_mem (hlen : xs.length < 2 ^ 32) (hxs : ∀ x ∈ xs, x < 2 ^ 64) (hv : v ∈ xs)
    (hpos : 0 < v) : (ofValues xs).max ∈ xs := by
  have hrec := recorded_ofValues hlen hxs
  have hle := hrec.le_max v hv
  exact hrec.max_mem.resolve_left (by omega)

/-- In every histogram the bucket values go up with what is counted, as long as nothing in the
last bucket is above the greatest value. -/
theorem bucketToVal_mono (hvw : v ≤ w) (hw : w < 2 ^ 64) (hmax : w ≤ h.max) :
    h.bucketToVal (bucketOf v) ≤ h.bucketToVal (bucketOf w) := by
  obtain hmid | hhigh := Nat.lt_or_ge w (2 ^ 26)
  · obtain hlow | hlow := Nat.lt_or_ge v 1024
    · rw [bucketToVal_low hlow]
      obtain hlow' | hlow' := Nat.lt_or_ge w 1024
      · rwa [bucketToVal_low hlow']
      · obtain ⟨-, hbase, -⟩ := log2_bounds hlow'
        have hten : 2 ^ 10 ≤ 2 ^ w.log2 := Nat.pow_le_pow_right Nat.two_pos (log2_bounds hlow').1
        rw [bucketToVal_mid hlow' hmid]
        omega
    · have hlow' := hlow.trans hvw
      obtain ⟨-, hbase, hless⟩ := log2_bounds hlow
      have hlog : v.log2 ≤ w.log2 := (Nat.le_log2 (by omega)).mpr (hbase.trans hvw)
      obtain hlt | heq := Nat.lt_or_eq_of_le hlog
      · have hnext : 2 ^ (v.log2 + 1) ≤ 2 ^ w.log2 := Nat.pow_le_pow_right Nat.two_pos hlt
        have hnear := bucketToVal_mid_near (h := h) hlow (Nat.lt_of_le_of_lt hvw hmid)
        rw [Nat.pow_succ] at hnext
        rw [bucketToVal_mid hlow' hmid]
        omega
      · rw [bucketToVal_mid hlow (Nat.lt_of_le_of_lt hvw hmid), bucketToVal_mid hlow' hmid, heq]
        exact Nat.add_le_add_left (Nat.mul_le_mul_right _ (part_mono hvw heq)) _
  · rw [bucketToVal_high hhigh hw]
    have hv : v < 2 ^ 64 := Nat.lt_of_le_of_lt hvw hw
    obtain hlow | hlow := Nat.lt_or_ge v 1024
    · rw [bucketToVal_low hlow]
      exact hvw.trans hmax
    · obtain hmid | hhigh' := Nat.lt_or_ge v (2 ^ 26)
      · exact (bucketToVal_mid_near hlow hmid).1.trans (hvw.trans hmax)
      · rw [bucketToVal_high hhigh' hv]

/-- Below 1024 a percentile is the entry of its rank, up to 2^26 within a 64th below it, and
from there on the greatest value recorded. -/
theorem percentile_law (xs : List ℕ) (hlen : xs.length < 2 ^ 32) (hsum : xs.sum < 2 ^ 64) :
    (∀ t, 1 ≤ t → t ≤ xs.length → ∃ v, Ranks.nth xs t = some v ∧
      (v < 1024 → (ofValues xs).percentile t = v) ∧
      (1024 ≤ v → v < 2 ^ 26 → (ofValues xs).percentile t ≤ v ∧
        64 * (v - (ofValues xs).percentile t) < v) ∧
      (2 ^ 26 ≤ v → (ofValues xs).percentile t ∈ xs ∧
        ∀ x ∈ xs, x ≤ (ofValues xs).percentile t)) ∧
    ∀ t t', 1 ≤ t → t ≤ t' → t' ≤ xs.length →
      (ofValues xs).percentile t ≤ (ofValues xs).percentile t' := by
  have hxs : ∀ x ∈ xs, x < 2 ^ 64 := fun x hx =>
    Nat.lt_of_le_of_lt (List.le_sum_of_mem hx) hsum
  have hrec := recorded_ofValues hlen hxs
  constructor
  · intro t ht hle
    obtain ⟨v, hv⟩ := Ranks.nth_exists ht hle
    have hmem := Ranks.nth_mem hv
    refine ⟨v, hv, ?_⟩
    rw [percentile_eq hlen hxs ht hv]
    refine ⟨fun hlow => bucketToVal_low hlow, fun hlow hmid => bucketToVal_mid_near hlow hmid, ?_⟩
    intro hhigh
    rw [bucketToVal_high hhigh (hxs v hmem)]
    exact ⟨ofValues_max_mem hlen hxs hmem (by omega), hrec.le_max⟩
  · intro t t' ht hle hle'
    obtain ⟨v, hv⟩ := Ranks.nth_exists ht (hle.trans hle')
    obtain ⟨v', hv'⟩ := Ranks.nth_exists (ht.trans hle) hle'
    have hmem := Ranks.nth_mem hv'
    rw [percentile_eq hlen hxs ht hv, percentile_eq hlen hxs (ht.trans hle) hv']
    exact bucketToVal_mono (Ranks.nth_le ht hle hv hv') (hxs v' hmem) (hrec.le_max v' hmem)

theorem percentile_law_three :
    (∀ t, 1 ≤ t → t ≤ [70000, 5, 2 ^ 30].length → ∃ v, Ranks.nth [70000, 5, 2 ^ 30] t = some v ∧
      (v < 1024 → (ofValues [70000, 5, 2 ^ 30]).percentile t = v) ∧
      (1024 ≤ v → v < 2 ^ 26 → (ofValues [70000, 5, 2 ^ 30]).percentile t ≤ v ∧
        64 * (v - (ofValues [70000, 5, 2 ^ 30]).percentile t) < v) ∧
      (2 ^ 26 ≤ v → (ofValues [70000, 5, 2 ^ 30]).percentile t ∈ [70000, 5, 2 ^ 30] ∧
        ∀ x ∈ [70000, 5, 2 ^ 30], x ≤ (ofValues [70000, 5, 2 ^ 30]).percentile t)) ∧
    ∀ t t', 1 ≤ t → t ≤ t' → t' ≤ [70000, 5, 2 ^ 30].length →
      (ofValues [70000, 5, 2 ^ 30]).percentile t ≤ (ofValues [70000, 5, 2 ^ 30]).percentile t' :=
  percentile_law [70000, 5, 2 ^ 30] (by decide) (by decide)

end HftProj.Engine.Histogram
