import OpcHub.Proto.Codec

/-! A DateTime's way to a Timestamp and back. The split borrows a second for a time before
1601, and the way back asks how far its second is from the last DateTime: for a second
before 1601 that is further than 64 bits hold. -/

namespace OpcHub.Proto

open List

/-- What the 64-bit steps of `toTimestamp` come to, uncut. -/
def toTimestampSteps (dt : Int64) : List ℤ :=
  let seconds := dt.toInt.tdiv ticksPerSecond - epochSeconds
  let ticks := dt.toInt.tmod ticksPerSecond
  [dt.toInt.tdiv ticksPerSecond, seconds, ticks] ++
    if ticks < 0 then [ticks + ticksPerSecond, seconds - 1, (ticks + ticksPerSecond) * 100] else [ticks * 100]

/-- What the 64-bit steps of `toDateTime` come to, uncut. -/
def toDateTimeSteps (t : Timestamp) : List ℤ :=
  if t.seconds > maxDateTime.tdiv ticksPerSecond - epochSeconds then []
  else if t.seconds < minDateTime.tdiv ticksPerSecond - epochSeconds then []
  else
    let base := (t.seconds + epochSeconds) * ticksPerSecond
    let ticks := (min (max t.nanos 0) 999999999).tdiv 100
    [t.seconds + epochSeconds, base, ticks, maxDateTime - base] ++
      if ticks > (Int64.ofInt (maxDateTime - base)).toInt then [] else [base + ticks]

/-- It comes back as it was, its nanos are a Timestamp's and no step leaves 64 bits. -/
structure Survives (dt : Int64) : Prop where
  back : toDateTime (toTimestamp dt) = dt
  nanos : 0 ≤ (toTimestamp dt).nanos ∧ (toTimestamp dt).nanos ≤ 999999999
  fits : ∀ n ∈ toTimestampSteps dt ++ toDateTimeSteps (toTimestamp dt), minDateTime ≤ n ∧ n ≤ maxDateTime

/-- By the seconds, then the nanos. -/
def Timestamp.Before (a b : Timestamp) : Prop := a.seconds < b.seconds ∨ a.seconds = b.seconds ∧ a.nanos < b.nanos

theorem tdiv_tmod_spec (n : ℤ) : 10000000 * n.tdiv ticksPerSecond + n.tmod ticksPerSecond = n ∧
    -10000000 < n.tmod ticksPerSecond ∧ n.tmod ticksPerSecond < 10000000 ∧
    (0 ≤ n → 0 ≤ n.tmod ticksPerSecond) ∧ (n < 0 → n.tmod ticksPerSecond ≤ 0) := by
  refine ⟨Int.mul_tdiv_add_tmod n _, Int.lt_tmod_of_pos n (by decide), Int.tmod_lt_of_pos n (by decide),
    Int.tmod_nonneg _, fun h => ?_⟩
  have hneg := Int.tmod_nonneg ticksPerSecond (a := -n) (by omega)
  rw [Int.neg_tmod] at hneg
  omega

/-- The borrowed second makes the split one that rounds down. -/
theorem toTimestamp_eq (dt : Int64) : toTimestamp dt =
    ⟨dt.toInt / 10000000 - 11644473600, dt.toInt % 10000000 * 100⟩ := by
  have h := tdiv_tmod_spec dt.toInt
  simp only [toTimestamp, epochSeconds]
  split_ifs with hticks
  · simp only [Timestamp.mk.injEq, ticksPerSecond] at h hticks ⊢
    omega
  · simp only [Timestamp.mk.injEq, ticksPerSecond] at h hticks ⊢
    omega

theorem toTimestamp_before (a b : Int64) : (toTimestamp a).Before (toTimestamp b) ↔ a < b := by
  rw [Int64.lt_iff_toInt_lt]
  simp only [toTimestamp_eq, Timestamp.Before]
  omega

theorem nanos_bounds (dt : Int64) : 0 ≤ (toTimestamp dt).nanos ∧ (toTimestamp dt).nanos ≤ 999999999 := by
  rw [toTimestamp_eq]
  constructor <;> dsimp only <;> omega

theorem toTimestampSteps_fit (dt : Int64) : ∀ n ∈ toTimestampSteps dt, minDateTime ≤ n ∧ n ≤ maxDateTime := by
  have h := tdiv_tmod_spec dt.toInt
  have hlow := dt.le_toInt
  have hhigh := dt.toInt_lt
  intro n hn
  simp only [toTimestampSteps, minDateTime, maxDateTime, epochSeconds, ticksPerSecond] at h hn ⊢
  by_cases hticks : dt.toInt.tmod 10000000 < 0 <;>
  · simp only [hticks, ↓reduceIte, cons_append, nil_append, mem_cons, not_mem_nil, or_false] at hn
    omega

theorem maxSeconds_eq : maxDateTime.tdiv ticksPerSecond - epochSeconds = 910692730085 := rfl

theorem minSeconds_eq : minDateTime.tdiv ticksPerSecond - epochSeconds = -933981677285 := rfl

theorem ticks_eq (dt : Int64) :
    (min (max (dt.toInt % 10000000 * 100) 0) 999999999).tdiv 100 = dt.toInt % 10000000 := by
  rw [Int.max_eq_left (by omega), Int.min_eq_left (by omega), Int.mul_tdiv_cancel _ (by decide)]

variable {dt : Int64}

theorem survives_of_nonneg (h : 0 ≤ dt.toInt) : Survives dt := by
  have hhigh := dt.toInt_lt
  have hbase : (dt.toInt / 10000000 - 11644473600 + epochSeconds) * ticksPerSecond = dt.toInt - dt.toInt % 10000000 := by
    simp only [epochSeconds, ticksPerSecond]
    omega
  have hroom : (Int64.ofInt (maxDateTime - (dt.toInt - dt.toInt % 10000000))).toInt =
      maxDateTime - (dt.toInt - dt.toInt % 10000000) := by
    rw [maxDateTime]
    exact Int64.toInt_ofInt_of_le (by omega) (by omega)
  have hticks : ¬ dt.toInt % 10000000 > maxDateTime - (dt.toInt - dt.toInt % 10000000) := by
    rw [maxDateTime]
    omega
  refine ⟨?_, nanos_bounds dt, fun n hn => ?_⟩
  · simp only [toTimestamp_eq, toDateTime, maxSeconds_eq, minSeconds_eq, ticks_eq, hbase, hroom, if_neg hticks]
    rw [if_neg (by omega), if_neg (by omega), Int.sub_add_cancel, Int64.ofInt_toInt]
  · obtain hn | hn := mem_append.mp hn
    · exact toTimestampSteps_fit dt n hn
    · simp only [toTimestamp_eq, toDateTimeSteps, maxSeconds_eq, minSeconds_eq, ticks_eq, hbase, hroom, if_neg hticks] at hn
      rw [if_neg (by omega), if_neg (by omega)] at hn
      simp only [cons_append, nil_append, mem_cons, not_mem_nil, or_false, epochSeconds] at hn
      simp only [minDateTime, maxDateTime] at hn ⊢
      omega

theorem toDateTime_below (h : dt.toInt < -9223372036850000000) :
    toDateTime (toTimestamp dt) = Int64.minValue ∧ toDateTimeSteps (toTimestamp dt) = [] := by
  simp only [toTimestamp_eq, toDateTime, toDateTimeSteps, maxSeconds_eq, minSeconds_eq]
  rw [if_neg (by omega), if_pos (by omega), if_neg (by omega), if_pos (by omega)]
  exact ⟨rfl, rfl⟩

theorem not_fits_of_neg (h : dt.toInt < 0) (hlow : -9223372036850000000 ≤ dt.toInt) :
    ∃ n ∈ toDateTimeSteps (toTimestamp dt), maxDateTime < n := by
  simp only [toTimestamp_eq, toDateTimeSteps, maxSeconds_eq, minSeconds_eq]
  rw [if_neg (by omega), if_neg (by omega)]
  refine ⟨_, mem_append_left _ (mem_cons_of_mem _ (mem_cons_of_mem _ (mem_cons_of_mem _
    mem_cons_self))), ?_⟩
  simp only [epochSeconds, ticksPerSecond]
  omega

/-- Exactly the times from 1601 on come back with no step past 64 bits, and the very first one;
Timestamps are in the order of their times throughout. -/
theorem dateTime_survives_iff (dt : Int64) : (Survives dt ↔ dt = Int64.minValue ∨ 0 ≤ dt) ∧
    ∀ later : Int64, (toTimestamp dt).Before (toTimestamp later) ↔ dt < later := by
  refine ⟨⟨fun h => ?_, ?_⟩, toTimestamp_before dt⟩
  · by_contra hnot
    obtain ⟨hne, hneg⟩ := not_or.mp hnot
    rw [Int64.le_iff_toInt_le, Int.not_le] at hneg
    by_cases hlow : dt.toInt < -9223372036850000000
    · exact hne (h.back.symm.trans (toDateTime_below hlow).1)
    · obtain ⟨n, hn, hlt⟩ := not_fits_of_neg hneg (by omega)
      exact absurd (h.fits n (mem_append_right _ hn)).2 (by omega)
  · rintro (rfl | h)
    · have hbelow := @toDateTime_below Int64.minValue (by decide)
      exact ⟨hbelow.1, nanos_bounds _, by rw [hbelow.2, append_nil]; exact toTimestampSteps_fit _⟩
    · exact survives_of_nonneg (Int64.le_iff_toInt_le.mp h)

/-- The tick before 1601 comes back as the last DateTime there is, the one after the first DateTime as the first. -/
theorem dateTime_lost : toDateTime (toTimestamp (-1)) = Int64.maxValue ∧
    toDateTime (toTimestamp (Int64.minValue + 1)) = Int64.minValue := by decide +kernel

end OpcHub.Proto
