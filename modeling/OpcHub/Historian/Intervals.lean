import OpcHub.Historian.Deltas

/-! The intervals of a processed read. They go from the request's start to its end,
each of the width asked for but the last, which may be cut short, and a record's
interval is found from its time by a division. Differences of times are unsigned,
since a signed one can pass an int64's range. Times are ticks. -/

namespace OpcHub.Historian

open Records

/-- From a time to one no earlier, unsigned. -/
def ticksBetween (first last : ℤ) : ℕ := uint64 (last - first)

structure Intervals where
  range : ℕ
  width : ℕ
  count : ℕ

def Intervals.of (range : ℕ) (interval : Duration) : Intervals :=
  let t : ℤ := spanTicks interval
  let width := if t ≤ 0 ∨ range ≤ t.toNat then range else t.toNat
  { range, width, count := if width = 0 then 1 else range / width + if range % width = 0 then 0 else 1 }

/-- The last is shorter than the others. -/
def Intervals.uneven (i : Intervals) : Bool := i.width != 0 && i.range % i.width != 0

structure Interval where
  lo : ℤ
  hi : ℤ
  ts : ℤ
  reverse : Bool
  uneven : Bool
  deriving DecidableEq, Repr

/-- Half-open on the side the read goes to. -/
def Interval.Holds (iv : Interval) (t : ℤ) : Prop :=
  if iv.reverse then iv.lo < t ∧ t ≤ iv.hi else iv.lo ≤ t ∧ t < iv.hi

/-- The range a processed read asks for. -/
structure ProcessedRange where
  start : ℤ
  end_ : ℤ
  interval : Duration

namespace ProcessedRange

def reverse (r : ProcessedRange) : Bool := decide (r.start > r.end_)

def intervals (r : ProcessedRange) : Intervals :=
  .of (if r.reverse then ticksBetween r.end_ r.start else ticksBetween r.start r.end_) r.interval

def intervalOf (r : ProcessedRange) (k : ℕ) : Interval :=
  let i := r.intervals
  let uneven := k + 1 == i.count && i.uneven
  -- from the range's start to the interval's, and on to the range's end
  let offset := k * i.width % 18446744073709551616
  let rest := uint64 (i.range - offset)
  if r.reverse then
    let hi := wrap (r.start - offset)
    { lo := if rest > i.width then wrap (hi - i.width) else r.end_, hi, ts := hi, reverse := true, uneven }
  else
    let lo := wrap (r.start + offset)
    { lo, hi := if rest > i.width then wrap (lo + i.width) else r.end_, ts := lo, reverse := false, uneven }

/-- A record's interval by its time, of those a page has from `next` through `last`; none for one at the
range's far end, which is a bound alone. -/
def slotOf (r : ProcessedRange) (next last : ℕ) (t : ℤ) : Option ℕ :=
  let i := r.intervals
  let k := if r.reverse then
      if t > r.start ∨ t ≤ r.end_ then i.count else ticksBetween t r.start / i.width
    else if t < r.start ∨ t ≥ r.end_ then i.count else ticksBetween r.start t / i.width
  if next ≤ k ∧ k ≤ last then some (k - next) else none

/-- What a processed read checks of its range, and its times' type. -/
structure Valid (r : ProcessedRange) : Prop where
  start : FitsInt64 r.start
  end_ : FitsInt64 r.end_
  ne : r.start ≠ r.end_
  interval : 0 ≤ r.interval

/-- A time in the range, which holds the end it starts from. -/
def InRange (r : ProcessedRange) (t : ℤ) : Prop :=
  if r.reverse then r.end_ < t ∧ t ≤ r.start else r.start ≤ t ∧ t < r.end_

/-- The intervals of a read tile its range. -/
structure Tiles (r : ProcessedRange) : Prop where
  /-- What is computed is what the integers have: no step passes 64 bits. -/
  range : (r.intervals.range : ℤ) = |r.end_ - r.start| ∧ r.intervals.range < 18446744073709551616
  count : 0 < r.intervals.count ∧ r.intervals.count ≤ r.intervals.range
  offset : ∀ k < r.intervals.count, k * r.intervals.width < r.intervals.range
  width : ∀ t : ℤ, spanTicks r.interval = t →
    (r.intervals.width : ℤ) = if t = 0 ∨ r.intervals.range < t then (r.intervals.range : ℤ) else t
  nonempty : ∀ k < r.intervals.count, (r.intervalOf k).reverse = r.reverse ∧ (r.intervalOf k).lo < (r.intervalOf k).hi
  length : ∀ k < r.intervals.count, (r.intervalOf k).hi - (r.intervalOf k).lo ≤ r.intervals.width ∧
    (k + 1 < r.intervals.count → (r.intervalOf k).hi - (r.intervalOf k).lo = r.intervals.width)
  first : (r.intervalOf 0).ts = r.start
  next : ∀ k, k + 1 < r.intervals.count → (r.intervalOf (k + 1)).ts =
    if r.reverse then (r.intervalOf k).lo else (r.intervalOf k).hi
  union : ∀ t, (∃ k < r.intervals.count, (r.intervalOf k).Holds t) ↔ r.InRange t
  slot : ∀ next last, last < r.intervals.count → ∀ t, FitsInt64 t → ∀ j, r.slotOf next last t = some j ↔
    next + j ≤ last ∧ (r.intervalOf (next + j)).Holds t

end ProcessedRange

theorem fitsInt64_iff {a : ℤ} : FitsInt64 a ↔ -9223372036854775808 ≤ a ∧ a < 9223372036854775808 := Iff.rfl

theorem wrap_eq {a : ℤ} (h : FitsInt64 a) : wrap a = a := int64_uint64 h.1 h.2

theorem uint64_eq {a : ℤ} (h : 0 ≤ a) (hlt : a < 18446744073709551616) : (uint64 a : ℤ) = a := by
  rw [uint64, Int.emod_eq_of_lt h hlt, Int.toNat_of_nonneg h]

theorem ceil_bounds {range width : ℕ} (hr : 0 < range) (hw : 0 < width) :
    let count := range / width + if range % width = 0 then 0 else 1
    0 < count ∧ (count - 1) * width < range ∧ range ≤ count * width := by
  have hdiv := Nat.div_add_mod' range width
  have hmod := Nat.mod_lt range hw
  generalize range / width = q at hdiv ⊢
  split_ifs with h
  · obtain _ | q := q
    · omega
    · simp only [Nat.succ_mul] at hdiv
      simp only [Nat.add_zero, Nat.add_sub_cancel, Nat.succ_mul]
      omega
  · simp only [Nat.add_sub_cancel, Nat.succ_mul]
    omega

namespace ProcessedRange.Valid

variable {r : ProcessedRange} (h : r.Valid)

include h

theorem range_eq : (r.intervals.range : ℤ) = (if r.reverse then r.start - r.end_ else r.end_ - r.start) ∧
    0 < r.intervals.range ∧ r.intervals.range < 18446744073709551616 := by
  have hstart := fitsInt64_iff.mp h.start
  have hend := fitsInt64_iff.mp h.end_
  have hne := h.ne
  have hrange : r.intervals.range = if r.reverse then ticksBetween r.end_ r.start else ticksBetween r.start r.end_ := rfl
  rw [hrange]
  simp only [reverse, decide_eq_true_eq]
  split_ifs with hrev
  · have heq := uint64_eq (a := r.start - r.end_) (by omega) (by omega)
    rw [ticksBetween]
    omega
  · have heq := uint64_eq (a := r.end_ - r.start) (by omega) (by omega)
    rw [ticksBetween]
    omega

theorem width_eq {t : ℤ} (ht : spanTicks r.interval = t) : 0 < r.intervals.width ∧
    (r.intervals.width : ℤ) = if t = 0 ∨ r.intervals.range < t then (r.intervals.range : ℤ) else t := by
  have hrange := h.range_eq.2.1
  have hspan : 0 ≤ t := ht ▸ Int.tdiv_nonneg h.interval (by omega)
  have hwidth : r.intervals.width = if t ≤ 0 ∨ r.intervals.range ≤ t.toNat then r.intervals.range else t.toNat := by
    rw [← ht]
    rfl
  split_ifs at hwidth ⊢ <;> omega

theorem count_bounds : 0 < r.intervals.count ∧ (r.intervals.count - 1) * r.intervals.width < r.intervals.range ∧
    r.intervals.range ≤ r.intervals.count * r.intervals.width := by
  have hcount : r.intervals.count = r.intervals.range / r.intervals.width +
      if r.intervals.range % r.intervals.width = 0 then 0 else 1 := if_neg (h.width_eq rfl).1.ne'
  rw [hcount]
  exact ceil_bounds h.range_eq.2.1 (h.width_eq rfl).1

theorem offset_lt {k : ℕ} (hk : k < r.intervals.count) : k * r.intervals.width < r.intervals.range :=
  (Nat.mul_le_mul_right _ (Nat.le_sub_one_of_lt hk)).trans_lt h.count_bounds.2.1

theorem ends {k : ℕ} (hk : k < r.intervals.count) {o e : ℕ} (ho : k * r.intervals.width = o)
    (he : e = min (o + r.intervals.width) r.intervals.range) : (r.intervalOf k).reverse = r.reverse ∧
      (r.intervalOf k).lo = (if r.reverse then r.start - e else r.start + o) ∧
      (r.intervalOf k).hi = (if r.reverse then r.start - o else r.start + e) ∧
      (r.intervalOf k).ts = if r.reverse then r.start - o else r.start + o := by
  have hstart := fitsInt64_iff.mp h.start
  have hend := fitsInt64_iff.mp h.end_
  obtain ⟨hrange, -, hlt⟩ := h.range_eq
  have hoff := ho ▸ h.offset_lt hk
  have hrest := uint64_eq (a := r.intervals.range - o) (by omega) (by omega)
  have hcond : uint64 (r.intervals.range - o) > r.intervals.width ↔
      o + r.intervals.width < r.intervals.range := by omega
  have hend_ : (e : ℤ) = if o + r.intervals.width < r.intervals.range then (o + r.intervals.width : ℤ)
      else r.intervals.range := by
    split_ifs <;> omega
  simp only [intervalOf, ho, Nat.mod_eq_of_lt (hoff.trans hlt), hcond]
  by_cases hrev : r.reverse = true
  · simp only [hrev, if_true] at hrange ⊢
    have hhi : wrap (r.start - o) = r.start - o := wrap_eq (fitsInt64_iff.mpr (by omega))
    rw [hhi, hend_]
    refine ⟨trivial, ?_, rfl, rfl⟩
    split_ifs
    · rw [wrap_eq (fitsInt64_iff.mpr (by omega))]
      omega
    · omega
  · simp only [hrev, Bool.false_eq_true, if_false] at hrange ⊢
    have hlo : wrap (r.start + o) = r.start + o := wrap_eq (fitsInt64_iff.mpr (by omega))
    rw [hlo, hend_]
    refine ⟨trivial, rfl, ?_, rfl⟩
    split_ifs
    · rw [wrap_eq (fitsInt64_iff.mpr (by omega))]
      omega
    · omega

omit h in
/-- How far a time lies from the start, in the read's direction. -/
def ahead (r : ProcessedRange) (t : ℤ) : ℕ := (if r.reverse then r.start - t else t - r.start).toNat

theorem holds_iff {k : ℕ} (hk : k < r.intervals.count) (t : ℤ) : (r.intervalOf k).Holds t ↔
    r.InRange t ∧ ahead r t / r.intervals.width = k := by
  obtain ⟨hrev, hlo, hhi, -⟩ := h.ends hk rfl rfl
  have hrange := h.range_eq.1
  have hwidth := (h.width_eq rfl).1
  rw [Nat.div_eq_iff hwidth, Interval.Holds, InRange, ahead, hrev, hlo, hhi]
  split_ifs at hrange ⊢ <;> omega

theorem div_lt {t : ℤ} (ht : r.InRange t) : ahead r t / r.intervals.width < r.intervals.count := by
  have hrange := h.range_eq.1
  refine (Nat.div_lt_iff_lt_mul (h.width_eq rfl).1).mpr (lt_of_lt_of_le ?_ h.count_bounds.2.2)
  rw [InRange] at ht
  rw [ahead]
  split_ifs at hrange ht ⊢ <;> omega

/-- The division is made of a time in the range alone. -/
theorem slotOf_eq {t : ℤ} (ht : FitsInt64 t) (next last : ℕ) : ∃ k, r.slotOf next last t =
    (if next ≤ k ∧ k ≤ last then some (k - next) else none) ∧
      (r.InRange t → k = ahead r t / r.intervals.width) ∧ (¬ r.InRange t → k = r.intervals.count) := by
  have hstart := fitsInt64_iff.mp h.start
  rw [fitsInt64_iff] at ht
  refine ⟨_, rfl, fun hin => ?_, fun hin => ?_⟩
  · rw [InRange] at hin
    rw [ahead]
    split_ifs at hin ⊢
    · omega
    · have heq := uint64_eq (a := r.start - t) (by omega) (by omega)
      rw [← heq]
      rfl
    · omega
    · have heq := uint64_eq (a := t - r.start) (by omega) (by omega)
      rw [← heq]
      rfl
  · rw [InRange] at hin
    split_ifs at hin ⊢ <;> first | rfl | omega

end ProcessedRange.Valid

/-- Every range a processed read takes is tiled, from the least time to the greatest. -/
theorem ProcessedRange.intervals_tile {r : ProcessedRange} (h : r.Valid) : r.Tiles := by
  have hwidth := (h.width_eq rfl).1
  have hsucc : ∀ k, (k + 1) * r.intervals.width = k * r.intervals.width + r.intervals.width := fun k => Nat.succ_mul ..
  obtain ⟨hcount, hlast, -⟩ := h.count_bounds
  refine ⟨⟨?_, h.range_eq.2.2⟩, ⟨hcount, ?_⟩, fun k => h.offset_lt, fun t ht => (h.width_eq ht).2, ?_, ?_, ?_, ?_, ?_, ?_⟩
  · simp only [h.range_eq.1, reverse, decide_eq_true_eq]
    split_ifs
    · rw [abs_of_neg (by omega)]
      omega
    · rw [abs_of_nonneg (by omega)]
  · have hle := Nat.le_mul_of_pos_right (r.intervals.count - 1) hwidth
    omega
  · intro k hk
    obtain ⟨hrev, hlo, hhi, -⟩ := h.ends hk rfl rfl
    have hoff := h.offset_lt hk
    rw [hlo, hhi]
    refine ⟨hrev, ?_⟩
    split_ifs <;> omega
  · intro k hk
    obtain ⟨-, hlo, hhi, -⟩ := h.ends hk rfl rfl
    rw [hlo, hhi]
    refine ⟨by split_ifs <;> omega, fun hk => ?_⟩
    have hoff' := h.offset_lt hk
    rw [hsucc] at hoff'
    split_ifs <;> omega
  · rw [(h.ends hcount rfl rfl).2.2.2]
    simp
  · intro k hk
    obtain ⟨-, hlo, hhi, -⟩ := h.ends (Nat.lt_of_succ_lt hk) rfl rfl
    have hoff := h.offset_lt hk
    rw [hsucc] at hoff
    rw [(h.ends hk rfl rfl).2.2.2, hlo, hhi, hsucc]
    split_ifs <;> omega
  · intro t
    constructor
    · rintro ⟨k, hk, hholds⟩
      exact ((h.holds_iff hk t).mp hholds).1
    · exact fun ht => ⟨_, h.div_lt ht, (h.holds_iff (h.div_lt ht) t).mpr ⟨ht, rfl⟩⟩
  · intro next last hlast t ht j
    obtain ⟨k, hslot, hin, hout⟩ := h.slotOf_eq ht next last
    rw [hslot, Option.ite_none_right_eq_some, Option.some.injEq]
    constructor
    · rintro ⟨⟨hge, hle⟩, rfl⟩
      rw [Nat.add_sub_cancel' hge]
      refine ⟨hle, (h.holds_iff (hle.trans_lt hlast) t).mpr ?_⟩
      have ht : r.InRange t := not_not.mp fun hnot => by
        rw [hout hnot] at hle
        omega
      exact ⟨ht, (hin ht).symm⟩
    · rintro ⟨hle, hholds⟩
      obtain ⟨ht, hdiv⟩ := (h.holds_iff (hle.trans_lt hlast) t).mp hholds
      rw [hin ht, hdiv]
      omega

/-- All the times there are, backwards, by a width that does not divide them. -/
def farthest : ProcessedRange := ⟨9223372036854775807, -9223372036854775808, 700⟩

theorem farthest_valid : farthest.Valid :=
  ⟨fitsInt64_iff.mpr (by decide), fitsInt64_iff.mpr (by decide), by decide, by decide⟩

theorem farthest_tiles : farthest.Valid ∧ farthest.Tiles :=
  ⟨farthest_valid, ProcessedRange.intervals_tile farthest_valid⟩

end OpcHub.Historian
