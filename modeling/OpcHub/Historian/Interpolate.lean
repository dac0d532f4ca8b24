import Mathlib.Data.Rat.Floor
import OpcHub.Historian.Record

/-! The bounding value of an at-time or a processed read, where no record stands: on
the line between the records on either side, as the type of the one before. The
arithmetic is taken in exact rationals, a double's rounding aside. -/

namespace OpcHub.Historian

/-- The types a value is a number of. -/
inductive NumberType where
  | double | float | sbyte | int16 | int32 | int64 | byte | uint16 | uint32 | uint64
  deriving DecidableEq, Repr

/-- The least and the greatest of an integer type. -/
def NumberType.range : NumberType → Option (ℤ × ℤ)
  | .double | .float => none
  | .sbyte => some (-128, 127)
  | .int16 => some (-32768, 32767)
  | .int32 => some (-2147483648, 2147483647)
  | .int64 => some (-9223372036854775808, 9223372036854775807)
  | .byte => some (0, 255)
  | .uint16 => some (0, 65535)
  | .uint32 => some (0, 4294967295)
  | .uint64 => some (0, 18446744073709551615)

/-- A value as the file has it; `O` is what is no number. -/
inductive Variant (O : Type*) where
  | number (type : NumberType) (d : ℚ)
  | other (o : O)

variable {O : Type*}

def Variant.number? : Variant O → Option (NumberType × ℚ)
  | .number type d => some (type, d)
  | .other _ => none

/-- To the nearest, halves away from zero. -/
def nearest (d : ℚ) : ℤ := if 0 ≤ d then ⌊d + 1 / 2⌋ else ⌈d - 1 / 2⌉

/-- The same as an int64; none where it holds no such number. -/
def llround (d : ℚ) : Option ℤ :=
  if -9223372036854775808 ≤ nearest d ∧ nearest d ≤ 9223372036854775807 then some (nearest d) else none

/-- `d` as the source's type: an integer rounds to the nearest inside its range. -/
def numberAs (d : ℚ) (like : NumberType) : Option (Variant O) :=
  if like = .uint64 then
    if d ≤ 0 then some (.number like 0)
    else if 18446744073709551615 ≤ d then some (.number like 18446744073709551615)
    else (llround d).map fun n : ℤ => .number like n
  else match like.range with
    | some (low, high) => (llround (max low (min d high))).map fun n : ℤ => .number like n
    | none => some (.number like d)

/-- How a status counts. -/
inductive StatusClass where
  | good | uncertain | bad
  deriving DecidableEq, Repr

/-- A raw record as the stream passed it to a node's track. -/
structure Seen (O : Type*) where
  time : ℤ
  value : Option (Variant O)
  status : ℕ
  class_ : StatusClass

def Seen.number? (s : Seen O) : Option (NumberType × ℚ) := s.value.bind Variant.number?

/-- A node's raw records around one time, as the stream saw them on either side of it. -/
structure Boundary (O : Type*) where
  time : ℤ
  at_ : Option (Seen O) := none
  atAny : Option (Seen O) := none
  badAt : Bool := false
  before : Option (Seen O) := none
  before2 : Option (Seen O) := none
  before2Unknown : Bool := false
  beforeAny : Option (Seen O) := none
  badBetweenBefore : Bool := false
  after : Option (Seen O) := none
  afterAny : Option (Seen O) := none
  badBetweenAfter : Bool := false
  anyAfter : Bool := false

/-- `Uncertain_DataSubNormal` and `Bad_NoData`. -/
def subNormal : ℕ := 0x40A40000
def noData : ℕ := 0x809B0000

/-- A bounding value: the raw record itself, or one computed. -/
structure Bound (O : Type*) where
  value : Option (Variant O)
  status : ℕ := 0
  raw : Bool := false
  extrapolated : Bool := false

/-- A record's value carried on, extrapolated when no record follows. -/
def Seen.held (s : Seen O) (anyAfter unsure : Bool) : Bound O :=
  { value := s.value, status := if !anyAfter || unsure then subNormal else 0, extrapolated := !anyAfter }

/-- The record's own value, or one on the line to the record after it; none where the rounding is given
what an int64 doesn't hold. -/
def Seen.toward (before after : Seen O) (t : ℤ) (unsure : Bool) : Option (Bound O) :=
  let status := if unsure then subNormal else 0
  match before.number?, after.number? with
  | some (like, v₀), some (_, v₁) =>
    if after.time ≤ before.time then some { value := before.value, status }
    else (numberAs (v₀ + (v₁ - v₀) * (t - before.time) / (after.time - before.time)) like).map
      fun v => { value := some v, status }
  | _, _ => some { value := before.value, status }

/-- The interpolated bounding value: from the nearest records that aren't Bad, extrapolated from those
before when none follows. `findBefore2` probes for the second of them. -/
def interpolated (b : Boundary O) (stepped slopedExtrapolation : Bool) (findBefore2 : Option (Seen O)) :
    Option (Bound O) :=
  match b.at_, b.before with
  | some s, _ => some { value := s.value, status := s.status, raw := true }
  | none, none => some { value := none, status := noData }
  | none, some before =>
    let unsure := b.badBetweenBefore || before.class_ == .uncertain
    match before.number? with
    | none => some (before.held b.anyAfter unsure)
    | some (like, v₀) =>
      if stepped then some (before.held b.anyAfter unsure)
      else match b.after with
        | none =>
          -- past the end of the data: the line through the two before, when asked for and there are two
          let before2 := if b.before2Unknown then findBefore2 else b.before2
          match before2.filter fun s => slopedExtrapolation && decide (s.time < before.time) with
          | none => some (before.held false unsure)
          | some s => match s.number? with
            | none => some (before.held false unsure)
            | some (_, v₁) =>
              (numberAs (v₀ + (v₀ - v₁) * (b.time - before.time) / (before.time - s.time)) like).map
                fun v => { value := some v, status := subNormal, extrapolated := true }
        | some after => before.toward after b.time
            (unsure || b.badAt || b.badBetweenAfter || after.class_ == .uncertain)

/-- The simple bounding value: from the nearest records whatever their status. -/
def simple (b : Boundary O) (stepped : Bool) : Option (Bound O) :=
  match b.atAny, b.beforeAny with
  | some s, _ => some (if s.class_ = .bad then { value := none, status := noData }
      else { value := s.value, status := s.status, raw := true })
  | none, none => some { value := none, status := noData }
  | none, some before =>
    let unsure := before.class_ == .uncertain
    if before.class_ = .bad then some { value := none, status := noData }
    else if stepped || before.number?.isNone then some (before.held b.anyAfter unsure)
    else match b.afterAny with
      | none => some (before.held false unsure)
      | some after =>
        if after.class_ = .bad then some { value := before.value, status := subNormal }
        else before.toward after b.time (unsure || after.class_ == .uncertain)

/-! ### Between two records of an integer node -/

/-- The record of a node of an integer type, one of the type's values. -/
def Seen.Holds (s : Seen O) (type : NumberType) (n : ℤ) : Prop :=
  s.value = some (.number type n) ∧ ∃ low high, type.range = some (low, high) ∧ low ≤ n ∧ n ≤ high

/-- A value of the type was computed, and it lies between the two. -/
def Within (type : NumberType) (m n : ℤ) (r : Option (Bound O)) : Prop :=
  ∃ (bound : Bound O) (y : ℤ) (low high : ℤ), r = some bound ∧ bound.value = some (.number type y) ∧
    min m n ≤ y ∧ y ≤ max m n ∧ type.range = some (low, high) ∧ low ≤ y ∧ y ≤ high

/-- What `llround` can take of the line from `m` at `t₀` to `n` at `t₁`: below the middle of the last int64
and the number after it, or the UInt64 that is never rounded. -/
def Roundable (type : NumberType) (t₀ t t₁ m n : ℤ) : Prop :=
  type = .uint64 → 2 * (m * (t₁ - t) + n * (t - t₀)) < 18446744073709551615 * (t₁ - t₀) ∨
    m = 18446744073709551615 ∧ n = 18446744073709551615

variable {m n : ℤ} {d : ℚ} {type : NumberType}

theorem nearest_between (hm : (m : ℚ) ≤ d) (hn : d ≤ n) : m ≤ nearest d ∧ nearest d ≤ n := by
  unfold nearest
  split_ifs with h
  · exact ⟨Int.le_floor.2 (by linarith), Int.lt_add_one_iff.1 (Int.floor_lt.2 (by push_cast; linarith))⟩
  · exact ⟨Int.sub_one_lt_iff.1 (Int.lt_ceil.2 (by push_cast; linarith)), Int.ceil_le.2 (by linarith)⟩

theorem nearest_le_iff (h : 0 ≤ d) (n : ℤ) : nearest d ≤ n ↔ d < n + 1 / 2 := by
  rw [nearest, if_pos h, ← Int.lt_add_one_iff, Int.floor_lt]
  push_cast
  constructor <;> intro <;> linarith

theorem NumberType.range_bounds {low high : ℤ} (hr : type.range = some (low, high))
    (h : type ≠ .uint64) : -9223372036854775808 ≤ low ∧ high ≤ 9223372036854775807 := by
  cases type <;> cases hr <;> first | exact absurd rfl h | decide

/-- Only a UInt64 is rounded without a bound of its own. -/
theorem numberAs_iff {low high : ℤ} (hr : type.range = some (low, high))
    (hl : low ≤ m) (hh : n ≤ high) (hm : (m : ℚ) ≤ d) (hn : d ≤ n) :
    (∃ y : ℤ, numberAs (O := O) d type = some (.number type y) ∧ m ≤ y ∧ y ≤ n) ↔
      (type = .uint64 → d < 9223372036854775807 + 1 / 2 ∨ 18446744073709551615 ≤ d) := by
  have hb := nearest_between hm hn
  by_cases h : type = .uint64
  · subst h
    obtain ⟨rfl, rfl⟩ := hr
    have hm0 : (0 : ℚ) ≤ m := by exact_mod_cast hl
    have hn0 : (n : ℚ) ≤ 18446744073709551615 := by exact_mod_cast hh
    have hd : (0 : ℚ) ≤ d := hm0.trans hm
    have hle := nearest_le_iff hd 9223372036854775807
    simp only [numberAs, ↓reduceIte, forall_const]
    split_ifs with h0 h1
    · refine iff_of_true ⟨0, by simp, ?_, ?_⟩ (.inl (by linarith))
      · exact_mod_cast hm.trans h0
      · exact_mod_cast hd.trans hn
    · refine iff_of_true ⟨18446744073709551615, by simp, ?_, ?_⟩ (.inr h1)
      · exact_mod_cast (hm.trans hn).trans hn0
      · exact_mod_cast h1.trans hn
    · push_cast at hle
      rw [llround, or_iff_left h1, ← hle]
      constructor
      · rintro ⟨y, hy, -⟩
        split_ifs at hy with hs
        · exact hs.2
        · cases hy
      · intro hs
        rw [if_pos ⟨by omega, hs⟩]
        exact ⟨nearest d, rfl, hb⟩
  · refine iff_of_true ⟨nearest d, ?_, hb⟩ fun he => absurd he h
    have hl' : (low : ℚ) ≤ m := by exact_mod_cast hl
    have hh' : (n : ℚ) ≤ high := by exact_mod_cast hh
    have hc : max (low : ℚ) (min d high) = d := by
      rw [min_eq_left (hn.trans hh'), max_eq_right (hl'.trans hm)]
    obtain ⟨h1, h2⟩ := NumberType.range_bounds hr h
    simp only [numberAs, if_neg h, hr, hc, llround]
    rw [if_pos ⟨by omega, by omega⟩]
    rfl

theorem line_bounds {t₀ t t₁ : ℤ} (h₀ : t₀ < t) (h₁ : t < t₁) (hd : d = m + (n - m) * (t - t₀) / (t₁ - t₀)) :
    d * ((t₁ - t₀ : ℤ) : ℚ) = (m * (t₁ - t) + n * (t - t₀) : ℤ) ∧ ((min m n : ℤ) : ℚ) ≤ d ∧ d ≤ (max m n : ℤ) := by
  have ha : (t₀ : ℚ) < t := by exact_mod_cast h₀
  have hb : (t : ℚ) < t₁ := by exact_mod_cast h₁
  have hT : (0 : ℚ) < ((t₁ - t₀ : ℤ) : ℚ) := by push_cast; linarith
  have he : d * ((t₁ - t₀ : ℤ) : ℚ) = (m * (t₁ - t) + n * (t - t₀) : ℤ) := by
    push_cast at hT ⊢
    rw [hd]
    field_simp
    ring
  refine ⟨he, le_of_mul_le_mul_right ?_ hT, le_of_mul_le_mul_right ?_ hT⟩ <;> rw [he] <;> norm_cast
  · nlinarith [min_le_left m n, min_le_right m n]
  · nlinarith [le_max_left m n, le_max_right m n]

theorem toward_within {before after : Seen O} {t : ℤ} (hm : before.Holds type m)
    (hn : after.Holds type n) (h₀ : before.time < t) (h₁ : t < after.time) (unsure : Bool) :
    Within type m n (before.toward after t unsure) ↔ Roundable type before.time t after.time m n := by
  obtain ⟨hv₀, low, high, hr, hm⟩ := hm
  obtain ⟨hv₁, _, _, hr', hn⟩ := hn
  obtain ⟨rfl, rfl⟩ : (_, _) = (low, high) := Option.some.inj (hr'.symm.trans hr)
  obtain ⟨he, hlo, hhi⟩ := line_bounds (m := m) (n := n) h₀ h₁ rfl
  have hlow := le_min hm.1 hn.1
  have hhigh := max_le hm.2 hn.2
  have hiff := numberAs_iff (O := O) hr hlow hhigh hlo hhi
  have hw : Within type m n (before.toward after t unsure) ↔ ∃ y : ℤ, numberAs (O := O)
      (m + (n - m) * (t - before.time) / (after.time - before.time)) type = some (.number type y) ∧
        min m n ≤ y ∧ y ≤ max m n := by
    simp only [Seen.toward, Seen.number?, hv₀, hv₁, Option.bind_some, Variant.number?,
      if_neg (not_le.2 (h₀.trans h₁))]
    constructor
    · rintro ⟨bound, y, _, _, hb, hy, h, h', -⟩
      obtain ⟨v, hv, rfl⟩ := Option.map_eq_some_iff.1 hb
      exact ⟨y, hv.trans hy, h, h'⟩
    · rintro ⟨y, hy, h, h'⟩
      rw [hy]
      exact ⟨_, y, _, _, rfl, rfl, h, h', hr, hlow.trans h, h'.trans hhigh⟩
  rw [hw, hiff]
  refine forall_congr' fun hu => ?_
  subst hu
  cases hr
  have hT : (0 : ℚ) < ((after.time - before.time : ℤ) : ℚ) := by exact_mod_cast sub_pos.2 (h₀.trans h₁)
  refine or_congr ?_ ?_
  · rw [← mul_lt_mul_iff_of_pos_right hT, he]
    have hq : ((9223372036854775807 : ℚ) + 1 / 2) = 18446744073709551615 / 2 := by norm_num
    rw [hq, div_mul_eq_mul_div, lt_div_iff₀ two_pos]
    norm_cast
    rw [mul_comm]
  · rw [← mul_le_mul_iff_of_pos_right hT, he]
    norm_cast
    constructor
    · intro h
      constructor <;> nlinarith
    · rintro ⟨rfl, rfl⟩
      linarith

/-- Both bounding values between two records stay between them, in the node's type, exactly where the line
is one that `llround` takes. -/
theorem within_iff_roundable {b : Boundary O} {before after : Seen O} {type : NumberType} {m n : ℤ}
    (hm : before.Holds type m) (hn : after.Holds type n) (h₀ : before.time < b.time) (h₁ : b.time < after.time) :
    (b.at_ = none → b.before = some before → b.after = some after → ∀ slopedExtrapolation findBefore2,
      (Within type m n (interpolated b false slopedExtrapolation findBefore2) ↔
        Roundable type before.time b.time after.time m n)) ∧
    (b.atAny = none → b.beforeAny = some before → before.class_ ≠ .bad → b.afterAny = some after →
      after.class_ ≠ .bad →
      (Within type m n (simple b false) ↔ Roundable type before.time b.time after.time m n)) := by
  have hv : before.number? = some (type, (m : ℚ)) := by simp [Seen.number?, hm.1, Variant.number?]
  constructor
  · intro ha hb hf sloped find
    simp only [interpolated, ha, hb, hv, hf, Bool.false_eq_true, ↓reduceIte]
    exact toward_within hm hn h₀ h₁ _
  · intro ha hb hc hf hc'
    simp only [simple, ha, hb, hv, hf, if_neg hc, if_neg hc', Option.isNone_some, Bool.or_self,
      Bool.false_eq_true, ↓reduceIte]
    exact toward_within hm hn h₀ h₁ _

/-- Halfway between two records of a node, two ticks apart. -/
def halfway (type : NumberType) (m n : ℤ) : Boundary Empty :=
  let at_ (t v : ℤ) : Option (Seen Empty) :=
    some { time := t, value := some (.number type v), status := 0, class_ := .good }
  { time := 1, before := at_ 0 m, beforeAny := at_ 0 m, after := at_ 2 n, afterAny := at_ 2 n, anyAfter := true }

/-- A counter past 2^63 that moves by two: the value between has no int64 to round to. -/
theorem halfway_uint64 : interpolated (halfway .uint64 9223372036854775808 9223372036854775810) false false none = none ∧
    simple (halfway .uint64 9223372036854775808 9223372036854775810) false = none := by
  decide +kernel

theorem halfway_small :
    ((interpolated (halfway .uint64 1000 1003) false false none).bind Bound.value).bind Variant.number? =
        some (.uint64, 1002) ∧
    Within .uint64 1000 1003 (interpolated (halfway .uint64 1000 1003) false false none) :=
  ⟨by decide +kernel, ((within_iff_roundable (b := halfway .uint64 1000 1003)
    ⟨rfl, _, _, rfl, by decide, by decide⟩ ⟨rfl, _, _, rfl, by decide, by decide⟩ (by decide) (by decide)).1
    rfl rfl rfl false none).2 fun _ => by decide⟩

end OpcHub.Historian
