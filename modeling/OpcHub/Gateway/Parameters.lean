import Mathlib.Data.NNRat.Lemmas
import Mathlib.Data.List.Perm.Basic

/-! What a listener asks of a node's item, and the one item that serves them
all: the fastest sampling, the deepest queue, the most inclusive trigger, and the
smallest deadband where all are of one type, else none. Asks are ordered by how
strict they are, and the merge is the infimum of the asks: it is below each of
them, and the order they are merged in does not matter. -/

namespace OpcHub.Gateway

/-- When an item reports. -/
inductive Trigger where
  | status
  | statusValue
  | statusValueTimestamp
  deriving DecidableEq

/-- The value the protocol gives it; a greater one reports more. -/
def Trigger.value : Trigger → ℕ
  | .status => 0
  | .statusValue => 1
  | .statusValueTimestamp => 2

theorem Trigger.value_injective : Function.Injective Trigger.value := by
  intro a b h
  cases a <;> cases b <;> first | rfl | cases h

instance : LinearOrder Trigger := LinearOrder.lift' Trigger.value Trigger.value_injective

inductive DeadbandType where
  | none
  | absolute
  | percent
  deriving DecidableEq

/-- A deadband that is accepted is a number of at least 0. -/
structure Deadband where
  type : DeadbandType := .none
  value : ℚ≥0 := 0
  deriving DecidableEq

structure DataChangeFilter where
  trigger : Trigger := .statusValue
  deadband : Deadband := {}
  deriving DecidableEq

/-- In ms. -/
def defaultSamplingInterval : ℚ≥0 := 500

structure MonitoringParameters where
  /-- In ms, 0 the server's fastest; a session gives the publishing interval for a negative one. -/
  samplingInterval : ℚ≥0 := defaultSamplingInterval
  queueSize : ℕ := 1
  discardOldest : Bool := true
  /-- None is the server's default. -/
  filter : Option DataChangeFilter := none
  deriving DecidableEq

namespace Deadband

/-- The smaller of two of one type, and none for two of different types. -/
def meet (a b : Deadband) : Deadband := if a.type = b.type then ⟨a.type, min a.value b.value⟩ else {}

theorem meet_comm (a b : Deadband) : a.meet b = b.meet a := by
  unfold meet
  by_cases h : a.type = b.type
  · rw [if_pos h, if_pos h.symm, h, min_comm]
  · rw [if_neg h, if_neg (Ne.symm h)]

theorem meet_self (a : Deadband) : a.meet a = a := by simp [meet]

/-- None meets what it meets in none of size 0: a value of at least 0 is what keeps this associative. -/
theorem none_meet (a : Deadband) : meet {} a = {} := by
  unfold meet
  split
  · simp
  · rfl

theorem meet_none (a : Deadband) : a.meet {} = {} := by rw [meet_comm, none_meet]

theorem meet_assoc (a b c : Deadband) : (a.meet b).meet c = a.meet (b.meet c) := by
  by_cases hab : a.type = b.type
  · by_cases hbc : b.type = c.type
    · simp [meet, hab, hbc, min_assoc]
    · have hright : b.meet c = {} := if_neg hbc
      rw [hright, meet_none]
      simp [meet, hab, hbc]
  · have hleft : a.meet b = {} := if_neg hab
    rw [hleft, none_meet]
    by_cases hbc : b.type = c.type
    · have hac : a.type ≠ c.type := hbc ▸ hab
      simp [meet, hbc, hac]
    · have hright : b.meet c = {} := if_neg hbc
      rw [hright, meet_none]

instance : Min Deadband := ⟨meet⟩

instance : SemilatticeInf Deadband := SemilatticeInf.mk' meet_comm meet_assoc meet_self

theorem le_iff {a b : Deadband} : a ≤ b ↔ a = {} ∨ a.type = b.type ∧ a.value ≤ b.value := by
  rw [← inf_eq_left]
  change a.meet b = a ↔ _
  unfold meet
  by_cases h : a.type = b.type
  · rw [if_pos h]
    constructor
    · intro heq
      exact .inr ⟨h, min_eq_left_iff.mp (congrArg value heq)⟩
    · rintro (rfl | ⟨-, hle⟩)
      · simp
      · rw [min_eq_left hle]
  · rw [if_neg h]
    constructor
    · intro heq
      exact .inl heq.symm
    · rintro (rfl | ⟨htype, -⟩)
      · rfl
      · exact absurd htype h

end Deadband

/-- How strict an ask is: below one that samples less often, queues less, reports less or has a larger deadband. -/
abbrev Strictness := ℚ≥0 × ℕᵒᵈ × Boolᵒᵈ × Triggerᵒᵈ × Deadband

namespace MonitoringParameters

open OrderDual

variable {p q y : MonitoringParameters} {ps qs : List MonitoringParameters}

/-- What the filter asks: none asks the server's default. -/
def asked (p : MonitoringParameters) : DataChangeFilter := p.filter.getD {}

/-- `operator==`: no filter and the default one are one ask. -/
def Same (p q : MonitoringParameters) : Prop :=
  p.samplingInterval = q.samplingInterval ∧ p.queueSize = q.queueSize ∧ p.discardOldest = q.discardOldest ∧
    p.asked = q.asked

instance : DecidableRel Same := fun p q =>
  inferInstanceAs (Decidable (p.samplingInterval = q.samplingInterval ∧ p.queueSize = q.queueSize ∧
    p.discardOldest = q.discardOldest ∧ p.asked = q.asked))

/-- An item asked for `p` serves a listener that asks `q`: it samples at least as often, queues at least as much,
triggers on at least as much and has no larger deadband. -/
def Serves (p q : MonitoringParameters) : Prop :=
  p.samplingInterval ≤ q.samplingInterval ∧ q.queueSize ≤ p.queueSize ∧ q.asked.trigger ≤ p.asked.trigger ∧
    (p.asked.deadband = {} ∨ p.asked.deadband.type = q.asked.deadband.type ∧ p.asked.deadband.value ≤ q.asked.deadband.value)

def strictness (p : MonitoringParameters) : Strictness :=
  (p.samplingInterval, toDual p.queueSize, toDual p.discardOldest, toDual p.asked.trigger, p.asked.deadband)

/-- The loop of the merge, over what it has so far. -/
def join (y p : MonitoringParameters) : MonitoringParameters where
  samplingInterval := min y.samplingInterval p.samplingInterval
  queueSize := max y.queueSize p.queueSize
  discardOldest := y.discardOldest || p.discardOldest
  filter :=
    if y.filter = none ∧ p.filter = none then none
    else some ⟨max y.asked.trigger p.asked.trigger, y.asked.deadband.meet p.asked.deadband⟩

/-- A plain item is sent with no filter. -/
def plain (y : MonitoringParameters) : MonitoringParameters := if y.filter = some {} then { y with filter := none } else y

def merge : List MonitoringParameters → MonitoringParameters
  | [] => {}
  | p :: ps => (ps.foldl join p).plain

theorem same_iff_strictness : p.Same q ↔ p.strictness = q.strictness := by
  simp only [Same, strictness, Prod.mk.injEq, toDual_inj]
  refine and_congr_right fun _ => and_congr_right fun _ => and_congr_right fun _ => ?_
  constructor
  · intro h
    rw [h]
    exact ⟨rfl, rfl⟩
  · rintro ⟨htrigger, hdeadband⟩
    cases hp : p.asked
    cases hq : q.asked
    simp_all

theorem Same.refl (p : MonitoringParameters) : p.Same p := ⟨rfl, rfl, rfl, rfl⟩

theorem Same.symm (h : p.Same q) : q.Same p := ⟨h.1.symm, h.2.1.symm, h.2.2.1.symm, h.2.2.2.symm⟩

theorem Same.trans (h : p.Same q) (h' : q.Same y) : p.Same y :=
  ⟨h.1.trans h'.1, h.2.1.trans h'.2.1, h.2.2.1.trans h'.2.2.1, h.2.2.2.trans h'.2.2.2⟩

theorem strictness_join (y p : MonitoringParameters) : (y.join p).strictness = y.strictness ⊓ p.strictness := by
  have hasked : (y.join p).asked = ⟨max y.asked.trigger p.asked.trigger, y.asked.deadband.meet p.asked.deadband⟩ := by
    by_cases h : y.filter = none ∧ p.filter = none
    · simp [asked, join, h.1, h.2, Deadband.meet_self]
    · simp [asked, join, h]
  unfold strictness
  rw [hasked]
  rfl

@[simp] theorem strictness_plain (y : MonitoringParameters) : y.plain.strictness = y.strictness := by
  unfold plain
  split
  · rename_i h
    simp [strictness, asked, h]
  · rfl

theorem plain_eq_of_strictness (h : p.strictness = q.strictness) : p.plain = q.plain := by
  obtain ⟨hsampling, hqueue, hdiscard, hasked⟩ := same_iff_strictness.mpr h
  cases p with
  | mk ps pq pd pf =>
    cases q with
    | mk qs qq qd qf =>
      simp only [asked] at hasked
      cases pf <;> cases qf <;> simp_all [plain]

theorem le_foldl_join {x : Strictness} (ps : List MonitoringParameters) (y : MonitoringParameters) :
    x ≤ (ps.foldl join y).strictness ↔ x ≤ y.strictness ∧ ∀ p ∈ ps, x ≤ p.strictness := by
  induction ps generalizing y with
  | nil => simp
  | cons p ps ih =>
    rw [List.foldl_cons, ih, strictness_join, le_inf_iff, List.forall_mem_cons, and_assoc]

/-- The merge is the least strict of what is as strict as each ask. -/
theorem le_merge_iff (h : ps ≠ []) {x : Strictness} : x ≤ (merge ps).strictness ↔ ∀ p ∈ ps, x ≤ p.strictness := by
  cases ps with
  | nil => exact absurd rfl h
  | cons p ps => rw [merge, strictness_plain, le_foldl_join, List.forall_mem_cons]

theorem merge_le (h : p ∈ ps) : (merge ps).strictness ≤ p.strictness :=
  (le_merge_iff (List.ne_nil_of_mem h)).mp le_rfl p h

theorem merge_serves (h : p ∈ ps) : (merge ps).Serves p := by
  obtain ⟨hsampling, hqueue, -, htrigger, hdeadband⟩ := merge_le h
  exact ⟨hsampling, hqueue, htrigger, Deadband.le_iff.mp hdeadband⟩

theorem merge_le_merge (h : qs ⊆ ps) (hne : qs ≠ []) : (merge ps).strictness ≤ (merge qs).strictness :=
  (le_merge_iff hne).mpr fun _ hq => merge_le (h hq)

theorem merge_perm (h : ps.Perm qs) : merge ps = merge qs := by
  cases ps with
  | nil => rw [h.nil_eq]
  | cons p ps =>
    cases qs with
    | nil => cases h.eq_nil
    | cons q qs =>
      have hle := merge_le_merge h.symm.subset (List.cons_ne_nil q qs)
      have hge := merge_le_merge h.subset (List.cons_ne_nil p ps)
      exact plain_eq_of_strictness (by simpa only [merge, strictness_plain] using le_antisymm hle hge)

end MonitoringParameters

end OpcHub.Gateway
