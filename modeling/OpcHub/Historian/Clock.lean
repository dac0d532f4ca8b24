import Mathlib.Data.List.Count
import OpcHub.Lib.Runs

/-! The historian's clock. A timer's handler runs the callback only while the timer is still in the map, which a
Cancel takes it out of. Over every run, whatever the order of handlers and cancels, each timer scheduled is armed with
its handler to come, has run, was cancelled or was aborted: one of them, once. -/

namespace OpcHub.Historian

open Lib List

/-- The callback ran, Cancel returned true, or the handler came with an error before it. -/
inductive Fate | ran | cancelled | aborted
  deriving DecidableEq

structure SystemClock where
  nextId : ℕ := 0
  timers : List ℕ := []
  /-- The handlers still to come. -/
  handlers : List ℕ := []
  settled : List (ℕ × Fate) := []

inductive TimerEvent
  | schedule (executor : Bool)
  | handle (id : ℕ) (ec : Bool)
  | cancel (id : ℕ)

namespace SystemClock

def arm (s : SystemClock) : SystemClock :=
  { s with nextId := s.nextId + 1, timers := (s.nextId + 1) :: s.timers, handlers := (s.nextId + 1) :: s.handlers }

/-- Who erases the timer from the map settles it. -/
def settle (s : SystemClock) (id : ℕ) (fate : Fate) : SystemClock :=
  if id ∈ s.timers then { s with timers := s.timers.erase id, settled := (id, fate) :: s.settled } else s

def step (s : SystemClock) : TimerEvent → Option SystemClock
  | .schedule executor => some (if executor then s.arm else s)
  | .handle id ec =>
    if id ∈ s.handlers then some { s.settle id (if ec then .aborted else .ran) with handlers := s.handlers.erase id } else none
  | .cancel id => some (s.settle id .cancelled)

structure Sound (s : SystemClock) : Prop where
  one : ∀ id, s.timers.count id + (s.settled.map Prod.fst).count id = if 0 < id ∧ id ≤ s.nextId then 1 else 0
  armed : ∀ id ∈ s.timers, id ∈ s.handlers

variable {s t : SystemClock}

theorem timers_settle (s : SystemClock) (id : ℕ) (fate : Fate) : (s.settle id fate).timers = s.timers.erase id := by
  unfold SystemClock.settle
  split_ifs with hid
  · rfl
  · exact (erase_of_not_mem hid).symm

theorem Sound.not_mem_erase (h : s.Sound) (id : ℕ) : id ∉ s.timers.erase id := by
  have hone := h.one id
  rw [← count_eq_zero, count_erase_self]
  split_ifs at hone <;> omega

theorem Sound.settle (h : s.Sound) (id : ℕ) (fate : Fate) : (s.settle id fate).Sound := by
  unfold SystemClock.settle
  split_ifs with hid
  · refine ⟨fun i => ?_, fun i hi => h.armed i (mem_of_mem_erase hi)⟩
    rw [← h.one i]
    by_cases heq : id = i
    · subst heq
      have hpos := count_pos_iff.mpr hid
      simp only [map_cons, count_cons_self, count_erase_self]
      omega
    · rw [map_cons, count_cons_of_ne heq, count_erase_of_ne (Ne.symm heq)]
  · exact h

theorem Sound.step (h : s.Sound) {event : TimerEvent} (hstep : s.step event = some t) : t.Sound := by
  cases event with
  | schedule executor =>
    cases hstep
    split_ifs
    · refine ⟨fun i => ?_, forall_mem_cons.mpr ⟨mem_cons_self, fun i hi => mem_cons_of_mem _ (h.armed i hi)⟩⟩
      have hone := h.one i
      simp only [arm, count_cons, beq_iff_eq]
      grind
    · exact h
  | handle id ec =>
    obtain ⟨-, rfl⟩ := of_guard hstep
    have hsettled := h.settle id (if ec then .aborted else .ran)
    refine ⟨hsettled.one, fun i (hi : i ∈ (s.settle id _).timers) => ?_⟩
    rw [timers_settle] at hi
    have hne : i ≠ id := fun heq => h.not_mem_erase i (heq ▸ hi)
    exact (mem_erase_of_ne hne).mpr (h.armed i (mem_of_mem_erase hi))
  | cancel id =>
    cases hstep
    exact h.settle id .cancelled

theorem timer_once {es : List TimerEvent} (hrun : exec step {} es = some s) : s.Sound := by
  refine exec_induction (fun h hstep => h.step hstep) ⟨fun i => ?_, by simp⟩ hrun
  have hnone : ¬ (0 < i ∧ i ≤ 0) := by omega
  exact (if_neg hnone).symm

theorem cancelled_once : ∃ s, exec step {} [.schedule true, .schedule true, .cancel 1, .handle 1 true, .handle 2 false,
    .cancel 2] = some s ∧ s.settled = [(2, .ran), (1, .cancelled)] ∧ s.Sound := by
  have hrun : exec step {} [.schedule true, .schedule true, .cancel 1, .handle 1 true, .handle 2 false, .cancel 2] = some _ := rfl
  exact ⟨_, hrun, rfl, timer_once hrun⟩

end SystemClock

end OpcHub.Historian
