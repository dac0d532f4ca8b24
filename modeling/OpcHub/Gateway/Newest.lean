import OpcHub.Gateway.Recorded

/-! Whether the ask recorded for a listener is its newest. A change of the
listener's parameters is followed by an announcement or a request, and each writes
the ask where there is an item. A create carries the ask it was sent with, or the
one it was refreshed with while its listener had no item: its answer writes that
over whatever was recorded since. -/

namespace OpcHub.Gateway

open Lib Option

variable {N L : Type*} [LinearOrder N] [LinearOrder L]

namespace Monitoring

/-- A modify that is answered is answered Good. -/
def Succeeds (_ : Monitoring N L) : MonitorEvent N L → Prop
  | .modified _ status => ∀ n, status n = 0
  | _ => True

/-- The ask recorded, once announced, is the listener's own unless an answer wrote over it. -/
structure Newest (s : Monitoring N L) : Prop where
  indexed : s.Indexed
  newest : ∀ l n, ∀ p ∈ s.recorded l n, s.unannounced l n = false → (p.Same (s.asks l n) ↔ s.overwritten l n = false)

variable {s t : Monitoring N L} {e : MonitorEvent N L} {l : L} {n : N} {p : MonitoringParameters}

variable (h : s.Newest)
include h

theorem Newest.of_eq (ht : t.Indexed) (hrecorded : ∀ l n, ∀ p ∈ t.recorded l n, p ∈ s.recorded l n)
    (hasks : t.asks = s.asks) (hunannounced : t.unannounced = s.unannounced)
    (hoverwritten : t.overwritten = s.overwritten) : t.Newest := by
  refine ⟨ht, fun l n p hp => ?_⟩
  rw [hasks, hunannounced, hoverwritten]
  exact h.newest l n p (hrecorded l n p hp)

theorem Newest.register (l : L) (nodes : OrdMap N Unit) (ht : (s.register l nodes).Indexed) :
    (s.register l nodes).Newest := by
  refine ⟨ht, fun k n p hp hannounced => ?_⟩
  rw [recorded_register] at hp
  simp only [Monitoring.register, post] at hannounced ⊢
  by_cases hwritten : k = l ∧ nodes.contains n = true
  · obtain ⟨rfl, hn⟩ := hwritten
    -- without an item there is no ask
    cases hfound : s.findNode n with
    | none => simp [Tracked.recorded, hfound] at hp
    | some x =>
      obtain rfl : s.asks k n = p := by simpa [hn, hfound] using hp
      simp [hn, MonitoringParameters.Same.refl]
  · rw [if_neg fun heq => hwritten ⟨heq.1, heq.2.1⟩] at hp
    simp only [hwritten, decide_false, Bool.not_false, Bool.and_true] at hannounced ⊢
    exact h.newest k n p hp hannounced

theorem Newest.parametersChanged (l : L) (nodes : OrdMap N Unit)
    (ht : (s.parametersChanged l nodes).Indexed) : (s.parametersChanged l nodes).Newest := by
  refine ⟨ht, fun k n p hp hannounced => ?_⟩
  rw [recorded_parametersChanged] at hp
  simp only [Monitoring.parametersChanged, post] at hannounced ⊢
  by_cases hwritten : k = l ∧ nodes.contains n = true
  · rw [if_pos hwritten] at hp
    obtain ⟨q, -, rfl⟩ := map_eq_some_iff.mp hp
    simp [hwritten, MonitoringParameters.Same.refl]
  · rw [if_neg hwritten] at hp
    simp only [hwritten, decide_false, Bool.not_false, Bool.and_true] at hannounced ⊢
    exact h.newest k n p hp hannounced

theorem Newest.answerCall (r : MonitorHandle) (results : List MonitoredItemCreateResult) (c : Call N L)
    (ht : (s.answerCall r results c).Indexed) : (s.answerCall r results c).Newest := by
  refine ⟨ht, fun k n p hp hannounced => ?_⟩
  rw [recorded_answerCall h.indexed] at hp
  simp only [Monitoring.answerCall, post] at hannounced ⊢
  split_ifs at hp ⊢ with hwritten
  · cases hp
    simp
  · exact h.newest k n p hp hannounced

theorem Newest.change (l : L) (m : N) (q : MonitoringParameters) : (s.change l m q).Newest := by
  refine ⟨h.indexed, fun k n p hp hannounced => ?_⟩
  simp only [Monitoring.change, Bool.or_eq_false_iff, decide_eq_false_iff_not] at hannounced ⊢
  rw [if_neg hannounced.2]
  exact h.newest k n p hp hannounced.1

theorem Newest.step (hgood : s.Succeeds e) (hstep : s.step e = some t) : t.Newest := by
  have ht := indexed_step h.indexed hstep
  cases e with
  | request l nodes =>
    cases hstep
    unfold monitoredItemsRequest at ht ⊢
    split_ifs at ht ⊢
    · exact h
    · exact h.register l nodes ht
  | answer r results =>
    obtain ⟨-, rfl⟩ := of_guard hstep
    unfold onCreateResponse at ht ⊢
    cases hc : s.calls.find? r with
    | none => exact h.of_eq h.indexed (fun l n p hp => hp) rfl rfl rfl
    | some c =>
      rw [hc] at ht
      exact (h.answerCall r results c ht).of_eq ht (fun l n p hp => hp) rfl rfl rfl
  | fail | ack =>
    obtain ⟨-, rfl⟩ := of_guard hstep
    exact h.of_eq ht (fun l n p hp => hp) rfl rfl rfl
  | unsubscribe l nodes =>
    cases hstep
    refine h.of_eq ht (fun k n p hp => ?_) rfl rfl rfl
    rw [recorded_unsubscribe, mem_def, ite_none_left_eq_some] at hp
    exact hp.2
  | unsubscribeAll l =>
    cases hstep
    refine h.of_eq ht (fun k n p hp => ?_) rfl rfl rfl
    rw [recorded_unsubscribeAll, mem_def, ite_none_left_eq_some] at hp
    exact hp.2
  | change l n p =>
    cases hstep
    exact h.change l n p
  | parametersChanged l nodes =>
    cases hstep
    exact h.parametersChanged l nodes ht
  | modified changes status =>
    obtain ⟨-, rfl⟩ := of_guard hstep
    refine h.of_eq ht (fun k n p hp => ?_) rfl rfl rfl
    rwa [recorded_modifying s changes hgood] at hp
  | revised n samplingInterval queueSize =>
    cases hstep
    refine h.of_eq ht (fun k n p hp => ?_) rfl rfl rfl
    rwa [recorded_revise] at hp
  | take =>
    cases hstep
    exact h.of_eq ht nofun rfl rfl rfl
  | pass requested =>
    obtain ⟨-, rfl⟩ := of_guard hstep
    refine h.of_eq ht (fun k n p hp => ?_) rfl rfl rfl
    rwa [recorded_deleteMonitoring h.indexed] at hp
  | subscribed id =>
    cases hstep
    exact h.of_eq ht (fun l n p hp => hp) rfl rfl rfl

omit h

/-- Over any run whose modifies all succeed, the ask recorded for a listener whose changes are all announced is its
own exactly when no answer of a create wrote another over it last; creates still out do not matter. -/
theorem newest_ask_iff {asks : L → N → MonitoringParameters} {es : List (MonitorEvent N L)}
    (hrun : exec step { asks := asks } es = some s) (hgood : Along step Succeeds { asks := asks } es)
    (hp : s.recorded l n = some p) (hannounced : s.unannounced l n = false) :
    p.Same (s.asks l n) ↔ s.overwritten l n = false := by
  have hstart : ({ asks := asks } : Monitoring N L).Newest :=
    ⟨indexed_start asks, nofun⟩
  have hnewest : s.Newest := hgood.exec_induction (fun h hgood hstep => Newest.step h hgood hstep) hstart hrun
  exact hnewest.newest l n p hp hannounced

/-- An ask for a queue of `n`. -/
def queue (n : ℕ) : MonitoringParameters := { queueSize := n }

/-- A listener asks again while its create is out, and the create is refreshed. -/
def refreshedCreate : List (MonitorEvent ℕ ℕ) :=
  [.subscribed 1, .request 0 (node 5), .change 0 5 (queue 2), .parametersChanged 0 (node 5),
    .answer (.of 1 1) [{ monitoredItemId := 7 }]]

theorem refreshedCreate_newest : ∃ s, exec step { asks := fun _ _ => queue 1 } refreshedCreate = some s ∧
    ∃ p, s.recorded 0 5 = some p ∧ p.Same (s.asks 0 5) := by
  have hrun : exec step { asks := fun _ _ => queue 1 } refreshedCreate = some _ := rfl
  have hgood : Along step Succeeds { asks := fun _ _ => queue 1 } refreshedCreate := by
    simp [refreshedCreate, Along, Succeeds]
  exact ⟨_, hrun, _, rfl, (newest_ask_iff hrun hgood rfl (by decide +kernel)).mpr (by decide +kernel)⟩

/-- Two creates of a listener for a node are out, the first answers, and the listener asks a third time before the
second does. -/
def staleCreate : List (MonitorEvent ℕ ℕ) :=
  [.subscribed 1, .request 0 (node 5), .change 0 5 (queue 2), .request 0 (node 5),
    .answer (.of 1 1) [{ monitoredItemId := 7 }], .change 0 5 (queue 3), .parametersChanged 0 (node 5),
    .answer (.of 1 2) [{ monitoredItemId := 8 }], .ack (.of 1 1), .ack (.of 1 2)]

/-- Nothing is out or unannounced, and the second ask is recorded over the third. -/
theorem staleCreate_not_newest : ((exec step { asks := fun _ _ => queue 1 } staleCreate).map fun s : Monitoring ℕ ℕ =>
      (s.calls.entries.length, s.unannounced 0 5, s.recorded 0 5, s.asks 0 5)) =
      some (0, false, some (queue 2), queue 3) := by
  decide +kernel

end Monitoring

end OpcHub.Gateway
