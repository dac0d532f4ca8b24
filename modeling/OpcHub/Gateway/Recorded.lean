import OpcHub.Gateway.Monitoring

/-! What each step on a client's monitored nodes does to the asks recorded on its
items. A request writes its listener's on the items there are, an answer on those
of the nodes it attaches, a leave takes them off; a delete takes off none, since it
finds items without listeners only. -/

namespace OpcHub.Gateway

open Lib Option Tracked

variable {N L : Type*} [LinearOrder N] [LinearOrder L]

namespace Answering

variable {t : Tracked N L} {c : Call N L} {h r : MonitorHandle} {n : N} {x : Answering N L}
  {result : MonitoredItemCreateResult}

theorem askAgain_node (c : Call N L) (i : Item N L) : (c.askAgain i).1.node = i.node := by
  unfold Call.askAgain
  cases c.refreshed.find? i.node with
  | none => rfl
  | some p => exact i.join_node c.listener p

theorem askAgain_result (c : Call N L) (i : Item N L) : (c.askAgain i).1.result = i.result := by
  unfold Call.askAgain
  cases c.refreshed.find? i.node with
  | none => rfl
  | some p => exact i.join_result c.listener p

theorem indexed_attachNew (ht : t.Indexed) (hn : t.findNode n = none) (h : MonitorHandle)
    (result : MonitoredItemCreateResult) : (attachNew t c h n result).1.Indexed :=
  (ht.track hn h).alterAt (askAgain_node c) h

theorem find?_attachNew (t : Tracked N L) (c : Call N L) (h : MonitorHandle) (n : N)
    (result : MonitoredItemCreateResult) (h' : MonitorHandle) :
    (attachNew t c h n result).1.subscriptions.find? h' =
      if h' = h then
        some (c.askAgain ((t.subscriptions.find? h).getD (.create n result c.listener (c.sent n)))).1
      else t.subscriptions.find? h' := by
  unfold attachNew
  rw [find?_alterAt]
  simp only [track, OrdMap.find?_emplace]
  split_ifs with hh
  · rfl
  · simp

theorem recorded_attachNew (ht : t.Indexed) (hn : t.findNode n = none) (h : MonitorHandle)
    (result : MonitoredItemCreateResult) (k : L) (m : N) :
    (attachNew t c h n result).1.recorded k m =
      if k = c.listener ∧ m ∈ attaches t c h n then some (c.ask m) else t.recorded k m := by
  unfold attachNew recorded
  rw [findNode_alterAt (askAgain_node c), ht.findNode_track hn, bind_map]
  cases hh : t.subscriptions.find? h with
  | none =>
    simp only [Item.create, and_true, attaches, hh, elim_none, mem_def, some.injEq]
    by_cases hm : m = n
    · subst hm
      simp only [hn, if_true, bind_some, Function.comp_apply, and_true, bind_none]
      unfold Call.ask Call.askAgain
      cases c.refreshed.find? m with
      | none => simp [OrdMap.find?_insert]
      | some p =>
        simp only [elim_some, Item.join_listeners, OrdMap.find?_insert, getD_some]
        split <;> rfl
    · rw [if_neg hm, if_neg fun heq => hm heq.2.symm]
      cases hm' : t.findNode m with
      | none => rfl
      | some y =>
        have hne : y.1 ≠ h := by
          rintro rfl
          rw [(findNode_eq_some.mp hm').2.1] at hh
          cases hh
        simp [hne]
  | some j =>
    simp only [Item.create, reduceCtorEq, and_false, if_false, attaches, hh, elim_some]
    by_cases hm : m = j.node
    · subst hm
      rw [ht.findNode_iff.mpr ⟨hh, rfl⟩]
      simp only [bind_some, Function.comp_apply, if_true]
      unfold Call.ask Call.askAgain
      cases c.refreshed.find? j.node with
      | none => simp
      | some p =>
        simp only [elim_some, Item.join_listeners, OrdMap.find?_insert, isSome_some, if_true,
          mem_def, and_true, getD_some]
    · have hne : ∀ y, t.findNode m = some y → y.1 ≠ h := by
        rintro y hy rfl
        obtain ⟨-, hi, hnode⟩ := findNode_eq_some.mp hy
        rw [hh] at hi
        cases hi
        exact hm hnode.symm
      have hattaches : m ∉ if (c.refreshed.find? j.node).isSome then some j.node else none := by
        split
        · exact fun heq => hm (some.inj heq).symm
        · exact not_mem_none m
      rw [if_neg fun heq => hattaches heq.2]
      cases hm' : t.findNode m with
      | none => rfl
      | some y => simp [hne y hm']

/-- What an answer has done to the asks: those of the nodes it attached are its listener's. -/
structure Wrote (t : Tracked N L) (c : Call N L) (x : Answering N L) : Prop where
  indexed : x.tracked.Indexed
  recorded : ∀ k m, x.tracked.recorded k m =
    if k = c.listener ∧ m ∈ x.attached then some (c.ask m) else t.recorded k m

theorem Wrote.answerNode (hx : Wrote t c x) (r : MonitorHandle) (e : N × MonitoredItemCreateResult) :
    Wrote t c (answerNode r c x e) := by
  unfold Answering.answerNode
  split_ifs with hstatus hcancelled hfound
  · exact ⟨hx.indexed, hx.recorded⟩
  · exact ⟨hx.indexed, hx.recorded⟩
  · have hnode : ∀ i : Item N L, (i.join c.listener (c.ask e.1)).1.node = i.node := fun i => i.join_node _ _
    refine ⟨hx.indexed.alter hnode e.1, fun k m => ?_⟩
    rw [recorded_alter hnode]
    obtain ⟨y, hy⟩ := isSome_iff_exists.mp hfound
    by_cases hm : m = e.1
    · subst hm
      by_cases hk : k = c.listener
      · simp [hy, hk]
      · have hrecorded := hx.recorded k e.1
        rw [if_neg fun heq => hk heq.1] at hrecorded
        rw [if_pos rfl, if_neg fun heq => hk heq.1, ← hrecorded]
        simp [Tracked.recorded, hy, OrdMap.find?_insert_of_ne _ _ hk]
    · rw [if_neg hm, hx.recorded]
      simp [hm]
  · have hnone : x.tracked.findNode e.1 = none := by simpa using hfound
    refine ⟨indexed_attachNew hx.indexed hnone _ _, fun k m => ?_⟩
    rw [recorded_attachNew hx.indexed hnone, hx.recorded]
    by_cases hk : k = c.listener <;> by_cases hm : m ∈ attaches x.tracked c (.of r.subId e.2.monitoredItemId) e.1 <;>
      simp [hk, hm]

theorem Wrote.foldl (hx : Wrote t c x) (r : MonitorHandle) (es : List (N × MonitoredItemCreateResult)) :
    Wrote t c (es.foldl (Answering.answerNode r c) x) := by
  induction es generalizing x with
  | nil => exact hx
  | cons e es ih => exact ih (hx.answerNode r e)

end Answering

namespace Monitoring

variable {s t : Monitoring N L} {r : MonitorHandle} {c : Call N L} {l k : L} {n : N} {e : MonitorEvent N L}

theorem wrote_answering (hs : s.Indexed) (r : MonitorHandle) (c : Call N L) (results : List MonitoredItemCreateResult) :
    Answering.Wrote s.toTracked c (s.answering r c results) :=
  Answering.Wrote.foldl ⟨hs, fun k m => by simp⟩ r _

theorem recorded_register (s : Monitoring N L) (l k : L) (nodes : OrdMap N Unit) (n : N) :
    (s.register l nodes).recorded k n =
      if k = l ∧ nodes.contains n = true ∧ (s.findNode n).isSome then some (s.asks l n) else s.recorded k n :=
  recorded_joinAll s.toTracked nodes (s.asks l) l k n

theorem recorded_answerCall (hs : s.Indexed) (r : MonitorHandle) (results : List MonitoredItemCreateResult)
    (c : Call N L) (k : L) (n : N) :
    (s.answerCall r results c).recorded k n =
      if k = c.listener ∧ n ∈ (s.answering r c results).attached then some (c.ask n) else s.recorded k n :=
  (wrote_answering hs r c results).recorded k n

theorem recorded_unsubscribe (s : Monitoring N L) (l k : L) (nodes : OrdMap N Unit) (n : N) :
    (s.unsubscribe l nodes).recorded k n = if k = l ∧ nodes.contains n = true then none else s.recorded k n :=
  recorded_leaveNodes s.toTracked nodes l k n

theorem recorded_unsubscribeAll (s : Monitoring N L) (l k : L) (n : N) :
    (s.unsubscribeAll l).recorded k n = if k = l then none else s.recorded k n :=
  recorded_leaveAll s.toTracked l k n

theorem recorded_parametersChanged (s : Monitoring N L) (l k : L) (nodes : OrdMap N Unit) (n : N) :
    (s.parametersChanged l nodes).recorded k n =
      if k = l ∧ nodes.contains n = true then (s.recorded k n).map fun _ => s.asks l n else s.recorded k n :=
  recorded_askAll s.toTracked nodes (s.asks l) l k n

theorem judgeNode_node (changes : OrdMap N (Change L)) (status : N → StatusCode) (n : N) (i : Item N L) :
    (judgeNode changes status n i).1.node = i.node := by
  unfold judgeNode
  cases changes.find? n with
  | none => rfl
  | some c => exact i.modified_node c _

theorem isSome_recorded_modifying (s : Monitoring N L) (changes : OrdMap N (Change L)) (status : N → StatusCode)
    (k : L) (n : N) : ((s.modifying changes status).recorded k n).isSome = (s.recorded k n).isSome := by
  unfold modifying
  rw [recorded_alterAll (judgeNode_node changes status) changes.keys_nodup]
  split_ifs
  · unfold recorded judgeNode
    cases s.findNode n with
    | none => rfl
    | some x =>
      cases changes.find? n with
      | none => rfl
      | some c => exact x.2.isSome_find?_modified c _ k
  · rfl

theorem recorded_modifying (s : Monitoring N L) (changes : OrdMap N (Change L)) {status : N → StatusCode}
    (hgood : ∀ n, status n = 0) (k : L) (n : N) : (s.modifying changes status).recorded k n = s.recorded k n := by
  unfold modifying
  rw [recorded_alterAll (judgeNode_node changes status) changes.keys_nodup]
  split_ifs
  · unfold recorded judgeNode
    cases s.findNode n with
    | none => rfl
    | some x =>
      cases changes.find? n with
      | none => rfl
      | some c => simp [hgood, Item.modified_good_listeners]
  · rfl

theorem recorded_revise (s : Monitoring N L) (m : N) (samplingInterval : ℚ) (queueSize : ℕ) (k : L) (n : N) :
    (s.revise m samplingInterval queueSize).recorded k n = s.recorded k n := by
  unfold revise
  rw [recorded_alter (fun i => rfl)]
  split_ifs with hn
  · rw [hn]
    rfl
  · rfl

theorem indexed_foldl_retire {t : Tracked N L} (ht : t.Indexed) (hs : List MonitorHandle) :
    (hs.foldl retire t).Indexed := by
  induction hs generalizing t with
  | nil => exact ht
  | cons h hs ih => exact ih (ht.retire h)

theorem find?_foldl_retire {t : Tracked N L} (hs : List MonitorHandle) {h : MonitorHandle} {i : Item N L}
    (hi : (hs.foldl retire t).subscriptions.find? h = some i) : t.subscriptions.find? h = some i := by
  induction hs generalizing t with
  | nil => exact hi
  | cons h' hs ih =>
    have hleft := ih hi
    rw [find?_retire, ite_none_left_eq_some] at hleft
    exact hleft.2

theorem recorded_foldl_retire {t : Tracked N L} (ht : t.Indexed) (hs : List MonitorHandle) (k : L) (n : N) :
    (hs.foldl retire t).recorded k n = t.recorded k n := by
  induction hs generalizing t with
  | nil => rfl
  | cons h hs ih => rw [List.foldl_cons, ih (ht.retire h), ht.recorded_retire]

theorem recorded_deleteMonitoring (hs : s.Indexed) (requested : List MonitorHandle) (k : L) (n : N) :
    (s.deleteMonitoring requested).recorded k n = s.recorded k n :=
  recorded_foldl_retire hs requested k n

theorem indexed_start (asks : L → N → MonitoringParameters) : ({ asks := asks } : Monitoring N L).Indexed := by
  intro h i hi
  cases hi

theorem indexed_step (hs : s.Indexed) (hstep : s.step e = some t) : t.Indexed := by
  cases e with
  | request l nodes =>
    cases hstep
    unfold monitoredItemsRequest
    split
    · exact hs
    · exact hs.alterAll (fun n i => i.join_node l (s.asks l n)) nodes.keys
  | answer r results =>
    obtain ⟨-, rfl⟩ := of_guard hstep
    unfold onCreateResponse
    cases s.calls.find? r with
    | none => exact hs
    | some c => exact (wrote_answering hs r c results).indexed
  | fail | ack =>
    obtain ⟨-, rfl⟩ := of_guard hstep
    exact hs
  | unsubscribe l nodes =>
    cases hstep
    exact hs.alterAll (fun n i => i.leave_node l) nodes.keys
  | unsubscribeAll l =>
    cases hstep
    exact hs.leaveAll l
  | change | subscribed =>
    cases hstep
    exact hs
  | parametersChanged l nodes =>
    cases hstep
    exact hs.alterAll (fun n i => i.ask_node l (s.asks l n)) nodes.keys
  | modified changes status =>
    obtain ⟨-, rfl⟩ := of_guard hstep
    exact hs.alterAll (judgeNode_node changes status) changes.keys
  | revised n samplingInterval queueSize =>
    cases hstep
    exact hs.alter (fun i => rfl) n
  | take =>
    cases hstep
    intro h i hi
    cases hi
  | pass requested =>
    obtain ⟨-, rfl⟩ := of_guard hstep
    exact indexed_foldl_retire hs requested

/-- One node, of a request. -/
def node (n : ℕ) : OrdMap ℕ Unit := (∅ : OrdMap ℕ Unit).insert n ()

end Monitoring

end OpcHub.Gateway
