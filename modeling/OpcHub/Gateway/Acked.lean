import OpcHub.Gateway.Recorded

/-! What a request's ack says. Each node of the request is answered once. A node
the request attached its listener to has its ask recorded until the listener
unsubscribes it or the items are taken; one it did not attach is answered from its
own error, or from whatever item the node has, and that is another listener's when
the create failed as a whole or was taken. -/

namespace OpcHub.Gateway

open Lib OrdMap Option

variable {N L : Type*} [LinearOrder N] [LinearOrder L]

namespace Answering

variable {t : Tracked N L} {c : Call N L} {x : Answering N L}

/-- Items are created Good, and what an answer keeps as an error is not. -/
structure Judged (x : Answering N L) : Prop where
  indexed : x.tracked.Indexed
  good : ∀ h, ∀ i ∈ x.tracked.subscriptions.find? h, i.result.statusCode = 0
  errors : ∀ n, ∀ status ∈ x.errors.find? n, status ≠ 0

theorem judged_emplace {errors : OrdMap N StatusCode} (h : ∀ n, ∀ status ∈ errors.find? n, status ≠ 0) (m : N)
    {sc : StatusCode} (hsc : sc ≠ 0) : ∀ n, ∀ status ∈ (errors.emplace m sc).find? n, status ≠ 0 := by
  intro n status hstatus
  rw [find?_emplace] at hstatus
  split_ifs at hstatus with hn
  · cases hm : errors.find? m with
    | none =>
      rw [hm] at hstatus
      cases hstatus
      exact hsc
    | some status' =>
      rw [hm] at hstatus
      cases hstatus
      exact h m status' hm
  · exact h n status hstatus

theorem Judged.answerNode (hx : Judged x) (r : MonitorHandle) (c : Call N L) (e : N × MonitoredItemCreateResult) :
    Judged (answerNode r c x e) := by
  unfold Answering.answerNode
  split_ifs with hstatus hcancelled hfound
  · exact ⟨hx.indexed, hx.good, judged_emplace hx.errors e.1 hstatus⟩
  · exact ⟨hx.indexed, hx.good, judged_emplace hx.errors e.1 (by decide)⟩
  · refine ⟨hx.indexed.alter (fun i => i.join_node _ _) e.1, fun h i hi => ?_, hx.errors⟩
    rw [hx.indexed.find?_alter] at hi
    obtain ⟨j, hj, rfl⟩ := map_eq_some_iff.mp hi
    split
    · rw [Item.join_result]
      exact hx.good h j hj
    · exact hx.good h j hj
  · have hnone : x.tracked.findNode e.1 = none := by simpa using hfound
    refine ⟨indexed_attachNew hx.indexed hnone _ _, fun h i hi => ?_, hx.errors⟩
    rw [find?_attachNew] at hi
    split_ifs at hi with hh
    · cases hi
      rw [askAgain_result]
      cases hold : x.tracked.subscriptions.find? (.of r.subId e.2.monitoredItemId) with
      | none => exact not_not.mp hstatus
      | some j => exact hx.good _ j hold
    · exact hx.good h i hi

theorem Judged.foldl (hx : Judged x) (r : MonitorHandle) (c : Call N L) (es : List (N × MonitoredItemCreateResult)) :
    Judged (es.foldl (Answering.answerNode r c) x) := by
  induction es generalizing x with
  | nil => exact hx
  | cons e es ih => exact ih (hx.answerNode r c e)

end Answering

namespace Monitoring

variable {s t : Monitoring N L} {e : MonitorEvent N L} {r : MonitorHandle} {l : L} {n : N}

structure Acks (s : Monitoring N L) : Prop where
  indexed : s.Indexed
  good : ∀ h, ∀ i ∈ s.subscriptions.find? h, i.result.statusCode = 0
  errors : ∀ r, ∀ errors ∈ s.errors.find? r, ∀ n, ∀ status ∈ errors.find? n, status ≠ 0
  requests : ∀ r, ∀ a ∈ s.awaits.find? r, s.requests.find? r = some a.nodes
  calls : ∀ r, ∀ c ∈ s.calls.find? r, r.monitorId ≤ s.requestId ∧ ∃ a ∈ s.awaits.find? r, a.listener = c.listener
  /-- A listener that a request attached, and that was not released since, has its ask recorded. -/
  attached : ∀ r, ∀ a ∈ s.awaits.find? r, ∀ n, s.bonds r n = .attached → (s.recorded a.listener n).isSome

/-- A step that registers no request, answers none and attaches no one. -/
theorem Acks.of_eq (h : s.Acks) (hindexed : t.Indexed)
    (hgood : ∀ h, ∀ i ∈ t.subscriptions.find? h, i.result.statusCode = 0) (herrors : t.errors = s.errors)
    (hrequests : t.requests = s.requests) (hawaits : t.awaits = s.awaits) (hid : t.requestId = s.requestId)
    (hcalls : ∀ r, ∀ c ∈ t.calls.find? r, ∃ c' ∈ s.calls.find? r, c'.listener = c.listener)
    (hattached : ∀ r, ∀ a ∈ s.awaits.find? r, ∀ n, t.bonds r n = .attached →
      s.bonds r n = .attached ∧ ((s.recorded a.listener n).isSome → (t.recorded a.listener n).isSome)) : t.Acks := by
  refine ⟨hindexed, hgood, by rw [herrors]; exact h.errors, by rw [hrequests, hawaits]; exact h.requests, ?_, ?_⟩
  · intro r c hc
    obtain ⟨c', hc', hlistener⟩ := hcalls r c hc
    rw [hid, hawaits, ← hlistener]
    exact h.calls r c' hc'
  · intro r a ha n hbond
    rw [hawaits] at ha
    obtain ⟨hbond, hrecorded⟩ := hattached r a ha n hbond
    exact hrecorded (h.attached r a ha n hbond)

theorem good_alterAll {t : Tracked N L} {g : N → Item N L → Item N L × Option (Change L)} (ht : t.Indexed)
    (hgood : ∀ h, ∀ i ∈ t.subscriptions.find? h, i.result.statusCode = 0) (hnode : ∀ n i, (g n i).1.node = i.node)
    (hresult : ∀ n i, (g n i).1.result = i.result) {ns : List N} (hns : ns.Nodup) :
    ∀ h, ∀ i ∈ (Tracked.alterAll g ns t).1.subscriptions.find? h, i.result.statusCode = 0 := by
  intro h i hi
  rw [ht.find?_alterAll hnode hns] at hi
  obtain ⟨j, hj, rfl⟩ := map_eq_some_iff.mp hi
  split
  · rw [hresult]
    exact hgood h j hj
  · exact hgood h j hj

variable {a : DataChange N L}

theorem release_eq_attached (l : L) (leaves : N → Bool) (ha : s.awaits.find? r = some a)
    (h : s.release l leaves r n = .attached) : s.bonds r n = .attached ∧ ¬ (a.listener = l ∧ leaves n = true) := by
  unfold release at h
  split_ifs at h with hreleased
  refine ⟨h, ?_⟩
  rintro ⟨hl, hleaves⟩
  exact hreleased ⟨h, hleaves, by simp [ha, hl]⟩

variable (h : s.Acks)
include h

theorem Acks.register (l : L) (nodes : OrdMap N Unit) : (s.register l nodes).Acks := by
  have hnode : ∀ n (i : Item N L), (i.join l (s.asks l n)).1.node = i.node := fun n i => i.join_node l _
  have hfresh : ∀ r, ∀ c ∈ s.calls.find? r, r ≠ s.nextRequest := by
    rintro r c hc rfl
    exact absurd (h.calls _ c hc).1 (Nat.not_succ_le_self s.requestId)
  refine ⟨h.indexed.alterAll hnode nodes.keys,
    good_alterAll h.indexed h.good hnode (fun n i => i.join_result l _) nodes.keys_nodup, h.errors, ?_, ?_, ?_⟩
  · intro r a ha
    simp only [Monitoring.register, post, find?_insert] at ha ⊢
    by_cases hr : r = s.nextRequest
    · rw [if_pos hr] at ha ⊢
      cases ha
      rfl
    · rw [if_neg hr] at ha ⊢
      exact h.requests r a ha
  · intro r c hc
    have hcalls : c ∈ s.calls.find? r ∨ r = s.nextRequest ∧ c.listener = l := by
      simp only [Monitoring.register, post] at hc
      split_ifs at hc
      · exact .inl hc
      · rw [find?_insert] at hc
        split_ifs at hc with hr
        · cases hc
          exact .inr ⟨hr, rfl⟩
        · exact .inl hc
    simp only [Monitoring.register, post, find?_insert]
    rcases hcalls with hold | ⟨rfl, hl⟩
    · obtain ⟨hid, a, ha, hlistener⟩ := h.calls r c hold
      exact ⟨hid.trans (Nat.le_succ _), a, by rw [if_neg (hfresh r c hold)]; exact ha, hlistener⟩
    · exact ⟨le_rfl, _, if_pos rfl, hl.symm⟩
  · intro r a ha n hbond
    rw [recorded_register]
    simp only [Monitoring.register, post, find?_insert] at ha hbond
    by_cases hr : r = s.nextRequest
    · rw [if_pos hr] at ha hbond
      cases ha
      split_ifs at hbond with hfound
      simp [hfound]
    · rw [if_neg hr] at ha hbond
      have hold := h.attached r a ha n hbond
      split
      · rfl
      · exact hold

theorem Acks.answerCall {c : Call N L} (hc : s.calls.find? r = some c)
    (results : List MonitoredItemCreateResult) : (s.answerCall r results c).Acks := by
  have hstart : Answering.Judged ({ tracked := s.toTracked } : Answering N L) :=
    ⟨h.indexed, h.good, nofun⟩
  have hjudged : Answering.Judged (s.answering r c results) := hstart.foldl r c _
  refine ⟨hjudged.indexed, hjudged.good, ?_, h.requests, ?_, ?_⟩
  · intro r' errors herrors
    simp only [Monitoring.answerCall, post] at herrors
    split_ifs at herrors with hempty
    · exact h.errors r' errors herrors
    · rw [find?_insert] at herrors
      split_ifs at herrors with hr
      · cases herrors
        exact hjudged.errors
      · exact h.errors r' errors herrors
  · intro r' c' hc'
    simp only [Monitoring.answerCall, post, find?_erase, mem_def, ite_none_left_eq_some] at hc'
    exact h.calls r' c' hc'.2
  · intro r' a ha n hbond
    rw [recorded_answerCall h.indexed]
    simp only [Monitoring.answerCall, post] at ha hbond
    split_ifs at hbond with hattached
    · obtain ⟨rfl, hn⟩ := hattached
      obtain ⟨-, a', ha', hlistener⟩ := h.calls r' c hc
      obtain rfl : a = a' := mem_unique ha ha'
      simp [hlistener, hn]
    · have hold := h.attached r' a ha n hbond
      split
      · rfl
      · exact hold

theorem Acks.resume (r : MonitorHandle) (status : StatusCode) : (s.resume r status).Acks := by
  have hawaits : ∀ r', ∀ a ∈ (s.resume r status).awaits.find? r', ∃ a' ∈ s.awaits.find? r',
      a'.listener = a.listener ∧ a'.nodes = a.nodes := by
    intro r' a ha
    simp only [Monitoring.resume, find?_modify] at ha
    split_ifs at ha with hr
    · obtain ⟨a', ha', rfl⟩ := map_eq_some_iff.mp ha
      exact ⟨a', ha', rfl, rfl⟩
    · exact ⟨a, ha, rfl, rfl⟩
  refine ⟨h.indexed, h.good, h.errors, ?_, ?_, ?_⟩
  · intro r' a ha
    obtain ⟨a', ha', -, hnodes⟩ := hawaits r' a ha
    rw [← hnodes]
    exact h.requests r' a' ha'
  · intro r' c hc
    obtain ⟨hid, a, ha, hlistener⟩ := h.calls r' c hc
    refine ⟨hid, ?_⟩
    simp only [Monitoring.resume, find?_modify]
    split_ifs with hr
    · exact ⟨_, mem_map_of_mem _ ha, hlistener⟩
    · exact ⟨a, ha, hlistener⟩
  · intro r' a ha n hbond
    obtain ⟨a', ha', hlistener, -⟩ := hawaits r' a ha
    rw [← hlistener]
    exact h.attached r' a' ha' n hbond

theorem Acks.getResult (r : MonitorHandle) : (s.getResult r).Acks := by
  refine ⟨h.indexed, h.good, ?_, ?_, ?_, ?_⟩
  · intro r' errors herrors
    simp only [Monitoring.getResult, find?_erase, mem_def, ite_none_left_eq_some] at herrors
    exact h.errors r' errors herrors.2
  · intro r' a ha
    simp only [Monitoring.getResult, find?_erase, mem_def, ite_none_left_eq_some] at ha ⊢
    exact ⟨ha.1, h.requests r' a ha.2⟩
  · intro r' c hc
    simp only [Monitoring.getResult, find?_erase, mem_def, ite_none_left_eq_some] at hc ⊢
    obtain ⟨hid, a, ha, hlistener⟩ := h.calls r' c hc.2
    exact ⟨hid, a, ⟨hc.1, ha⟩, hlistener⟩
  · intro r' a ha n hbond
    simp only [Monitoring.getResult, find?_erase, mem_def, ite_none_left_eq_some] at ha
    exact h.attached r' a ha.2 n hbond

theorem Acks.unsubscribe (l : L) (nodes : OrdMap N Unit) : (s.unsubscribe l nodes).Acks := by
  have hnode : ∀ (_ : N) (i : Item N L), (i.leave l).1.node = i.node := fun n i => i.leave_node l
  refine h.of_eq (h.indexed.alterAll hnode nodes.keys)
    (good_alterAll h.indexed h.good hnode (fun n i => i.leave_result l) nodes.keys_nodup) rfl rfl rfl rfl ?_ ?_
  · intro r c hc
    simp only [Monitoring.unsubscribe, post, find?_map] at hc
    obtain ⟨c', hc', rfl⟩ := map_eq_some_iff.mp hc
    refine ⟨c', hc', ?_⟩
    split <;> rfl
  · intro r a ha n hbond
    obtain ⟨hbond, hstays⟩ := release_eq_attached l nodes.contains ha hbond
    refine ⟨hbond, fun hrecorded => ?_⟩
    rw [recorded_unsubscribe, if_neg (by simpa using hstays)]
    exact hrecorded

theorem Acks.unsubscribeAll (l : L) : (s.unsubscribeAll l).Acks := by
  refine h.of_eq (h.indexed.leaveAll l) ?_ rfl rfl rfl rfl ?_ ?_
  · intro h' i hi
    simp only [Monitoring.unsubscribeAll, post, Tracked.leaveAll, find?_map] at hi
    obtain ⟨j, hj, rfl⟩ := map_eq_some_iff.mp hi
    rw [Item.leave_result]
    exact h.good h' j hj
  · intro r c hc
    simp only [Monitoring.unsubscribeAll, post, find?_map] at hc
    obtain ⟨c', hc', rfl⟩ := map_eq_some_iff.mp hc
    refine ⟨c', hc', ?_⟩
    split <;> rfl
  · intro r a ha n hbond
    obtain ⟨hbond, hstays⟩ := release_eq_attached l (fun _ => true) ha hbond
    refine ⟨hbond, fun hrecorded => ?_⟩
    rw [recorded_unsubscribeAll, if_neg (by simpa using hstays)]
    exact hrecorded

theorem Acks.parametersChanged (l : L) (nodes : OrdMap N Unit) : (s.parametersChanged l nodes).Acks := by
  have hnode : ∀ n (i : Item N L), (i.ask l (s.asks l n)).1.node = i.node := fun n i => i.ask_node l _
  refine h.of_eq (h.indexed.alterAll hnode nodes.keys)
    (good_alterAll h.indexed h.good hnode (fun n i => i.ask_result l _) nodes.keys_nodup) rfl rfl rfl rfl ?_ ?_
  · intro r c hc
    simp only [Monitoring.parametersChanged, post, find?_map] at hc
    obtain ⟨c', hc', rfl⟩ := map_eq_some_iff.mp hc
    refine ⟨c', hc', ?_⟩
    split <;> rfl
  · intro r a ha n hbond
    refine ⟨hbond, fun hrecorded => ?_⟩
    rw [recorded_parametersChanged]
    split
    · rwa [isSome_map]
    · exact hrecorded

omit h

theorem judgeNode_result (changes : OrdMap N (Change L)) (status : N → StatusCode) (n : N) (i : Item N L) :
    (judgeNode changes status n i).1.result = i.result := by
  unfold judgeNode
  cases changes.find? n with
  | none => rfl
  | some c => exact i.modified_result c _

theorem Acks.step (h : s.Acks) (hstep : s.step e = some t) : t.Acks := by
  have hsame : ∀ r, ∀ c ∈ s.calls.find? r, ∃ c' ∈ s.calls.find? r, c'.listener = c.listener :=
    fun r c hc => ⟨c, hc, rfl⟩
  cases e with
  | request l nodes =>
    cases hstep
    unfold monitoredItemsRequest
    split
    · exact h
    · exact h.register l nodes
  | answer r results =>
    obtain ⟨-, rfl⟩ := of_guard hstep
    apply Acks.resume
    unfold onCreateResponse
    cases hc : s.calls.find? r with
    | none => exact h
    | some c => exact h.answerCall hc results
  | fail r status =>
    obtain ⟨-, rfl⟩ := of_guard hstep
    exact h.resume r status
  | ack r =>
    obtain ⟨-, rfl⟩ := of_guard hstep
    exact h.getResult r
  | unsubscribe l nodes =>
    cases hstep
    exact h.unsubscribe l nodes
  | unsubscribeAll l =>
    cases hstep
    exact h.unsubscribeAll l
  | change l n p =>
    cases hstep
    exact h.of_eq h.indexed h.good rfl rfl rfl rfl hsame fun r a ha n hbond => ⟨hbond, id⟩
  | parametersChanged l nodes =>
    cases hstep
    exact h.parametersChanged l nodes
  | modified changes status =>
    obtain ⟨-, rfl⟩ := of_guard hstep
    refine h.of_eq (h.indexed.alterAll (judgeNode_node changes status) changes.keys)
      (good_alterAll h.indexed h.good (judgeNode_node changes status) (judgeNode_result changes status)
        changes.keys_nodup) rfl rfl rfl rfl hsame fun r a ha n hbond => ⟨hbond, ?_⟩
    rw [isSome_recorded_modifying]
    exact id
  | revised n samplingInterval queueSize =>
    cases hstep
    refine h.of_eq (h.indexed.alter (fun i => rfl) n) ?_ rfl rfl rfl rfl hsame fun r a ha m hbond => ⟨hbond, ?_⟩
    · intro h' i hi
      simp only [revise] at hi
      rw [h.indexed.find?_alter] at hi
      obtain ⟨j, hj, rfl⟩ := map_eq_some_iff.mp hi
      split <;> exact h.good h' j hj
    · rw [recorded_revise]
      exact id
  | take =>
    cases hstep
    refine h.of_eq (indexed_step h.indexed (e := .take) rfl) nofun rfl rfl rfl rfl
      nofun fun r a ha n hbond => ?_
    simp only [takeForResubscribe] at hbond
    split_ifs at hbond with hattached
    exact absurd hbond hattached
  | pass requested =>
    obtain ⟨-, rfl⟩ := of_guard hstep
    refine h.of_eq (indexed_foldl_retire h.indexed requested) ?_ rfl rfl rfl rfl hsame fun r a ha n hbond => ⟨hbond, ?_⟩
    · exact fun h' i hi => h.good h' i (find?_foldl_retire requested hi)
    · rw [recorded_deleteMonitoring h.indexed]
      exact id
  | subscribed id =>
    cases hstep
    exact h.of_eq h.indexed h.good rfl rfl rfl rfl hsame fun r a ha n hbond => ⟨hbond, fun hrecorded => hrecorded⟩

theorem acks_start (asks : L → N → MonitoringParameters) : ({ asks := asks } : Monitoring N L).Acks where
  indexed := indexed_start asks
  good _ i hi := absurd hi (not_mem_none i)
  errors _ errors herrors := absurd herrors (not_mem_none errors)
  requests _ a ha := absurd ha (not_mem_none a)
  calls _ c hc := absurd hc (not_mem_none c)
  attached _ a ha := absurd ha (not_mem_none a)

/-- No node that the request neither attached nor has an error for has an item its listener is not on. -/
def Unborrowed (s : Monitoring N L) (r : MonitorHandle) (a : DataChange N L) : Prop :=
  ∀ n ∈ a.nodes.keys, s.bonds r n = .none → s.error r n = none → (s.findNode n).isSome →
    (s.recorded a.listener n).isSome

instance (s : Monitoring N L) (r : MonitorHandle) (a : DataChange N L) : Decidable (s.Unborrowed r a) :=
  inferInstanceAs (Decidable (∀ n ∈ a.nodes.keys, s.bonds r n = .none → s.error r n = none → (s.findNode n).isSome →
    (s.recorded a.listener n).isSome))

/-- Every node acked Good has the listener on its item, or had it there by this request until it was unsubscribed
or taken. -/
def GoodAttached (s : Monitoring N L) (r : MonitorHandle) (a : DataChange N L) (sc : StatusCode) : Prop :=
  ∀ x ∈ s.results r sc, x.statusCode = 0 → (s.recorded a.listener x.node).isSome ∨ s.bonds r x.node = .released

theorem Acks.results (h : s.Acks) (ha : s.awaits.find? r = some a) (sc : StatusCode) :
    s.results r sc = a.nodes.keys.map (s.nodeResult r sc) := by
  rw [Monitoring.results, h.requests r a ha]
  rfl

theorem nodeResult_node (s : Monitoring N L) (r : MonitorHandle) (sc : StatusCode) (n : N) :
    (s.nodeResult r sc n).node = n := by
  unfold nodeResult
  cases s.error r n with
  | some status => rfl
  | none => cases s.findNode n <;> rfl

theorem Acks.statusCode_eq_zero (h : s.Acks) {sc : StatusCode} :
    (s.nodeResult r sc n).statusCode = 0 ↔ s.error r n = none ∧ (s.findNode n).isSome := by
  unfold nodeResult
  cases herror : s.error r n with
  | some status =>
    obtain ⟨errors, herrors, hstatus⟩ := bind_eq_some_iff.mp herror
    simpa using h.errors r errors herrors n status hstatus
  | none =>
    cases hfound : s.findNode n with
    | none =>
      simp only [elim_none, isSome_none, Bool.false_eq_true, and_false, iff_false]
      split_ifs with hsc htaken
      · exact hsc
      · decide
      · decide
    | some x => simpa using h.good x.1 x.2 (Tracked.findNode_eq_some.mp hfound).2.1

theorem Acks.goodAttached_iff (h : s.Acks) (ha : s.awaits.find? r = some a) (sc : StatusCode) :
    s.GoodAttached r a sc ↔ s.Unborrowed r a := by
  unfold GoodAttached
  rw [h.results ha]
  constructor
  · intro hgood n hn hbond herror hfound
    have hattached := hgood _ (List.mem_map_of_mem hn) (h.statusCode_eq_zero.mpr ⟨herror, hfound⟩)
    rw [nodeResult_node, hbond] at hattached
    exact hattached.resolve_right fun heq => Bond.noConfusion heq
  · intro hunborrowed x hx hstatus
    obtain ⟨n, hn, rfl⟩ := List.mem_map.mp hx
    obtain ⟨herror, hfound⟩ := h.statusCode_eq_zero.mp hstatus
    rw [nodeResult_node]
    cases hbond : s.bonds r n with
    | none => exact .inl (hunborrowed n hn hbond herror hfound)
    | attached => exact .inl (h.attached r a ha n hbond)
    | released => exact .inr rfl

/-- Over any run, an ack answers each node of its request once; its Good nodes are those its listener is, or was by
this request, attached to, exactly when none of them is another listener's item alone. -/
theorem good_ack_iff {asks : L → N → MonitoringParameters} {es : List (MonitorEvent N L)}
    (hrun : exec step { asks := asks } es = some s) {a : DataChange N L} (ha : s.awaits.find? r = some a)
    {sc : StatusCode} (_ : a.status = some sc) :
    (s.results r sc).map NodeResult.node = a.nodes.keys ∧ a.nodes.keys.Nodup ∧
      (s.GoodAttached r a sc ↔ s.Unborrowed r a) := by
  have hacks : s.Acks := exec_induction Acks.step (acks_start asks) hrun
  have hnode : NodeResult.node ∘ s.nodeResult r sc = id := funext (nodeResult_node s r sc)
  refine ⟨?_, a.nodes.keys_nodup, hacks.goodAttached_iff ha sc⟩
  rw [hacks.results ha, List.map_map, hnode, List.map_id]

/-- Two listeners create a node's item at once, and both are answered. -/
def createdTogether : List (MonitorEvent ℕ ℕ) :=
  [.subscribed 1, .request 0 (node 5), .request 1 (node 5), .answer (.of 1 2) [{ monitoredItemId := 7 }],
    .answer (.of 1 1) [{ monitoredItemId := 8 }]]

/-- Both are acked Good, on the one item there is. -/
theorem createdTogether_goodAttached : ∃ s a b, exec step { asks := fun _ _ => {} } createdTogether = some s ∧
    s.awaits.find? (.of 1 1) = some a ∧ s.GoodAttached (.of 1 1) a 0 ∧
    s.awaits.find? (.of 1 2) = some b ∧ s.GoodAttached (.of 1 2) b 0 := by
  have hrun : exec step { asks := fun _ _ => {} } createdTogether = some _ := rfl
  refine ⟨_, _, _, hrun, rfl, ((good_ack_iff hrun (r := .of 1 1) rfl rfl).2.2).mpr ?_, rfl,
    ((good_ack_iff hrun (r := .of 1 2) rfl rfl).2.2).mpr ?_⟩
  · decide +kernel
  · decide +kernel

/-- Two listeners create a node's item at once; the second is answered, and the first's create fails. -/
def failedBeside : List (MonitorEvent ℕ ℕ) :=
  [.subscribed 1, .request 0 (node 5), .request 1 (node 5), .answer (.of 1 2) [{ monitoredItemId := 7 }],
    .fail (.of 1 1) 0x80020000]

/-- The first listener is acked Good and is on no item. -/
theorem failedBeside_good : ((exec step { asks := fun _ _ => {} } failedBeside).map fun s : Monitoring ℕ ℕ =>
      ((s.results (.of 1 1) 0x80020000).map NodeResult.statusCode, s.recorded 0 5, s.bonds (.of 1 1) 5)) =
      some ([0], none, .none) := by
  decide +kernel

end Monitoring

end OpcHub.Gateway
