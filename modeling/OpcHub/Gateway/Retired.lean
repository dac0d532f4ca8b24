import OpcHub.Gateway.Recorded

/-! Which items a client's monitored nodes track, and when they are given up. The
index names the items there are and no others; an item an answer reports is tracked
or handed to a delete; one without listeners is named by a pass still to run; and a
subscription goes only when nothing is on it. All of it rests on the server giving
each new item an id that no item it still has bears. -/

namespace OpcHub.Gateway

open Lib OrdMap Option Monitoring Tracked

variable {N L : Type*} [LinearOrder N] [LinearOrder L]

namespace Tracked

/-- The index names items of its nodes only. -/
def Unstale (t : Tracked N L) : Prop :=
  ∀ n, ∀ h ∈ t.byNode.find? n, ∃ i ∈ t.subscriptions.find? h, i.node = n

variable {t : Tracked N L} {h : MonitorHandle} {i : Item N L} {n : N}
  {f : Item N L → Item N L × Option (Change L)} {g : N → Item N L → Item N L × Option (Change L)}

variable (ht : t.Unstale)
include ht

theorem Unstale.alterAt (hf : ∀ i, (f i).1.node = i.node) (h : MonitorHandle) : (t.alterAt h f).1.Unstale := by
  intro n h' hby
  rw [alterAt_byNode] at hby
  obtain ⟨i, hi, hnode⟩ := ht n h' hby
  rw [find?_alterAt, mem_def.mp hi]
  refine ⟨_, rfl, ?_⟩
  split
  · rw [hf, hnode]
  · exact hnode

theorem Unstale.alter (hf : ∀ i, (f i).1.node = i.node) (n : N) : (t.alter n f).1.Unstale := by
  unfold Tracked.alter
  cases t.findNode n with
  | none => exact ht
  | some x => exact ht.alterAt hf x.1

theorem Unstale.alterAll (hg : ∀ n i, (g n i).1.node = i.node) (ns : List N) :
    (alterAll g ns t).1.Unstale := by
  induction ns using List.reverseRecOn with
  | nil => exact ht
  | append_singleton ns n ih =>
    rw [alterAll_append]
    exact ih.alter (hg n) n

theorem Unstale.leaveAll (l : L) : (t.leaveAll l).1.Unstale := by
  intro n h hby
  obtain ⟨i, hi, hnode⟩ := ht n h hby
  refine ⟨(i.leave l).1, ?_, by rw [Item.leave_node, hnode]⟩
  simp only [Tracked.leaveAll, find?_map, mem_def.mp hi]
  rfl

theorem Unstale.track (hh : t.subscriptions.find? h = none) (i : Item N L) : (t.track h i).Unstale := by
  intro n h' hby
  simp only [Tracked.track, find?_insert, find?_emplace] at hby ⊢
  split_ifs at hby with hn
  · cases hby
    rw [if_pos rfl, hh]
    exact ⟨i, rfl, hn.symm⟩
  · obtain ⟨j, hj, hnode⟩ := ht n h' hby
    have hne : h' ≠ h := by
      rintro rfl
      rw [hh] at hj
      cases hj
    rw [if_neg hne]
    exact ⟨j, hj, hnode⟩

theorem Unstale.retire (h : MonitorHandle) : (t.retire h).Unstale := by
  unfold Tracked.retire
  cases hi : t.subscriptions.find? h with
  | none => exact ht
  | some i =>
    simp only [elim_some]
    split
    · intro n h' hby
      rw [find?_erase, mem_def, ite_none_left_eq_some] at hby
      obtain ⟨j, hj, hnode⟩ := ht n h' hby.2
      have hne : h' ≠ h := by
        rintro rfl
        rw [hi] at hj
        cases hj
        exact hby.1 hnode.symm
      rw [find?_erase, if_neg hne]
      exact ⟨j, hj, hnode⟩
    · exact ht

end Tracked

theorem Monitoring.created_cons (r : MonitorHandle) (result : MonitoredItemCreateResult)
    (results : List MonitoredItemCreateResult) :
    created r (result :: results) =
      if result.statusCode = 0 then .of r.subId result.monitoredItemId :: created r results
      else created r results := by
  unfold created
  by_cases hgood : result.statusCode = 0 <;> simp [hgood]

namespace Answering

variable {t : Tracked N L} {c : Call N L} {x : Answering N L} {r : MonitorHandle}

/-- What an answer does to the items: it gives none up, and leaves none without listeners that had some. -/
structure Keeps (t : Tracked N L) (x : Answering N L) : Prop where
  indexed : x.tracked.Indexed
  unstale : x.tracked.Unstale
  tracked : ∀ h, (t.subscriptions.find? h).isSome → (x.tracked.subscriptions.find? h).isSome
  listened : ∀ h, ∀ i ∈ x.tracked.subscriptions.find? h, i.listeners.entries = [] →
    ∃ j ∈ t.subscriptions.find? h, j.listeners.entries = []

/-- The item of a result. -/
def handle (r : MonitorHandle) (e : N × MonitoredItemCreateResult) : MonitorHandle := .of r.subId e.2.monitoredItemId

theorem askAgain_listeners (c : Call N L) (i : Item N L) (h : (c.askAgain i).1.listeners.entries = []) :
    i.listeners.entries = [] := by
  unfold Call.askAgain at h
  cases hp : c.refreshed.find? i.node with
  | none =>
    rw [hp] at h
    exact h
  | some p =>
    rw [hp, elim_some, Item.join_listeners] at h
    exact absurd h (insert_entries_ne_nil _ _ _)

/-- Where one result puts its item: it is tracked or surplus, and nothing tracked or surplus is lost. -/
structure Places (r : MonitorHandle) (e : N × MonitoredItemCreateResult) (x y : Answering N L) : Prop where
  elsewhere : ∀ h, (e.2.statusCode = 0 → h ≠ handle r e) → x.tracked.subscriptions.find? h = none →
    y.tracked.subscriptions.find? h = none
  surplus : x.surplus ⊆ y.surplus
  tracked : ∀ h, (x.tracked.subscriptions.find? h).isSome → (y.tracked.subscriptions.find? h).isSome
  placed : e.2.statusCode = 0 → (y.tracked.subscriptions.find? (handle r e)).isSome ∨ handle r e ∈ y.surplus

theorem Keeps.answerNode (hx : Keeps t x) (c : Call N L) (e : N × MonitoredItemCreateResult)
    (hnew : e.2.statusCode = 0 → x.tracked.subscriptions.find? (handle r e) = none) :
    Keeps t (answerNode r c x e) ∧ Places r e x (answerNode r c x e) := by
  unfold Answering.answerNode
  split_ifs with hstatus hcancelled hfound
  · exact ⟨{ hx with }, fun h _ hnone => hnone, Finset.Subset.refl _,
      fun h hsome => hsome, fun hgood => absurd hgood hstatus⟩
  · exact ⟨{ hx with }, fun h _ hnone => hnone, Finset.subset_insert _ _,
      fun h hsome => hsome, fun _ => .inr (Finset.mem_insert_self _ _)⟩
  · -- joined: the items are where they were
    have hnode : ∀ i : Item N L, (i.join c.listener (c.ask e.1)).1.node = i.node := fun i => i.join_node _ _
    have hfind : ∀ h, (x.tracked.alter e.1 fun i => i.join c.listener (c.ask e.1)).1.subscriptions.find? h =
        (x.tracked.subscriptions.find? h).map fun i =>
          if i.node = e.1 then (i.join c.listener (c.ask e.1)).1 else i := hx.indexed.find?_alter e.1
    have htracked : ∀ h, ((x.tracked.alter e.1 fun i => i.join c.listener (c.ask e.1)).1.subscriptions.find? h).isSome =
        (x.tracked.subscriptions.find? h).isSome := fun h => by rw [hfind, isSome_map]
    refine ⟨⟨hx.indexed.alter hnode e.1, hx.unstale.alter hnode e.1, ?_, ?_⟩, ?_, Finset.subset_insert _ _,
      fun h hsome => (htracked h).trans hsome, fun _ => .inr (Finset.mem_insert_self _ _)⟩
    · exact fun h hsome => (htracked h).trans (hx.tracked h hsome)
    · intro h i hi hempty
      rw [hfind] at hi
      obtain ⟨j, hj, rfl⟩ := map_eq_some_iff.mp hi
      split_ifs at hempty
      · rw [Item.join_listeners] at hempty
        exact absurd hempty (insert_entries_ne_nil _ _ _)
      · exact hx.listened h j hj hempty
    · intro h _ hnone
      rw [hfind, hnone]
      rfl
  · -- a new item: its listener is on it
    have hnone : x.tracked.findNode e.1 = none := by simpa using hfound
    have hfresh := hnew (not_not.mp hstatus)
    have hfind : ∀ h, (attachNew x.tracked c (.of r.subId e.2.monitoredItemId) e.1 e.2).1.subscriptions.find? h =
        if h = handle r e then some (c.askAgain (.create e.1 e.2 c.listener (c.sent e.1))).1
        else x.tracked.subscriptions.find? h := by
      intro h
      rw [find?_attachNew, ← handle, hfresh]
      rfl
    have htracked : ∀ h, (x.tracked.subscriptions.find? h).isSome →
        ((attachNew x.tracked c (.of r.subId e.2.monitoredItemId) e.1 e.2).1.subscriptions.find? h).isSome := by
      intro h hsome
      rw [hfind]
      split
      · rfl
      · exact hsome
    refine ⟨⟨indexed_attachNew hx.indexed hnone _ _, (hx.unstale.track hfresh _).alterAt (askAgain_node c) _,
      fun h hsome => htracked h (hx.tracked h hsome), ?_⟩, ?_, Finset.Subset.refl _, htracked, fun _ => .inl ?_⟩
    · intro h i hi hempty
      rw [hfind] at hi
      split_ifs at hi
      · cases hi
        exact absurd (askAgain_listeners c _ hempty) (insert_entries_ne_nil _ _ _)
      · exact hx.listened h i hi hempty
    · intro h hne hold
      rw [hfind, if_neg (hne (not_not.mp hstatus)), hold]
    · rw [hfind, if_pos rfl]
      rfl

theorem Keeps.foldl (hx : Keeps t x) (c : Call N L) (es : List (N × MonitoredItemCreateResult))
    (hnodup : (created r (es.map Prod.snd)).Nodup)
    (hnew : ∀ h ∈ created r (es.map Prod.snd), x.tracked.subscriptions.find? h = none) :
    Keeps t (es.foldl (Answering.answerNode r c) x) ∧
    ∀ h, h ∈ x.surplus ∨ (x.tracked.subscriptions.find? h).isSome ∨ h ∈ created r (es.map Prod.snd) →
      ((es.foldl (Answering.answerNode r c) x).tracked.subscriptions.find? h).isSome ∨
        h ∈ (es.foldl (Answering.answerNode r c) x).surplus := by
  induction es generalizing x with
  | nil =>
    refine ⟨hx, ?_⟩
    rintro h (hsurplus | htracked | hcreated)
    · exact .inr hsurplus
    · exact .inl htracked
    · cases hcreated
  | cons e es ih =>
    rw [List.map_cons, created_cons] at hnodup hnew ⊢
    by_cases hgood : e.2.statusCode = 0
    · rw [if_pos hgood] at hnodup hnew ⊢
      obtain ⟨hne, hnodup⟩ := List.nodup_cons.mp hnodup
      obtain ⟨hkeeps, hplaces⟩ := hx.answerNode c e fun _ => hnew (handle r e) List.mem_cons_self
      obtain ⟨hkeeps', hplaced⟩ := ih hkeeps hnodup fun h hh =>
        hplaces.elsewhere h (fun _ heq => hne (by rwa [heq] at hh)) (hnew h (List.mem_cons_of_mem _ hh))
      refine ⟨hkeeps', fun h hh => hplaced h ?_⟩
      rcases hh with hsurplus | htracked | hcreated
      · exact .inl (hplaces.surplus hsurplus)
      · exact .inr (.inl (hplaces.tracked h htracked))
      · rcases List.mem_cons.mp hcreated with rfl | hcreated
        · exact (hplaces.placed hgood).symm.imp id .inl
        · exact .inr (.inr hcreated)
    · rw [if_neg hgood] at hnodup hnew ⊢
      obtain ⟨hkeeps, hplaces⟩ := hx.answerNode (r := r) c e fun hgood' => absurd hgood' hgood
      obtain ⟨hkeeps', hplaced⟩ := ih hkeeps hnodup fun h hh =>
        hplaces.elsewhere h (fun hgood' => absurd hgood' hgood) (hnew h hh)
      exact ⟨hkeeps', fun h hh => hplaced h (hh.imp (hplaces.surplus ·) (.imp (hplaces.tracked h) id))⟩

end Answering

namespace Monitoring

variable {s t : Monitoring N L} {e : MonitorEvent N L} {r : MonitorHandle} {l : L}

/-- The items an event reports. -/
def reports : MonitorEvent N L → List MonitorHandle
  | .answer r results => created r results
  | _ => []

/-- The ids of an answer's items are new: distinct, and none an item still tracked has. -/
def FreshIds (s : Monitoring N L) (e : MonitorEvent N L) : Prop :=
  (reports e).Nodup ∧ ∀ h ∈ reports e, s.subscriptions.find? h = none

instance (s : Monitoring N L) (e : MonitorEvent N L) : Decidable (s.FreshIds e) :=
  decidable_of_iff ((reports e).Nodup ∧ ∀ h ∈ reports e, (s.subscriptions.find? h).isNone)
    (by simp [FreshIds])

structure Tidy (s : Monitoring N L) : Prop where
  indexed : s.Indexed
  unstale : s.Unstale
  reported : ∀ h ∈ s.reported, (s.subscriptions.find? h).isSome ∨ h ∈ s.deleted
  named : ∀ h, ∀ i ∈ s.subscriptions.find? h, i.listeners.entries = [] → ∃ requested ∈ s.passes, h ∈ requested

/-- A step that reports no item, gives none up and runs no pass. -/
theorem Tidy.of_eq (h : s.Tidy) (hindexed : t.Indexed) (hunstale : t.Unstale) (hreported : t.reported = s.reported)
    (hdeleted : t.deleted = s.deleted) (hpasses : ∀ requested ∈ s.passes, requested ∈ t.passes)
    (htracked : ∀ h, (s.subscriptions.find? h).isSome → (t.subscriptions.find? h).isSome)
    (hlistened : ∀ h, ∀ i ∈ t.subscriptions.find? h, i.listeners.entries = [] →
      (∃ j ∈ s.subscriptions.find? h, j.listeners.entries = []) ∨ ∃ requested ∈ t.passes, h ∈ requested) : t.Tidy := by
  refine ⟨hindexed, hunstale, ?_, ?_⟩
  · rw [hreported, hdeleted]
    exact fun h' hh => (h.reported h' hh).imp_left (htracked h')
  · intro h' i hi hempty
    rcases hlistened h' i hi hempty with ⟨j, hj, hempty⟩ | hnamed
    · obtain ⟨requested, hmem, hh⟩ := h.named h' j hj hempty
      exact ⟨requested, hpasses requested hmem, hh⟩
    · exact hnamed

/-- A change of the nodes' items that takes no listener off. -/
theorem Tidy.alterAll (h : s.Tidy) {g : N → Item N L → Item N L × Option (Change L)}
    (hnode : ∀ n i, (g n i).1.node = i.node)
    (hlistened : ∀ n i, (g n i).1.listeners.entries = [] → i.listeners.entries = []) {ns : List N} (hns : ns.Nodup)
    (htracked : t.toTracked = (alterAll g ns s.toTracked).1) (hreported : t.reported = s.reported)
    (hdeleted : t.deleted = s.deleted) (hpasses : t.passes = s.passes) : t.Tidy := by
  have hfind : ∀ h, t.subscriptions.find? h =
      (s.subscriptions.find? h).map fun i => if i.node ∈ ns then (g i.node i).1 else i := by
    rw [htracked]
    exact h.indexed.find?_alterAll hnode hns
  refine h.of_eq ?_ ?_ hreported hdeleted (by simp [hpasses]) ?_ ?_
  · rw [htracked]
    exact h.indexed.alterAll hnode ns
  · rw [htracked]
    exact h.unstale.alterAll hnode ns
  · intro h' hsome
    rwa [hfind, isSome_map]
  · intro h' i hi hempty
    rw [hfind] at hi
    obtain ⟨j, hj, rfl⟩ := map_eq_some_iff.mp hi
    refine .inl ⟨j, hj, ?_⟩
    split_ifs at hempty
    · exact hlistened _ j hempty
    · exact hempty

theorem mem_arm {items requested : List MonitorHandle} (h : requested ∈ s.passes) : requested ∈ s.arm items := by
  unfold arm
  split
  · exact h
  · exact Multiset.mem_cons_of_mem h

theorem exists_arm {items : List MonitorHandle} {h : MonitorHandle} (hh : h ∈ items) :
    ∃ requested ∈ s.arm items, h ∈ requested := by
  unfold arm
  rw [if_neg (List.ne_nil_of_mem hh)]
  exact ⟨items, Multiset.mem_cons_self _ _, hh⟩

omit [LinearOrder N] in
theorem empties_of_leave {h : MonitorHandle} {i : Item N L} (hempty : (i.leave l).1.listeners.entries = []) :
    i.listeners.entries = [] ∨ empties l (h, i) = some h := by
  rw [Item.leave_listeners] at hempty
  by_cases hl : i.listeners.contains l = true
  · exact .inr (if_pos ⟨hl, hempty⟩)
  · rw [erase_eq_self (by simpa [contains] using hl)] at hempty
    exact .inl hempty

theorem Tidy.unsubscribe (h : s.Tidy) (l : L) (nodes : OrdMap N Unit) : (s.unsubscribe l nodes).Tidy := by
  have hnode : ∀ (_ : N) (i : Item N L), (i.leave l).1.node = i.node := fun n i => i.leave_node l
  have hfind := h.indexed.find?_alterAll hnode nodes.keys_nodup
  refine h.of_eq (h.indexed.alterAll hnode nodes.keys) (h.unstale.alterAll hnode nodes.keys) rfl rfl
    (fun requested hmem => mem_arm hmem) ?_ ?_
  · intro h' hsome
    simp only [Monitoring.unsubscribe, post, hfind, isSome_map]
    exact hsome
  · intro h' i hi hempty
    simp only [Monitoring.unsubscribe, post, hfind] at hi
    obtain ⟨j, hj, rfl⟩ := map_eq_some_iff.mp hi
    split_ifs at hempty with hmem
    · refine (empties_of_leave (h := h') hempty).imp (fun hold => ⟨j, hj, hold⟩) fun harmed => exists_arm ?_
      refine List.mem_filterMap.mpr ⟨j.node, hmem, ?_⟩
      rw [h.indexed.findNode_iff.mpr ⟨hj, rfl⟩]
      exact harmed
    · exact .inl ⟨j, hj, hempty⟩

theorem Tidy.unsubscribeAll (h : s.Tidy) (l : L) : (s.unsubscribeAll l).Tidy := by
  refine h.of_eq (h.indexed.leaveAll l) (h.unstale.leaveAll l) rfl rfl (fun requested hmem => mem_arm hmem) ?_ ?_
  · intro h' hsome
    simp only [Monitoring.unsubscribeAll, post, leaveAll, find?_map, isSome_map]
    exact hsome
  · intro h' i hi hempty
    simp only [Monitoring.unsubscribeAll, post, leaveAll, find?_map] at hi
    obtain ⟨j, hj, rfl⟩ := map_eq_some_iff.mp hi
    refine (empties_of_leave (h := h') hempty).imp (fun hold => ⟨j, hj, hold⟩) fun harmed => exists_arm ?_
    exact List.mem_filterMap.mpr ⟨(h', j), mem_entries_iff.mpr hj, harmed⟩

theorem Tidy.answerCall (h : s.Tidy) {c : Call N L} (results : List MonitoredItemCreateResult)
    (hlength : c.parameters.entries.length = results.length) (hfresh : s.FreshIds (.answer r results)) :
    (s.answerCall r results c).Tidy := by
  have hsnd : (c.parameters.keys.zip results).map Prod.snd = results :=
    List.map_snd_zip (by simp [keys, hlength])
  have hstart : Answering.Keeps s.toTracked { tracked := s.toTracked } :=
    ⟨h.indexed, h.unstale, fun h hsome => hsome, fun h i hi hempty => ⟨i, hi, hempty⟩⟩
  obtain ⟨hkeeps, hplaced⟩ := hstart.foldl (r := r) c (c.parameters.keys.zip results)
    (by rw [hsnd]; exact hfresh.1) (by rw [hsnd]; exact hfresh.2)
  rw [hsnd] at hplaced
  refine ⟨hkeeps.indexed, hkeeps.unstale, ?_, ?_⟩
  · intro h' hh
    simp only [Monitoring.answerCall, post, Finset.mem_union, List.mem_toFinset] at hh ⊢
    rcases hh with hh | hh
    · rcases h.reported h' hh with htracked | hdeleted
      · exact .inl (hkeeps.tracked h' htracked)
      · exact .inr (.inl hdeleted)
    · exact (hplaced h' (.inr (.inr hh))).imp id .inr
  · intro h' i hi hempty
    obtain ⟨j, hj, hempty⟩ := hkeeps.listened h' i hi hempty
    exact h.named h' j hj hempty

theorem judgeNode_listeners (changes : OrdMap N (Change L)) (status : N → StatusCode) (n : N) (i : Item N L)
    (h : (judgeNode changes status n i).1.listeners.entries = []) : i.listeners.entries = [] := by
  unfold judgeNode at h
  cases hc : changes.find? n with
  | none =>
    rw [hc] at h
    exact h
  | some c =>
    rw [hc] at h
    exact Item.modified_listeners h

theorem unstale_foldl_retire {t : Tracked N L} (ht : t.Unstale) (hs : List MonitorHandle) :
    (hs.foldl retire t).Unstale := by
  induction hs generalizing t with
  | nil => exact ht
  | cons h hs ih => exact ih (ht.retire h)

variable {hs : List MonitorHandle}

theorem gone_foldl_retire {t : Tracked N L} {h : MonitorHandle} {i : Item N L}
    (hi : t.subscriptions.find? h = some i) (hgone : (hs.foldl retire t).subscriptions.find? h = none) :
    h ∈ hs ∧ i.listeners.entries = [] := by
  induction hs generalizing t with
  | nil =>
    rw [List.foldl_nil, hi] at hgone
    cases hgone
  | cons h' hs ih =>
    by_cases hretired : h = h' ∧ i.listeners.entries = []
    · exact ⟨List.mem_cons.mpr (.inl hretired.1), hretired.2⟩
    · have hleft : (t.retire h').subscriptions.find? h = some i := by
        rw [find?_retire, if_neg, hi]
        rintro ⟨rfl, j, hj, hempty⟩
        rw [hi] at hj
        cases hj
        exact hretired ⟨rfl, hempty⟩
      exact (ih hleft hgone).imp_left (List.mem_cons_of_mem h')

theorem listened_foldl_retire {t : Tracked N L} {h : MonitorHandle} {i : Item N L}
    (hi : (hs.foldl retire t).subscriptions.find? h = some i) (hh : h ∈ hs) : i.listeners.entries ≠ [] := by
  induction hs generalizing t with
  | nil => cases hh
  | cons h' hs ih =>
    rcases List.mem_cons.mp hh with rfl | hh
    · have hleft := find?_foldl_retire hs hi
      rw [find?_retire, ite_none_left_eq_some] at hleft
      exact fun hempty => hleft.1 ⟨rfl, i, hleft.2, hempty⟩
    · exact ih hi hh

theorem Tidy.deleteMonitoring (h : s.Tidy) (requested : List MonitorHandle) : (s.deleteMonitoring requested).Tidy := by
  refine ⟨indexed_foldl_retire h.indexed requested, unstale_foldl_retire h.unstale requested, ?_, ?_⟩
  · intro h' hh
    simp only [Monitoring.deleteMonitoring, Finset.mem_union, List.mem_toFinset]
    rcases h.reported h' hh with htracked | hdeleted
    · obtain ⟨i, hi⟩ := isSome_iff_exists.mp htracked
      cases hleft : (requested.foldl retire s.toTracked).subscriptions.find? h' with
      | some j => exact .inl rfl
      | none =>
        obtain ⟨hmem, hempty⟩ := gone_foldl_retire hi hleft
        exact .inr (.inr (List.mem_filter.mpr ⟨hmem, by simp [hi, hempty]⟩))
    · exact .inr (.inl hdeleted)
  · intro h' i hi hempty
    obtain ⟨armed, hmem, hh⟩ := h.named h' i (find?_foldl_retire requested hi) hempty
    have hne : armed ≠ requested := by
      rintro rfl
      exact listened_foldl_retire hi hh hempty
    exact ⟨armed, (Multiset.mem_erase_of_ne hne).mpr hmem, hh⟩

theorem Tidy.step (h : s.Tidy) (hfresh : s.FreshIds e) (hstep : s.step e = some t) : t.Tidy := by
  cases e with
  | request l nodes =>
    cases hstep
    unfold monitoredItemsRequest
    split
    · exact h
    · exact h.alterAll (fun n i => i.join_node l (s.asks l n))
        (fun n i hempty => absurd (by rwa [Item.join_listeners] at hempty) (insert_entries_ne_nil _ _ _))
        nodes.keys_nodup rfl rfl rfl rfl
  | answer r results =>
    obtain ⟨⟨-, hmatches⟩, rfl⟩ := of_guard hstep
    have hanswered : (s.onCreateResponse r results).Tidy := by
      unfold onCreateResponse
      cases hc : s.calls.find? r with
      | none => exact h
      | some c => exact h.answerCall results (hmatches c hc) hfresh
    exact { hanswered with }
  | fail | ack =>
    obtain ⟨-, rfl⟩ := of_guard hstep
    exact { h with }
  | unsubscribe l nodes =>
    cases hstep
    exact h.unsubscribe l nodes
  | unsubscribeAll l =>
    cases hstep
    exact h.unsubscribeAll l
  | change | subscribed =>
    cases hstep
    exact { h with }
  | parametersChanged l nodes =>
    cases hstep
    exact h.alterAll (fun n i => i.ask_node l (s.asks l n)) (fun n i => Item.ask_listeners) nodes.keys_nodup
      rfl rfl rfl rfl
  | modified changes status =>
    obtain ⟨-, rfl⟩ := of_guard hstep
    exact h.alterAll (judgeNode_node changes status) (judgeNode_listeners changes status) changes.keys_nodup
      rfl rfl rfl rfl
  | revised n samplingInterval queueSize =>
    cases hstep
    exact h.alterAll (g := fun _ => reviseItem samplingInterval queueSize) (fun n i => rfl) (fun n i hempty => hempty)
      (List.nodup_singleton n) rfl rfl rfl rfl
  | take =>
    cases hstep
    refine ⟨nofun, nofun, ?_,
      nofun⟩
    exact fun h hh => absurd hh (Finset.notMem_empty h)
  | pass requested =>
    obtain ⟨-, rfl⟩ := of_guard hstep
    exact h.deleteMonitoring requested

/-- No item tracked and no request registered is on the subscription. -/
def Idle (s : Monitoring N L) (subId : ℕ) : Prop :=
  (∀ h, ∀ i ∈ s.subscriptions.find? h, h.subId ≠ subId) ∧ ∀ r, ∀ nodes ∈ s.requests.find? r, r.subId ≠ subId

end Monitoring

end OpcHub.Gateway
