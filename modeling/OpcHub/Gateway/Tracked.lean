import Mathlib.Data.List.Induction
import Mathlib.Data.Prod.Lex
import OpcHub.Gateway.Item

/-! The items a client's monitored nodes track, by the server's handle, and the
index that finds a node's item. A lookup by node trusts the index only where the
item it names is the node's, so the index may be stale; an item is always found by
its own node. What each operation does is stated as what is found afterwards, and
from it what ask is recorded for a listener on a node. -/

namespace OpcHub.Gateway

open Lib OrdMap Option

/-- A subscription's id and, under it, an item's or a request's. -/
abbrev MonitorHandle := ℕ ×ₗ ℕ

def MonitorHandle.of (subId monitorId : ℕ) : MonitorHandle := toLex (subId, monitorId)

def MonitorHandle.subId (h : MonitorHandle) : ℕ := (ofLex h).1

def MonitorHandle.monitorId (h : MonitorHandle) : ℕ := (ofLex h).2

structure Tracked (N L : Type*) [LinearOrder N] [LinearOrder L] where
  subscriptions : OrdMap MonitorHandle (Item N L) := ∅
  byNode : OrdMap N MonitorHandle := ∅

variable {N L : Type*} [LinearOrder N] [LinearOrder L]

namespace Tracked

def findNode (t : Tracked N L) (n : N) : Option (MonitorHandle × Item N L) :=
  (t.byNode.find? n).bind fun h => (t.subscriptions.find? h).bind fun i => if i.node = n then some (h, i) else none

/-- The ask recorded for a listener on a node's item. -/
def recorded (t : Tracked N L) (l : L) (n : N) : Option MonitoringParameters :=
  (t.findNode n).bind fun x => x.2.listeners.find? l

/-- The item of a handle changed, with the modify that takes. -/
def alterAt (t : Tracked N L) (h : MonitorHandle) (f : Item N L → Item N L × Option (Change L)) :
    Tracked N L × Option (Change L) :=
  (t.subscriptions.find? h).elim (t, none) fun i =>
    ({ t with subscriptions := t.subscriptions.insert h (f i).1 }, (f i).2)

/-- The item of a node changed, if there is one. -/
def alter (t : Tracked N L) (n : N) (f : Item N L → Item N L × Option (Change L)) :
    Tracked N L × Option (Change L) :=
  (t.findNode n).elim (t, none) fun x => t.alterAt x.1 f

/-- A modify kept for its node, when there is one. -/
def keep (modify : OrdMap N (Change L)) (n : N) (c : Option (Change L)) : OrdMap N (Change L) :=
  c.elim modify (modify.emplace n)

/-- The items of several nodes changed, one after the other. -/
def alterAll (f : N → Item N L → Item N L × Option (Change L)) (ns : List N) (t : Tracked N L) :
    Tracked N L × OrdMap N (Change L) :=
  ns.foldl (fun x n => ((x.1.alter n (f n)).1, keep x.2 n (x.1.alter n (f n)).2)) (t, ∅)

/-- A listener leaves every item. -/
def leaveAll (t : Tracked N L) (l : L) : Tracked N L × OrdMap N (Change L) :=
  ({ t with subscriptions := t.subscriptions.map fun _ i => (i.leave l).1 },
    t.subscriptions.entries.foldl (fun modify e => keep modify e.2.node (e.2.leave l).2) ∅)

/-- A new item under its node; `emplace` leaves an item that has the handle. -/
def track (t : Tracked N L) (h : MonitorHandle) (i : Item N L) : Tracked N L where
  subscriptions := t.subscriptions.emplace h i
  byNode := t.byNode.insert i.node h

/-- An item without listeners goes. -/
def retire (t : Tracked N L) (h : MonitorHandle) : Tracked N L :=
  (t.subscriptions.find? h).elim t fun i =>
    if i.listeners.entries = [] then ⟨t.subscriptions.erase h, t.byNode.erase i.node⟩ else t

/-- Every item is found by its node. -/
def Indexed (t : Tracked N L) : Prop := ∀ h, ∀ i ∈ t.subscriptions.find? h, t.byNode.find? i.node = some h

variable {t : Tracked N L} {h h' : MonitorHandle} {i : Item N L} {n n' : N} {l : L}
  {f : Item N L → Item N L × Option (Change L)}

theorem findNode_eq_some : t.findNode n = some (h, i) ↔
    t.byNode.find? n = some h ∧ t.subscriptions.find? h = some i ∧ i.node = n := by
  simp only [findNode, bind_eq_some_iff, ite_none_right_eq_some, some.injEq, Prod.mk.injEq]
  constructor
  · rintro ⟨h', hby, i', hi, hnode, rfl, rfl⟩
    exact ⟨hby, hi, hnode⟩
  · rintro ⟨hby, hi, hnode⟩
    exact ⟨h, hby, i, hi, hnode, rfl, rfl⟩

theorem Indexed.findNode_iff (ht : t.Indexed) :
    t.findNode n = some (h, i) ↔ t.subscriptions.find? h = some i ∧ i.node = n := by
  rw [findNode_eq_some]
  constructor
  · exact fun hfound => hfound.2
  · rintro ⟨hi, rfl⟩
    exact ⟨ht h i hi, hi, rfl⟩

theorem Indexed.recorded_iff (ht : t.Indexed) {p : MonitoringParameters} : t.recorded l n = some p ↔
    ∃ h i, t.subscriptions.find? h = some i ∧ i.node = n ∧ i.listeners.find? l = some p := by
  rw [recorded, bind_eq_some_iff]
  constructor
  · rintro ⟨⟨h, i⟩, hfound, hlistens⟩
    obtain ⟨hi, hnode⟩ := ht.findNode_iff.mp hfound
    exact ⟨h, i, hi, hnode, hlistens⟩
  · rintro ⟨h, i, hi, hnode, hlistens⟩
    exact ⟨(h, i), ht.findNode_iff.mpr ⟨hi, hnode⟩, hlistens⟩

theorem Indexed.findNode_ext (ht : t.Indexed) {x : Option (MonitorHandle × Item N L)}
    (hx : ∀ h i, x = some (h, i) ↔ t.subscriptions.find? h = some i ∧ i.node = n) : t.findNode n = x := by
  apply Option.ext
  rintro ⟨h, i⟩
  rw [ht.findNode_iff, hx]

theorem Indexed.handle_unique (ht : t.Indexed) {i' : Item N L} (hi : t.subscriptions.find? h = some i)
    (hi' : t.subscriptions.find? h' = some i') (hnode : i.node = i'.node) : h = h' := by
  have hby := ht h i hi
  rw [hnode, ht h' i' hi'] at hby
  exact (some.inj hby).symm

section AlterAt

theorem alterAt_of_find (hi : t.subscriptions.find? h = some i) :
    t.alterAt h f = ({ t with subscriptions := t.subscriptions.insert h (f i).1 }, (f i).2) := by
  simp [alterAt, hi]

theorem alterAt_of_none (hi : t.subscriptions.find? h = none) : t.alterAt h f = (t, none) := by
  simp [alterAt, hi]

theorem find?_alterAt (t : Tracked N L) (h h' : MonitorHandle) (f : Item N L → Item N L × Option (Change L)) :
    (t.alterAt h f).1.subscriptions.find? h' =
      (t.subscriptions.find? h').map fun i => if h' = h then (f i).1 else i := by
  cases hi : t.subscriptions.find? h with
  | none =>
    rw [alterAt_of_none hi]
    by_cases hh : h' = h
    · rw [hh, hi]
      rfl
    · simp [hh]
  | some i =>
    rw [alterAt_of_find hi, find?_insert]
    by_cases hh : h' = h
    · simp [hh, hi]
    · simp [hh]

@[simp] theorem alterAt_byNode (t : Tracked N L) (h : MonitorHandle) (f : Item N L → Item N L × Option (Change L)) :
    (t.alterAt h f).1.byNode = t.byNode := by
  cases hi : t.subscriptions.find? h with
  | none => rw [alterAt_of_none hi]
  | some i => rw [alterAt_of_find hi]

theorem Indexed.alterAt (ht : t.Indexed) (hf : ∀ i, (f i).1.node = i.node) (h : MonitorHandle) :
    (t.alterAt h f).1.Indexed := by
  intro h' i hi
  rw [find?_alterAt] at hi
  obtain ⟨j, hj, rfl⟩ := map_eq_some_iff.mp hi
  rw [alterAt_byNode]
  split
  · rw [hf]
    exact ht h' j hj
  · exact ht h' j hj

theorem findNode_alterAt (hf : ∀ i, (f i).1.node = i.node) (h : MonitorHandle) (n : N) :
    (t.alterAt h f).1.findNode n = (t.findNode n).map fun x => (x.1, if x.1 = h then (f x.2).1 else x.2) := by
  unfold findNode
  rw [alterAt_byNode]
  cases t.byNode.find? n with
  | none => rfl
  | some h' =>
    simp only [bind_some, find?_alterAt]
    cases t.subscriptions.find? h' with
    | none => rfl
    | some i =>
      have hnode : (if h' = h then (f i).1 else i).node = i.node := by
        split
        · exact hf i
        · rfl
      simp only [map_some, bind_some, hnode]
      split <;> rfl

end AlterAt

section Alter

theorem Indexed.alter (ht : t.Indexed) (hf : ∀ i, (f i).1.node = i.node) (n : N) : (t.alter n f).1.Indexed := by
  unfold Tracked.alter
  cases t.findNode n with
  | none => exact ht
  | some x => exact ht.alterAt hf x.1

theorem findNode_alter (hf : ∀ i, (f i).1.node = i.node) (n n' : N) :
    (t.alter n f).1.findNode n' = if n' = n then (t.findNode n).map fun x => (x.1, (f x.2).1) else t.findNode n' := by
  unfold Tracked.alter
  cases hn : t.findNode n with
  | none =>
    split_ifs with hnode
    · rw [hnode]
      exact hn
    · rfl
  | some x =>
    obtain ⟨h, i⟩ := x
    simp only [elim_some, findNode_alterAt hf]
    obtain ⟨-, hi, hinode⟩ := findNode_eq_some.mp hn
    split_ifs with hnode
    · simp [hnode, hn]
    · cases hn' : t.findNode n' with
      | none => rfl
      | some x' =>
        obtain ⟨h', i'⟩ := x'
        obtain ⟨-, hi', hinode'⟩ := findNode_eq_some.mp hn'
        have hne : h' ≠ h := by
          rintro rfl
          rw [hi] at hi'
          cases hi'
          exact hnode (hinode'.symm.trans hinode)
        simp [hne]

theorem Indexed.find?_alter (ht : t.Indexed) (n : N) (h : MonitorHandle) : (t.alter n f).1.subscriptions.find? h =
      (t.subscriptions.find? h).map fun i => if i.node = n then (f i).1 else i := by
  unfold Tracked.alter
  cases hi : t.subscriptions.find? h with
  | none =>
    cases t.findNode n with
    | none => exact hi
    | some x =>
      simp only [elim_some, find?_alterAt, hi]
      rfl
  | some i =>
    by_cases hnode : i.node = n
    · rw [ht.findNode_iff.mpr ⟨hi, hnode⟩]
      simp [find?_alterAt, hi, hnode]
    · cases hn : t.findNode n with
      | none => simp [hi, hnode]
      | some x =>
        obtain ⟨-, hx, hxnode⟩ := findNode_eq_some.mp hn
        have hne : h ≠ x.1 := by
          rintro rfl
          rw [hi] at hx
          cases hx
          exact hnode hxnode
        simp [find?_alterAt, hi, hnode, hne]

theorem recorded_alter (hf : ∀ i, (f i).1.node = i.node) (l : L) (n n' : N) : (t.alter n f).1.recorded l n' =
      if n' = n then (t.findNode n).bind fun x => (f x.2).1.listeners.find? l else t.recorded l n' := by
  unfold recorded
  rw [findNode_alter hf]
  split_ifs
  · rw [bind_map]
    rfl
  · rfl

variable {g : N → Item N L → Item N L × Option (Change L)}

theorem alterAll_append (ns : List N) (n : N) : alterAll g (ns ++ [n]) t =
      (((alterAll g ns t).1.alter n (g n)).1, keep (alterAll g ns t).2 n ((alterAll g ns t).1.alter n (g n)).2) := by
  rw [alterAll, List.foldl_append]
  rfl

theorem Indexed.alterAll (ht : t.Indexed) (hg : ∀ n i, (g n i).1.node = i.node) (ns : List N) :
    (alterAll g ns t).1.Indexed := by
  induction ns using List.reverseRecOn with
  | nil => exact ht
  | append_singleton ns n ih =>
    rw [alterAll_append]
    exact ih.alter (hg n) n

variable {ns : List N}

theorem Indexed.find?_alterAll (ht : t.Indexed) (hg : ∀ n i, (g n i).1.node = i.node) (hns : ns.Nodup)
    (h : MonitorHandle) :
    (Tracked.alterAll g ns t).1.subscriptions.find? h =
      (t.subscriptions.find? h).map fun i => if i.node ∈ ns then (g i.node i).1 else i := by
  induction ns using List.reverseRecOn with
  | nil => simp [Tracked.alterAll]
  | append_singleton ns n ih =>
    obtain ⟨hinit, -, hdisjoint⟩ := List.nodup_append.mp hns
    have hn : n ∉ ns := fun hmem => hdisjoint n hmem n List.mem_cons_self rfl
    rw [alterAll_append, (ht.alterAll hg ns).find?_alter, ih hinit, map_map]
    congr 1
    funext i
    by_cases hi : i.node = n
    · subst hi
      simp [hn]
    · by_cases hmem : i.node ∈ ns <;> simp [hi, hmem, hg]

theorem findNode_alterAll (hg : ∀ n i, (g n i).1.node = i.node) (hns : ns.Nodup) (n : N) :
    (alterAll g ns t).1.findNode n =
      if n ∈ ns then (t.findNode n).map fun x => (x.1, (g n x.2).1) else t.findNode n := by
  induction ns using List.reverseRecOn with
  | nil => rfl
  | append_singleton ns n' ih =>
    obtain ⟨hinit, -, hdisjoint⟩ := List.nodup_append.mp hns
    have hn' : n' ∉ ns := fun hmem => hdisjoint n' hmem n' List.mem_cons_self rfl
    rw [alterAll_append, findNode_alter (hg n')]
    by_cases hn : n = n'
    · subst hn
      rw [if_pos rfl, if_pos (by simp), ih hinit, if_neg hn']
    · simpa [hn] using ih hinit

theorem recorded_alterAll (hg : ∀ n i, (g n i).1.node = i.node) (hns : ns.Nodup) (l : L) (n : N) :
    (alterAll g ns t).1.recorded l n =
      if n ∈ ns then (t.findNode n).bind fun x => (g n x.2).1.listeners.find? l else t.recorded l n := by
  unfold recorded
  rw [findNode_alterAll hg hns]
  split_ifs
  · rw [bind_map]
    rfl
  · rfl

theorem recorded_joinAll (t : Tracked N L) (nodes : OrdMap N Unit) (asks : N → MonitoringParameters) (l k : L) (n : N) :
    (alterAll (fun n i => i.join l (asks n)) nodes.keys t).1.recorded k n =
      if k = l ∧ nodes.contains n = true ∧ (t.findNode n).isSome then some (asks n) else t.recorded k n := by
  rw [recorded_alterAll (fun n i => i.join_node l (asks n)) nodes.keys_nodup]
  simp only [mem_keys_iff_contains]
  unfold recorded
  cases t.findNode n with
  | none => simp
  | some x =>
    by_cases hk : k = l
    · subst hk
      simp
    · simp [hk, find?_insert_of_ne]

theorem recorded_leaveNodes (t : Tracked N L) (nodes : OrdMap N Unit) (l k : L) (n : N) :
    (alterAll (fun _ i => i.leave l) nodes.keys t).1.recorded k n =
      if k = l ∧ nodes.contains n = true then none else t.recorded k n := by
  rw [recorded_alterAll (fun _ i => i.leave_node l) nodes.keys_nodup]
  simp only [mem_keys_iff_contains]
  unfold recorded
  cases t.findNode n with
  | none => simp
  | some x =>
    by_cases hk : k = l
    · subst hk
      simp [find?_erase]
    · simp [hk, find?_erase]

theorem recorded_askAll (t : Tracked N L) (nodes : OrdMap N Unit) (asks : N → MonitoringParameters) (l k : L) (n : N) :
    (alterAll (fun n i => i.ask l (asks n)) nodes.keys t).1.recorded k n =
      if k = l ∧ nodes.contains n = true then (t.recorded k n).map fun _ => asks n else t.recorded k n := by
  rw [recorded_alterAll (fun n i => i.ask_node l (asks n)) nodes.keys_nodup]
  simp only [mem_keys_iff_contains]
  unfold recorded
  cases t.findNode n with
  | none => simp
  | some x =>
    by_cases hk : k = l
    · subst hk
      simp [Item.find?_ask]
    · simp [hk, Item.find?_ask]

end Alter

section LeaveAll

theorem Indexed.leaveAll (ht : t.Indexed) (l : L) : (t.leaveAll l).1.Indexed := by
  intro h i hi
  simp only [Tracked.leaveAll, find?_map] at hi ⊢
  obtain ⟨j, hj, rfl⟩ := map_eq_some_iff.mp hi
  rw [Item.leave_node]
  exact ht h j hj

theorem findNode_leaveAll (t : Tracked N L) (l : L) (n : N) :
    (t.leaveAll l).1.findNode n = (t.findNode n).map fun x => (x.1, (x.2.leave l).1) := by
  unfold findNode
  simp only [Tracked.leaveAll, find?_map]
  cases t.byNode.find? n with
  | none => rfl
  | some h =>
    simp only [bind_some]
    cases t.subscriptions.find? h with
    | none => rfl
    | some i =>
      simp only [bind_some, map_some, Item.leave_node]
      split <;> rfl

theorem recorded_leaveAll (t : Tracked N L) (l k : L) (n : N) :
    (t.leaveAll l).1.recorded k n = if k = l then none else t.recorded k n := by
  unfold recorded
  rw [findNode_leaveAll, bind_map]
  cases t.findNode n with
  | none => simp
  | some x => simp [find?_erase]

end LeaveAll

section Track

theorem Indexed.track (ht : t.Indexed) (hi : t.findNode i.node = none) (h : MonitorHandle) : (t.track h i).Indexed := by
  intro h' j hj
  simp only [Tracked.track, find?_emplace] at hj ⊢
  by_cases hh : h' = h
  · subst hh
    rw [if_pos rfl] at hj
    cases hold : t.subscriptions.find? h' with
    | none =>
      rw [hold] at hj
      cases hj
      exact find?_insert_self _ _ _
    | some k =>
      rw [hold] at hj
      obtain rfl : k = j := some.inj hj
      by_cases hnode : k.node = i.node
      · rw [hnode]
        exact find?_insert_self _ _ _
      · rw [find?_insert_of_ne _ _ hnode]
        exact ht h' k hold
  · rw [if_neg hh] at hj
    have hne : j.node ≠ i.node := by
      intro hnode
      rw [ht.findNode_iff.mpr ⟨hj, hnode⟩] at hi
      cases hi
    rw [find?_insert_of_ne _ _ hne]
    exact ht h' j hj

/-- A new item is its node's; one whose handle another item has is nobody's. -/
theorem Indexed.findNode_track (ht : t.Indexed) (hi : t.findNode i.node = none) (h : MonitorHandle) (n : N) :
    (t.track h i).findNode n =
      if n = i.node ∧ t.subscriptions.find? h = none then some (h, i) else t.findNode n := by
  apply (ht.track hi h).findNode_ext
  intro h' j
  have hold : t.subscriptions.find? h' = some j → j.node ≠ i.node := by
    intro hj hnode
    rw [ht.findNode_iff.mpr ⟨hj, hnode⟩] at hi
    cases hi
  simp only [Tracked.track, find?_emplace]
  split_ifs with hnew hh hh
  · -- found by its node, at its handle
    subst hh
    rw [hnew.2, hnew.1]
    constructor
    · intro heq
      cases heq
      exact ⟨rfl, rfl⟩
    · rintro ⟨heq, -⟩
      cases heq
      rfl
  · constructor
    · intro heq
      cases heq
      exact absurd rfl hh
    · rintro ⟨hj, hnode⟩
      exact absurd (hnode.trans hnew.1) (hold hj)
  · subst hh
    rw [ht.findNode_iff]
    cases hsub : t.subscriptions.find? h' with
    | none =>
      constructor
      · rintro ⟨heq, -⟩
        cases heq
      · rintro ⟨heq, hnode⟩
        cases heq
        exact absurd ⟨hnode.symm, hsub⟩ hnew
    | some k => rfl
  · exact ht.findNode_iff

end Track

section Retire

theorem Indexed.retire (ht : t.Indexed) (h : MonitorHandle) : (t.retire h).Indexed := by
  unfold Tracked.retire
  cases hi : t.subscriptions.find? h with
  | none => exact ht
  | some i =>
    simp only [elim_some]
    split
    · intro h' j hj
      rw [find?_erase] at hj ⊢
      by_cases hh : h' = h
      · rw [if_pos hh] at hj
        cases hj
      · rw [if_neg hh] at hj
        have hne : j.node ≠ i.node := fun hnode => hh (ht.handle_unique hj hi hnode)
        rw [if_neg hne]
        exact ht h' j hj
    · exact ht

theorem find?_retire (t : Tracked N L) (h h' : MonitorHandle) : (t.retire h).subscriptions.find? h' =
      if h' = h ∧ ∃ i ∈ t.subscriptions.find? h, i.listeners.entries = [] then none
      else t.subscriptions.find? h' := by
  unfold Tracked.retire
  cases hi : t.subscriptions.find? h with
  | none => simp
  | some i =>
    simp only [elim_some, mem_def, some.injEq, exists_eq_left']
    split_ifs with hempty hh hh
    · rw [find?_erase, if_pos hh.1]
    · rw [find?_erase, if_neg fun heq => hh ⟨heq, hempty⟩]
    · exact absurd hh.2 hempty
    · rfl

/-- An item that goes has no listener, so no ask goes with it. -/
theorem Indexed.recorded_retire (ht : t.Indexed) (h : MonitorHandle) (l : L) (n : N) :
    (t.retire h).recorded l n = t.recorded l n := by
  apply Option.ext
  intro p
  rw [(ht.retire h).recorded_iff, ht.recorded_iff]
  refine exists_congr fun h' => exists_congr fun i => ?_
  rw [find?_retire]
  split_ifs with hgone
  · obtain ⟨rfl, j, hj, hempty⟩ := hgone
    constructor
    · rintro ⟨hnone, -⟩
      cases hnone
    · rintro ⟨hi, -, hlistens⟩
      rw [hj] at hi
      cases hi
      rw [← mem_entries_iff, hempty] at hlistens
      cases hlistens
  · rfl

end Retire

end Tracked

end OpcHub.Gateway
