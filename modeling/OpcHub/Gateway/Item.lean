import OpcHub.Lib.OrdMap
import OpcHub.Gateway.Parameters

/-! A node's item: its listeners with what each asks, what the item was last asked
for, what the server has granted each listener, and how many modifies are out. A
join, a leave or a new ask merges the asks again and posts a modify when the merge
changed; a modify's answer grants the asks it carried, or puts them back to what
was granted before. -/

namespace OpcHub.Gateway

open Lib OrdMap Option

/-- 0 is Good. -/
abbrev StatusCode := ℕ

structure MonitoredItemCreateResult where
  statusCode : StatusCode := 0
  monitoredItemId : ℕ := 0
  revisedSamplingInterval : ℚ := 0
  revisedQueueSize : ℕ := 0
  deriving DecidableEq

section Data

variable (N L : Type*) [LinearOrder L]

/-- A modify posted, and the asks it merged. -/
structure Change where
  merged : MonitoringParameters
  asks : OrdMap L MonitoringParameters
  deriving DecidableEq

/-- The source's `Subscription`. -/
structure Item where
  node : N
  result : MonitoredItemCreateResult
  listeners : OrdMap L MonitoringParameters
  /-- None once the server refused a modify. -/
  requested : Option MonitoringParameters
  granted : OrdMap L MonitoringParameters
  /-- The modifies posted and not yet answered. -/
  pending : ℕ := 0

/-- An ask the server refused, put back to the last one it granted. -/
structure AskReverted where
  refused : MonitoringParameters
  restored : MonitoringParameters
  deriving DecidableEq

end Data

variable {N L : Type*} [LinearOrder L]

def merge (listeners : OrdMap L MonitoringParameters) : MonitoringParameters := .merge listeners.values

namespace Item

variable {i j : Item N L} {l k : L} {p q : MonitoringParameters}

/-- The item a create answered with, asked for by its listener alone. -/
def create (node : N) (result : MonitoredItemCreateResult) (listener : L) (parameters : MonitoringParameters) :
    Item N L where
  node := node
  result := result
  listeners := (∅ : OrdMap L MonitoringParameters).insert listener parameters
  requested := some parameters
  granted := (∅ : OrdMap L MonitoringParameters).insert listener parameters

/-- The item was last asked for what its listeners' asks merge to. -/
def Stands (i : Item N L) : Prop := ∃ r ∈ i.requested, (merge i.listeners).Same r

instance (i : Item N L) : Decidable i.Stands :=
  inferInstanceAs (Decidable (∃ r ∈ i.requested, (merge i.listeners).Same r))

def remerge (i : Item N L) : Item N L × Option (Change L) :=
  if i.Stands then
    -- the server holds what it was last asked, which meets every ask
    (if i.pending = 0 then { i with granted := i.listeners } else i, none)
  else
    ({ i with requested := some (merge i.listeners), pending := i.pending + 1 }, some ⟨merge i.listeners, i.listeners⟩)

/-- A listener joins, or asks again by joining. -/
def join (i : Item N L) (l : L) (p : MonitoringParameters) : Item N L × Option (Change L) :=
  remerge { i with listeners := i.listeners.insert l p }

/-- A listener leaves; the last one leaves the item to a delete, with nothing to merge. -/
def leave (i : Item N L) (l : L) : Item N L × Option (Change L) :=
  if i.listeners.contains l then
    if (i.listeners.erase l).entries = [] then
      ({ i with listeners := i.listeners.erase l, granted := i.granted.erase l }, none)
    else remerge { i with listeners := i.listeners.erase l, granted := i.granted.erase l }
  else (i, none)

/-- A listener of the item asks again. -/
def ask (i : Item N L) (l : L) (p : MonitoringParameters) : Item N L × Option (Change L) :=
  if i.listeners.contains l then i.join l p else (i, none)

/-- One ask a modify carried, by the modify's answer: granted when Good, put back when not; nothing where the
listener left or asked again since. -/
def judge (good : Bool) (x : Item N L × OrdMap L AskReverted) (e : L × MonitoringParameters) :
    Item N L × OrdMap L AskReverted :=
  if (x.1.listeners.find? e.1).any fun current => current.Same e.2 then
    if good then ({ x.1 with granted := x.1.granted.insert e.1 e.2 }, x.2)
    else (x.1.granted.find? e.1).elim x fun granted =>
      if granted.Same e.2 then x
      else ({ x.1 with listeners := x.1.listeners.insert e.1 granted }, x.2.insert e.1 ⟨e.2, granted⟩)
  else x

/-- A modify's answer, and the listeners put back. -/
def modified (i : Item N L) (c : Change L) (good : Bool) : Item N L × OrdMap L AskReverted :=
  let judged := c.asks.entries.foldl (judge good) ({ i with pending := i.pending - 1 }, ∅)
  if good then judged else ({ judged.1 with requested := none }, judged.2)

section

variable (i : Item N L)

@[simp] theorem remerge_listeners : i.remerge.1.listeners = i.listeners := by
  unfold remerge
  split
  · split <;> rfl
  · rfl

@[simp] theorem remerge_node : i.remerge.1.node = i.node := by
  unfold remerge
  split
  · split <;> rfl
  · rfl

@[simp] theorem remerge_result : i.remerge.1.result = i.result := by
  unfold remerge
  split
  · split <;> rfl
  · rfl

@[simp] theorem join_listeners (l : L) (p : MonitoringParameters) :
    (i.join l p).1.listeners = i.listeners.insert l p := remerge_listeners _

@[simp] theorem leave_listeners (l : L) : (i.leave l).1.listeners = i.listeners.erase l := by
  unfold leave
  split_ifs with hmem hempty
  · rfl
  · exact remerge_listeners _
  · exact (erase_eq_self (by simpa [contains] using hmem)).symm

@[simp] theorem join_node (l : L) (p : MonitoringParameters) : (i.join l p).1.node = i.node :=
  remerge_node _

@[simp] theorem join_result (l : L) (p : MonitoringParameters) : (i.join l p).1.result = i.result :=
  remerge_result _

@[simp] theorem leave_node (l : L) : (i.leave l).1.node = i.node := by
  unfold leave
  split_ifs
  · rfl
  · exact remerge_node _
  · rfl

@[simp] theorem leave_result (l : L) : (i.leave l).1.result = i.result := by
  unfold leave
  split_ifs
  · rfl
  · exact remerge_result _
  · rfl

@[simp] theorem ask_node (l : L) (p : MonitoringParameters) : (i.ask l p).1.node = i.node := by
  unfold ask
  split
  · exact join_node i l p
  · rfl

@[simp] theorem ask_result (l : L) (p : MonitoringParameters) : (i.ask l p).1.result = i.result := by
  unfold ask
  split
  · exact join_result i l p
  · rfl

theorem find?_ask (l k : L) (p : MonitoringParameters) : (i.ask l p).1.listeners.find? k =
      if k = l then (i.listeners.find? l).map fun _ => p else i.listeners.find? k := by
  unfold ask
  split_ifs with hl hk hk
  · obtain ⟨q, hq⟩ := contains_iff.mp hl
    rw [join_listeners, hk, find?_insert_self, hq]
    rfl
  · rw [join_listeners, find?_insert_of_ne _ _ hk]
  · have hnone : i.listeners.find? l = none := by simpa [contains] using hl
    rw [hk, hnone]
    rfl
  · rfl

end

/-- What an answer leaves of a listener's ask and grant, for the ask `a` its modify carried. -/
def judged (good : Bool) (a : MonitoringParameters) (v : Option MonitoringParameters × Option MonitoringParameters) :
    Option MonitoringParameters × Option MonitoringParameters :=
  if v.1.any fun current => current.Same a then
    if good then (v.1, some a) else v.2.elim v fun granted => if granted.Same a then v else (some granted, v.2)
  else v

variable (good : Bool)

variable (x : Item N L × OrdMap L AskReverted)

theorem judge_self (l : L) (a : MonitoringParameters) :
    ((judge good x (l, a)).1.listeners.find? l, (judge good x (l, a)).1.granted.find? l) =
      judged good a (x.1.listeners.find? l, x.1.granted.find? l) := by
  unfold judge judged
  split_ifs
  · simp
  · cases hgranted : x.1.granted.find? l with
    | none => simp [hgranted]
    | some granted =>
      simp only [elim_some]
      split_ifs <;> simp [hgranted]
  · rfl

variable (a : MonitoringParameters)

theorem judge_of_ne (h : k ≠ l) :
    ((judge good x (k, a)).1.listeners.find? l, (judge good x (k, a)).1.granted.find? l) =
      (x.1.listeners.find? l, x.1.granted.find? l) := by
  unfold judge
  split_ifs
  · simp [find?_insert_of_ne _ _ h.symm]
  · cases x.1.granted.find? k with
    | none => rfl
    | some granted =>
      simp only [elim_some]
      split_ifs
      · rfl
      · simp [find?_insert_of_ne _ _ h.symm]
  · rfl

/-- An answer judges each ask its modify carried, and no other. -/
theorem find?_modified (i : Item N L) (c : Change L) (good : Bool) (l : L) :
    ((i.modified c good).1.listeners.find? l, (i.modified c good).1.granted.find? l) =
      (c.asks.find? l).elim (i.listeners.find? l, i.granted.find? l) fun a =>
        judged good a (i.listeners.find? l, i.granted.find? l) := by
  have hfold := foldl_entries_view
    (fun x : Item N L × OrdMap L AskReverted => (x.1.listeners.find? l, x.1.granted.find? l))
    (fun x a => judge_self good x l a) (fun x k a hk => judge_of_ne good x a hk) c.asks
    ({ i with pending := i.pending - 1 }, ∅)
  unfold modified
  split
  · exact hfold
  · exact hfold

theorem judged_good_fst (v : Option MonitoringParameters × Option MonitoringParameters) :
    (judged true a v).1 = v.1 := by
  unfold judged
  split_ifs <;> simp_all

/-- A listener that has not asked since `a`: it stands there, or was put back to what is granted. -/
def Kept (a : MonitoringParameters) (v : Option MonitoringParameters × Option MonitoringParameters) : Prop :=
  ∀ current ∈ v.1, current.Same a ∨ ∃ granted ∈ v.2, current.Same granted

theorem Kept.judged {b : MonitoringParameters} {v : Option MonitoringParameters × Option MonitoringParameters}
    (h : Kept b v) (good : Bool) (a : MonitoringParameters) : Kept b (judged good a v) := by
  unfold Item.judged
  split_ifs with hcurrent hgood
  · intro current hmem
    rw [mem_def.mp hmem, any_some, decide_eq_true_iff] at hcurrent
    exact .inr ⟨a, rfl, hcurrent⟩
  · obtain ⟨asked, granted⟩ := v
    cases granted with
    | none => exact h
    | some granted =>
      simp only [elim_some]
      split_ifs
      · exact h
      · intro current hmem
        cases hmem
        exact .inr ⟨_, rfl, .refl _⟩
  · exact h

/-- A refusal leaves such a listener at what is granted, and where nothing is, at its ask. -/
theorem Kept.judged_refused {a current : MonitoringParameters} {granted : Option MonitoringParameters}
    (h : Kept a (some current, granted)) :
    ∃ left, (Item.judged false a (some current, granted)).1 = some left ∧ left.Same (granted.getD current) := by
  unfold Item.judged
  by_cases hcurrent : current.Same a
  · cases granted with
    | none => simp [hcurrent, MonitoringParameters.Same.refl]
    | some granted =>
      by_cases hgranted : granted.Same a
      · simp [hcurrent, hgranted, hcurrent.trans hgranted.symm]
      · simp [hcurrent, hgranted, MonitoringParameters.Same.refl]
  · obtain ⟨granted, rfl, hsame⟩ := (h current rfl).resolve_left hcurrent
    simp [hcurrent, hsame]

theorem modified_good_listeners (i : Item N L) (c : Change L) : (i.modified c true).1.listeners = i.listeners := by
  apply ext_find
  intro l
  have h := congrArg Prod.fst (find?_modified i c true l)
  cases hcarried : c.asks.find? l with
  | none => simpa [hcarried] using h
  | some a => simpa [hcarried, judged_good_fst] using h

theorem judge_eq (e : L × MonitoringParameters) :
    ∃ listeners granted, (judge good x e).1 = { x.1 with listeners := listeners, granted := granted } := by
  unfold judge
  split_ifs
  · exact ⟨_, _, rfl⟩
  · cases x.1.granted.find? e.1 with
    | none => exact ⟨_, _, rfl⟩
    | some granted =>
      simp only [elim_some]
      split_ifs <;> exact ⟨_, _, rfl⟩
  · exact ⟨_, _, rfl⟩

theorem foldl_judge_eq (es : List (L × MonitoringParameters)) (x : Item N L × OrdMap L AskReverted) :
    ∃ listeners granted, (es.foldl (judge good) x).1 = { x.1 with listeners := listeners, granted := granted } := by
  induction es generalizing x with
  | nil => exact ⟨_, _, rfl⟩
  | cons e es ih =>
    obtain ⟨_, _, hjudge⟩ := judge_eq good x e
    obtain ⟨_, _, hfold⟩ := ih (judge good x e)
    exact ⟨_, _, hfold.trans (by rw [hjudge])⟩

theorem modified_eq (i : Item N L) (c : Change L) (good : Bool) : ∃ listeners granted, (i.modified c good).1 =
      { i with
        listeners := listeners
        granted := granted
        pending := i.pending - 1
        requested := if good then i.requested else none } := by
  obtain ⟨listeners, granted, hfold⟩ := foldl_judge_eq good c.asks.entries ({ i with pending := i.pending - 1 }, ∅)
  refine ⟨listeners, granted, ?_⟩
  unfold modified
  cases good with
  | true => simpa using hfold
  | false => simp [hfold]

theorem judged_isSome
    (v : Option MonitoringParameters × Option MonitoringParameters) : (judged good a v).1.isSome = v.1.isSome := by
  obtain ⟨current, granted⟩ := v
  cases current with
  | none => rfl
  | some current =>
    unfold judged
    cases granted with
    | none => split_ifs <;> rfl
    | some granted =>
      simp only [elim_some]
      split_ifs <;> rfl

theorem isSome_find?_modified (i : Item N L) (c : Change L) (good : Bool) (l : L) :
    ((i.modified c good).1.listeners.find? l).isSome = (i.listeners.find? l).isSome := by
  have h := congrArg Prod.fst (find?_modified i c good l)
  cases hcarried : c.asks.find? l with
  | none =>
    rw [hcarried] at h
    exact congrArg isSome h
  | some a =>
    rw [hcarried] at h
    exact (congrArg isSome h).trans (judged_isSome good a _)

@[simp] theorem modified_pending (i : Item N L) (c : Change L) (good : Bool) :
    (i.modified c good).1.pending = i.pending - 1 := by
  obtain ⟨_, _, h⟩ := modified_eq i c good
  rw [h]

@[simp] theorem modified_requested (i : Item N L) (c : Change L) (good : Bool) :
    (i.modified c good).1.requested = if good then i.requested else none := by
  obtain ⟨_, _, h⟩ := modified_eq i c good
  rw [h]

@[simp] theorem modified_node (i : Item N L) (c : Change L) (good : Bool) : (i.modified c good).1.node = i.node := by
  obtain ⟨_, _, h⟩ := modified_eq i c good
  rw [h]

@[simp] theorem modified_result (i : Item N L) (c : Change L) (good : Bool) :
    (i.modified c good).1.result = i.result := by
  obtain ⟨_, _, h⟩ := modified_eq i c good
  rw [h]

theorem ask_listeners {i : Item N L} {l : L} {p : MonitoringParameters}
    (h : (i.ask l p).1.listeners.entries = []) : i.listeners.entries = [] := by
  unfold ask at h
  split_ifs at h
  · rw [join_listeners] at h
    exact absurd h (insert_entries_ne_nil _ _ _)
  · exact h

theorem modified_listeners {i : Item N L} {c : Change L} {good : Bool}
    (h : (i.modified c good).1.listeners.entries = []) : i.listeners.entries = [] := by
  rw [entries_eq_nil_iff] at h ⊢
  intro l
  have hsome := i.isSome_find?_modified c good l
  rw [h l] at hsome
  exact not_isSome_iff_eq_none.mp (by simp [← hsome])

end Item

end OpcHub.Gateway
