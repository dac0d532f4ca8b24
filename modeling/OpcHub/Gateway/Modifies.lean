import OpcHub.Lib.Runs
import OpcHub.Gateway.Item

/-! One item and the modifies of it, which go out and are answered in the order
they are posted. At rest the server holds what the item was last asked for, which
is the merge of its listeners' asks. A refused modify puts the asks it carried back
to what `Granted` has. In a run whose Good answers all find the asks they carried
still asked, that is what the server last granted. -/

namespace OpcHub.Gateway

open Lib List Option Item

variable {N L : Type*} [LinearOrder L]

/-- A modify out, and how often each listener had asked when it was posted. -/
structure Flight (L : Type*) [LinearOrder L] extends Change L where
  asked : L → ℕ

structure Modifies (N L : Type*) [LinearOrder L] where
  item : Item N L
  /-- Posted, and not yet with the server. -/
  posted : List (Flight L) := []
  /-- With the server's word, Good or refused, and not yet answered. -/
  taken : List (Flight L × Bool) := []
  /-- The parameters the server holds for the item. -/
  held : MonitoringParameters
  /-- How often each listener has asked. -/
  asked : L → ℕ := fun _ => 0
  /-- The ask the server last granted each listener: its create's, one a Good modify carried, or any that changed
  nothing with no modify out. -/
  accepted : L → Option MonitoringParameters

inductive ModifyEvent (L : Type*) where
  | join (listener : L) (parameters : MonitoringParameters)
  | leave (listener : L)
  /-- `ParametersChanged`, of a listener of the item. -/
  | ask (listener : L) (parameters : MonitoringParameters)
  /-- The server takes the first modify posted. -/
  | serve (good : Bool)
  | answer

namespace Modifies

/-- The item a create has just answered with. -/
def start (node : N) (result : MonitoredItemCreateResult) (l : L) (p : MonitoringParameters) : Modifies N L where
  item := .create node result l p
  held := p
  accepted := Function.update (fun _ => none) l (some p)

/-- The item after a join, a leave or an ask, with the modify it posts. -/
def settle (s : Modifies N L) (x : Item N L × Option (Change L)) : Modifies N L :=
  { s with
    item := x.1
    posted := s.posted ++ (x.2.map fun c => ⟨c, s.asked⟩).toList
    accepted := if x.2.isNone ∧ x.1.pending = 0 then x.1.listeners.find? else s.accepted }

def asks (s : Modifies N L) (l : L) : Modifies N L := { s with asked := Function.update s.asked l (s.asked l + 1) }

def serve (s : Modifies N L) (f : Flight L) (good : Bool) : Modifies N L :=
  { s with
    posted := s.posted.tail
    taken := s.taken ++ [(f, good)]
    held := if good then f.merged else s.held }

def answer (s : Modifies N L) (f : Flight L) (good : Bool) : Modifies N L :=
  { s with
    item := (s.item.modified f.toChange good).1
    taken := s.taken.tail
    accepted := fun l => if good ∧ s.item.listeners.contains l then f.asks.find? l <|> s.accepted l else s.accepted l }

def step (s : Modifies N L) : ModifyEvent L → Option (Modifies N L)
  | .join l p => some ((s.asks l).settle (s.item.join l p))
  | .leave l =>
    if s.item.listeners.contains l then
      some (settle { s with accepted := Function.update s.accepted l none } (s.item.leave l))
    else none
  | .ask l p => if s.item.listeners.contains l then some ((s.asks l).settle (s.item.ask l p)) else none
  | .serve good => s.posted.head?.map fun f => s.serve f good
  | .answer => s.taken.head?.map fun f => s.answer f.1 f.2

def flights (s : Modifies N L) : List (Flight L) := s.taken.map Prod.fst ++ s.posted

/-- What a listener asks and what it was granted. -/
def view (s : Modifies N L) (l : L) : Option MonitoringParameters × Option MonitoringParameters :=
  (s.item.listeners.find? l, s.item.granted.find? l)

/-- What holds of the modifies out, between the asks too. -/
structure Outstanding (s : Modifies N L) : Prop where
  pending : s.item.pending = s.posted.length + s.taken.length
  /-- What was asked last is still to be served, or held, unless a refusal is still to be answered. -/
  last : ∀ r ∈ s.item.requested, (s.posted.getLast?.map fun f => f.merged).getD s.held = r ∨
    s.posted = [] ∧ ∃ f ∈ s.taken, f.2 = false
  asked : ∀ f ∈ s.flights, ∀ l, f.asked l ≤ s.asked l
  carried : ∀ f ∈ s.flights, ∀ l, ∀ a ∈ f.asks.find? l, f.asked l = s.asked l → Item.Kept a (s.view l)

/-- And once an ask is merged. -/
structure Sound (s : Modifies N L) : Prop extends Outstanding s where
  merged : ∀ r ∈ s.item.requested, s.item.listeners.entries ≠ [] → (merge s.item.listeners).Same r

variable {s t : Modifies N L} {i : Item N L} {f : Flight L} {l : L} {e : ModifyEvent L}

theorem Outstanding.remerge (h : Outstanding s) : (s.settle s.item.remerge).Sound := by
  unfold Item.remerge
  by_cases hstands : s.item.Stands
  · rw [if_pos hstands]
    have hmerged : ∀ r ∈ s.item.requested, s.item.listeners.entries ≠ [] → (merge s.item.listeners).Same r := by
      obtain ⟨r, hr, hsame⟩ := hstands
      intro r' hr' _
      rwa [mem_unique hr' hr]
    by_cases hpending : s.item.pending = 0
    · rw [if_pos hpending]
      -- no modify is out, so none carries an ask
      have hlength := h.pending
      have hposted : s.posted = [] := eq_nil_of_length_eq_zero (by omega)
      have htaken : s.taken = [] := eq_nil_of_length_eq_zero (by omega)
      refine ⟨⟨by simpa [settle] using h.pending, by simpa [settle] using h.last, ?_, ?_⟩, hmerged⟩ <;>
        simp [settle, flights, hposted, htaken]
    · rw [if_neg hpending]
      refine ⟨⟨by simpa [settle] using h.pending, by simpa [settle] using h.last, ?_, ?_⟩, hmerged⟩
      · simpa [settle, flights] using h.asked
      · simpa [settle, flights, view] using h.carried
  · rw [if_neg hstands]
    have hflights : (s.settle ({ s.item with requested := some (merge s.item.listeners), pending := s.item.pending + 1 },
        some ⟨merge s.item.listeners, s.item.listeners⟩)).flights =
        s.flights ++ [⟨⟨merge s.item.listeners, s.item.listeners⟩, s.asked⟩] := by
      simp [settle, flights]
    refine ⟨⟨?_, ?_, ?_, ?_⟩, ?_⟩
    · have := h.pending
      simp only [settle, map_some, toList_some, length_append, length_singleton]
      omega
    · intro r hr
      left
      cases hr
      simp [settle]
    · rw [hflights]
      intro f hf
      rcases mem_append.mp hf with hf | hf
      · exact h.asked f hf
      · obtain rfl := mem_singleton.mp hf
        exact fun l => le_rfl
    · rw [hflights]
      intro f hf l a ha hasked
      rcases mem_append.mp hf with hf | hf
      · exact h.carried f hf l a ha hasked
      · obtain rfl := mem_singleton.mp hf
        intro current hcurrent
        left
        have heq : current = a := mem_unique hcurrent ha
        rw [heq]
        exact .refl a
    · intro r hr _
      cases hr
      exact .refl _

theorem Outstanding.asks (h : Outstanding s) (l : L) (p : MonitoringParameters) :
    Outstanding { s.asks l with item := { s.item with listeners := s.item.listeners.insert l p } } := by
  have hle : ∀ k, s.asked k ≤ (s.asks l).asked k := by
    intro k
    by_cases hk : k = l <;> simp [Modifies.asks, hk]
  refine ⟨h.pending, h.last, fun f hf k => (h.asked f hf k).trans (hle k), ?_⟩
  intro f hf k a ha hasked
  by_cases hk : k = l
  · -- no modify out was posted after this ask
    have := h.asked f hf k
    subst hk
    simp only [Modifies.asks, Function.update_self] at hasked
    omega
  · have hasked : f.asked k = s.asked k := by simpa [Modifies.asks, hk] using hasked
    simpa [Item.Kept, view, OrdMap.find?_insert_of_ne _ p hk] using h.carried f hf k a ha hasked

theorem Outstanding.leave (h : Outstanding s) (l : L) (accepted : L → Option MonitoringParameters) :
    Outstanding { s with
      accepted := accepted
      item := { s.item with listeners := s.item.listeners.erase l, granted := s.item.granted.erase l } } := by
  refine ⟨h.pending, h.last, h.asked, fun f hf k a ha hasked => ?_⟩
  by_cases hk : k = l
  · simp [Item.Kept, view, OrdMap.find?_erase, hk]
  · simpa [Item.Kept, view, OrdMap.find?_erase, hk] using h.carried f hf k a ha hasked

theorem Sound.join (h : s.Sound) (l : L) (p : MonitoringParameters) : ((s.asks l).settle (s.item.join l p)).Sound :=
  (h.toOutstanding.asks l p).remerge

theorem Sound.leave (h : s.Sound) (l : L) (hl : s.item.listeners.contains l = true)
    (accepted : L → Option MonitoringParameters) :
    (settle { s with accepted := accepted } (s.item.leave l)).Sound := by
  have hleft := h.toOutstanding.leave l accepted
  unfold Item.leave
  rw [if_pos hl]
  split
  · rename_i hempty
    refine ⟨⟨?_, ?_, ?_, ?_⟩, fun r _ hne => absurd hempty hne⟩
    · simpa [settle] using hleft.pending
    · simpa [settle] using hleft.last
    · simpa [settle, flights] using hleft.asked
    · simpa [settle, flights, view] using hleft.carried
  · exact hleft.remerge

theorem Sound.serve (h : s.Sound) (hf : s.posted.head? = some f) (good : Bool) : (s.serve f good).Sound := by
  obtain ⟨fs, hposted⟩ := head?_eq_some_iff.mp hf
  have hflights : (s.serve f good).flights = s.flights := by simp [Modifies.serve, flights, hposted]
  refine ⟨⟨?_, ?_, by rw [hflights]; exact h.asked, by rw [hflights]; exact h.carried⟩, h.merged⟩
  · have := h.pending
    simp only [Modifies.serve, hposted, length_cons, tail_cons, length_append, length_nil] at this ⊢
    omega
  · intro r hr
    have hlast := h.last r hr
    simp only [hposted, reduceCtorEq, false_and, or_false] at hlast
    cases fs with
    | nil =>
      cases good with
      | true => simpa [Modifies.serve, hposted] using .inl hlast
      | false => simp [Modifies.serve, hposted]
    | cons f' fs =>
      left
      simpa [Modifies.serve, hposted, getLast?_eq_some_getLast (cons_ne_nil f' fs)] using hlast

theorem view_answer (s : Modifies N L) (f : Flight L) (good : Bool) (l : L) :
    (s.answer f good).view l = (f.asks.find? l).elim (s.view l) fun a => judged good a (s.view l) :=
  find?_modified s.item f.toChange good l

theorem Sound.answer (h : s.Sound) {good : Bool} (hf : s.taken.head? = some (f, good)) : (s.answer f good).Sound := by
  obtain ⟨fs, htaken⟩ := head?_eq_some_iff.mp hf
  have hsub : ∀ f' ∈ (s.answer f good).flights, f' ∈ s.flights := by
    intro f' hf'
    simp only [Modifies.answer, flights, htaken, tail_cons, map_cons, cons_append,
      mem_cons] at hf' ⊢
    exact .inr hf'
  refine ⟨⟨?_, ?_, fun f' hf' => h.asked f' (hsub f' hf'), ?_⟩, ?_⟩
  · have := h.pending
    simp only [Modifies.answer, htaken, modified_pending, length_cons, tail_cons] at this ⊢
    omega
  · intro r hr
    cases good with
    | false => simp [Modifies.answer] at hr
    | true =>
      have hr : r ∈ s.item.requested := by simpa [Modifies.answer] using hr
      simpa [Modifies.answer, htaken] using h.last r hr
  · intro f' hf' k a ha hasked
    have hkept := h.carried f' (hsub f' hf') k a ha hasked
    rw [view_answer]
    cases hcarried : f.asks.find? k with
    | none => exact hkept
    | some b => exact hkept.judged good b
  · intro r hr
    cases good with
    | false => simp [Modifies.answer] at hr
    | true =>
      have hr : r ∈ s.item.requested := by simpa [Modifies.answer] using hr
      simpa [Modifies.answer, modified_good_listeners] using h.merged r hr

theorem sound_start (node : N) (result : MonitoredItemCreateResult) (l : L) (p : MonitoringParameters) :
    (start node result l p).Sound := by
  refine ⟨⟨rfl, ?_, by simp [start, flights], by simp [start, flights]⟩, ?_⟩
  · intro r hr
    left
    cases hr
    rfl
  · intro r hr _
    cases hr
    exact MonitoringParameters.same_iff_strictness.mpr (MonitoringParameters.strictness_plain p)

theorem Sound.step (h : s.Sound) (hstep : s.step e = some t) : t.Sound := by
  cases e with
  | join l p =>
    cases hstep
    exact h.join l p
  | leave l =>
    obtain ⟨hl, rfl⟩ := of_guard hstep
    exact h.leave l hl _
  | ask l p =>
    obtain ⟨hl, rfl⟩ := of_guard hstep
    rw [ask, if_pos hl]
    exact h.join l p
  | serve good =>
    obtain ⟨f, hf, rfl⟩ := map_eq_some_iff.mp hstep
    exact h.serve hf good
  | answer =>
    obtain ⟨f, hf, rfl⟩ := map_eq_some_iff.mp hstep
    exact h.answer hf

/-- With listeners, nothing out and nothing refused, the server holds what the item was asked for, which is the
merge of the asks. -/
def AtRest (s : Modifies N L) : Prop :=
  s.item.listeners.entries ≠ [] → s.item.pending = 0 →
    ∀ r ∈ s.item.requested, s.held = r ∧ (merge s.item.listeners).Same r

theorem Sound.atRest (h : s.Sound) : s.AtRest := by
  intro hlisteners hpending r hr
  have hlength := h.pending
  have hposted : s.posted = [] := eq_nil_of_length_eq_zero (by omega)
  have htaken : s.taken = [] := eq_nil_of_length_eq_zero (by omega)
  have hlast := h.last r hr
  simp only [hposted, htaken, getLast?_nil, map_none, getD_none, not_mem_nil, false_and,
    exists_false, and_false, or_false] at hlast
  exact ⟨hlast, h.merged r hr hlisteners⟩

/-- A modify carried the listener's ask, and the listener has not asked again. -/
def Carries (s : Modifies N L) (f : Flight L) (l : L) : Prop := (f.asks.find? l).isSome ∧ f.asked l = s.asked l

/-- After the answer each such listener stands at the ask the server last granted it, if there was one. -/
def PutBack (s : Modifies N L) (f : Flight L) (t : Modifies N L) : Prop :=
  ∀ l, s.Carries f l → ∀ left ∈ t.item.listeners.find? l, ∀ a ∈ s.accepted l, left.Same a

/-- A refusal leaves each listener it carried, and that has not asked again, at what is granted. -/
theorem Sound.refused (h : s.Sound) (hf : s.taken.head? = some (f, false)) (hl : s.Carries f l)
    {current : MonitoringParameters} (hcurrent : s.item.listeners.find? l = some current) :
    ∃ left, (s.answer f false).item.listeners.find? l = some left ∧
      left.Same ((s.item.granted.find? l).getD current) := by
  obtain ⟨a, ha⟩ := isSome_iff_exists.mp hl.1
  have hmem : f ∈ s.flights := by
    obtain ⟨fs, htaken⟩ := head?_eq_some_iff.mp hf
    simp [flights, htaken]
  have hkept := h.carried f hmem l a ha hl.2
  rw [view, hcurrent] at hkept
  have hview := congrArg Prod.fst (view_answer s f false l)
  rw [ha, elim_some, view, view, hcurrent] at hview
  obtain ⟨left, hleft, hsame⟩ := hkept.judged_refused
  exact ⟨left, hview.trans hleft, hsame⟩

/-- What `Granted` has for each listener is the ask the server last granted it. -/
structure Agrees (s : Modifies N L) : Prop where
  last : ∀ l, s.item.granted.find? l = s.accepted l
  listens : ∀ l, s.item.listeners.find? l = none → s.item.granted.find? l = none

/-- Each ask the modify carried is the one its listener asks now, or the one it has been granted. -/
def StillAsked (s : Modifies N L) (f : Flight L) : Prop :=
  ∀ e ∈ f.asks.entries, ∀ current ∈ s.item.listeners.find? e.1,
    current.Same e.2 ∨ s.item.granted.find? e.1 = some e.2

/-- The answers the condition is about are the Good ones. -/
def GoodStillAsked (s : Modifies N L) : ModifyEvent L → Prop
  | .answer => ∀ x ∈ s.taken.head?, x.2 = true → s.StillAsked x.1
  | _ => True

instance (s : Modifies N L) (f : Flight L) : Decidable (s.StillAsked f) :=
  inferInstanceAs (Decidable (∀ e ∈ f.asks.entries, ∀ current ∈ s.item.listeners.find? e.1,
    current.Same e.2 ∨ s.item.granted.find? e.1 = some e.2))

instance (s : Modifies N L) : (e : ModifyEvent L) → Decidable (s.GoodStillAsked e)
  | .answer => inferInstanceAs (Decidable (∀ x ∈ s.taken.head?, x.2 = true → s.StillAsked x.1))
  | .join _ _ | .leave _ | .ask _ _ | .serve _ => isTrue trivial

theorem Agrees.remerge (h : s.Agrees) : (s.settle s.item.remerge).Agrees := by
  unfold Item.remerge
  by_cases hstands : s.item.Stands
  · by_cases hpending : s.item.pending = 0
    · exact ⟨fun k => by simp [settle, hstands, hpending], fun k => by simp [settle, hstands, hpending]⟩
    · exact ⟨fun k => by simpa [settle, hstands, hpending] using h.last k,
        fun k => by simpa [settle, hstands, hpending] using h.listens k⟩
  · exact ⟨fun k => by simpa [settle, hstands] using h.last k, fun k => by simpa [settle, hstands] using h.listens k⟩

theorem Agrees.join (h : s.Agrees) (l : L) (p : MonitoringParameters) :
    ((s.asks l).settle (s.item.join l p)).Agrees := by
  have hasked : Agrees { s.asks l with item := { s.item with listeners := s.item.listeners.insert l p } } := by
    refine ⟨h.last, fun k hk => h.listens k ?_⟩
    rw [OrdMap.find?_insert] at hk
    split_ifs at hk
    exact hk
  exact hasked.remerge

theorem Agrees.leave (h : s.Agrees) (hl : s.item.listeners.contains l = true) :
    (settle { s with accepted := Function.update s.accepted l none } (s.item.leave l)).Agrees := by
  have hleft : Agrees { s with
      accepted := Function.update s.accepted l none
      item := { s.item with listeners := s.item.listeners.erase l, granted := s.item.granted.erase l } } := by
    refine ⟨fun k => ?_, fun k hk => ?_⟩ <;> by_cases hkl : k = l
    · simp [OrdMap.find?_erase, hkl]
    · simpa [OrdMap.find?_erase, hkl] using h.last k
    · simp [OrdMap.find?_erase, hkl]
    · simpa [OrdMap.find?_erase, hkl] using h.listens k (by simpa [OrdMap.find?_erase, hkl] using hk)
  unfold Item.leave
  rw [if_pos hl]
  split_ifs with hempty
  · -- nobody listens now, so nothing is granted either
    have hnone : ∀ k, (s.item.listeners.erase l).find? k = none := OrdMap.entries_eq_nil_iff.mp hempty
    refine ⟨fun k => ?_, hleft.listens⟩
    have hgranted := hleft.listens k (hnone k)
    by_cases hpending : s.item.pending = 0
    · simpa [settle, hpending, hnone k] using hgranted
    · simpa [settle, hpending] using hleft.last k
  · exact hleft.remerge

theorem listeners_answer_none (s : Modifies N L) (f : Flight L) (good : Bool) :
    (s.answer f good).item.listeners.find? l = none ↔ s.item.listeners.find? l = none := by
  have h := s.item.isSome_find?_modified f.toChange good l
  rw [← not_isSome_iff_eq_none, ← not_isSome_iff_eq_none]
  exact not_congr (h ▸ Iff.rfl)

/-- What an answer leaves granted to a listener, for the ask `a` its modify carried. -/
theorem granted_answer {a current : MonitoringParameters} (ha : f.asks.find? l = some a)
    (hcurrent : s.item.listeners.find? l = some current) (good : Bool) :
    (s.answer f good).item.granted.find? l =
      if good ∧ current.Same a then some a else s.item.granted.find? l := by
  have hview := congrArg Prod.snd (view_answer s f good l)
  rw [ha, elim_some, view, view, hcurrent] at hview
  refine hview.trans ?_
  unfold judged
  cases good with
  | true => by_cases hsame : current.Same a <;> simp [hsame]
  | false =>
    cases s.item.granted.find? l with
    | none => simp
    | some granted =>
      simp only [any_some, decide_eq_true_eq, Bool.false_eq_true, if_false, elim_some, false_and]
      split_ifs <;> rfl

/-- A listener that left, or whose ask was not carried, is granted what it was. -/
theorem granted_answer_of_none (h : f.asks.find? l = none ∨ s.item.listeners.find? l = none) (good : Bool) :
    (s.answer f good).item.granted.find? l = s.item.granted.find? l := by
  have hview := congrArg Prod.snd (view_answer s f good l)
  cases ha : f.asks.find? l with
  | none => simpa [ha, view] using hview
  | some a =>
    have hnone := h.resolve_left (by simp [ha])
    simpa [ha, view, hnone, judged] using hview

/-- A Good answer keeps what is granted the server's last grant exactly if each ask it carried is still asked. -/
theorem Agrees.answer_good_iff (h : s.Agrees) : (s.answer f true).Agrees ↔ s.StillAsked f := by
  constructor
  · rintro hanswer ⟨k, a⟩ ha current hcurrent
    have ha := OrdMap.mem_entries_iff.mp ha
    have hlast := hanswer.last k
    rw [granted_answer ha hcurrent true] at hlast
    by_cases hsame : current.Same a
    · exact .inl hsame
    · right
      simpa [Modifies.answer, OrdMap.contains, mem_def.mp hcurrent, ha, hsame] using hlast
  · intro hasked
    refine ⟨fun k => ?_, fun k hk => ?_⟩
    · cases ha : f.asks.find? k with
      | none =>
        rw [granted_answer_of_none (.inl ha)]
        simpa [Modifies.answer, ha] using h.last k
      | some a =>
        cases hcurrent : s.item.listeners.find? k with
        | none =>
          rw [granted_answer_of_none (.inr hcurrent)]
          simpa [Modifies.answer, OrdMap.contains, hcurrent] using h.last k
        | some current =>
          rw [granted_answer ha hcurrent true]
          rcases hasked (k, a) (OrdMap.mem_entries_iff.mpr ha) current hcurrent with hsame | hgranted
          · simp [Modifies.answer, OrdMap.contains, hcurrent, ha, hsame]
          · simp [Modifies.answer, OrdMap.contains, hcurrent, ha, hgranted]
    · have hnone := (listeners_answer_none s f true).mp hk
      exact (granted_answer_of_none (.inr hnone) true).trans (h.listens k hnone)

theorem Agrees.answer_refused (h : s.Agrees) : (s.answer f false).Agrees := by
  have hgranted : ∀ k, (s.answer f false).item.granted.find? k = s.item.granted.find? k := by
    intro k
    cases ha : f.asks.find? k with
    | none => exact granted_answer_of_none (.inl ha) false
    | some a =>
      cases hcurrent : s.item.listeners.find? k with
      | none => exact granted_answer_of_none (.inr hcurrent) false
      | some current => simp [granted_answer ha hcurrent false]
  refine ⟨fun k => (hgranted k).trans (by simpa [Modifies.answer] using h.last k), fun k hk => ?_⟩
  exact (hgranted k).trans (h.listens k ((listeners_answer_none s f false).mp hk))

theorem agrees_start (node : N) (result : MonitoredItemCreateResult) (l : L) (p : MonitoringParameters) :
    (start node result l p).Agrees := by
  refine ⟨fun k => ?_, fun k hk => hk⟩
  by_cases hk : k = l <;> simp [start, Item.create, OrdMap.find?_insert, hk]

theorem Agrees.step (h : s.Agrees) (he : s.GoodStillAsked e) (hstep : s.step e = some t) : t.Agrees := by
  cases e with
  | join l p =>
    cases hstep
    exact h.join l p
  | leave l =>
    obtain ⟨hl, rfl⟩ := of_guard hstep
    exact h.leave hl
  | ask l p =>
    obtain ⟨hl, rfl⟩ := of_guard hstep
    rw [ask, if_pos hl]
    exact h.join l p
  | serve good =>
    obtain ⟨f, _, rfl⟩ := map_eq_some_iff.mp hstep
    exact ⟨h.last, h.listens⟩
  | answer =>
    obtain ⟨⟨f, good⟩, hf, rfl⟩ := map_eq_some_iff.mp hstep
    cases good with
    | true => exact h.answer_good_iff.mpr (he (f, true) hf rfl)
    | false => exact h.answer_refused

/-- A refusal puts the asks back to the server's last grants where those are what is granted. -/
theorem Sound.putBack (h : s.Sound) (hagrees : s.Agrees) (hf : s.taken.head? = some (f, false)) :
    s.PutBack f (s.answer f false) := by
  intro l hl left hleft a ha
  cases hcurrent : s.item.listeners.find? l with
  | none =>
    rw [(listeners_answer_none s f false).mpr hcurrent] at hleft
    cases hleft
  | some current =>
    obtain ⟨left', hleft', hsame⟩ := h.refused hf hl hcurrent
    rw [hleft'] at hleft
    cases hleft
    rwa [hagrees.last l, mem_def.mp ha, getD_some] at hsame

/-- Over any run of joins, leaves, asks and answers on an item: at rest the server holds the merge of the asks; the
merge is the same in any order and serves each ask; if the Good answers of the run all found the asks they carried
still asked, a refusal puts each ask it carried back to what the server last granted; and a Good answer that does not
find them so is one that leaves `Granted` behind the server's last grant. -/
theorem at_rest_and_putBack {node : N} {result : MonitoredItemCreateResult} {p : MonitoringParameters}
    {es : List (ModifyEvent L)} (hrun : exec step (start node result l p) es = some s) :
    s.AtRest ∧
    (∀ listeners : OrdMap L MonitoringParameters,
      (∀ ps, ps.Perm listeners.values → MonitoringParameters.merge ps = merge listeners) ∧
      ∀ k, ∀ q ∈ listeners.find? k, (merge listeners).Serves q) ∧
    (Along step GoodStillAsked (start node result l p) es → s.Agrees ∧
      ∀ f t, s.taken.head? = some (f, false) → s.step .answer = some t → s.PutBack f t) ∧
    ∀ f t, s.Agrees → s.taken.head? = some (f, true) → s.step .answer = some t → (t.Agrees ↔ s.StillAsked f) := by
  have hsound : s.Sound := exec_induction Sound.step (sound_start node result l p) hrun
  have hanswer : ∀ f t, ∀ good : Bool, s.taken.head? = some (f, good) → s.step .answer = some t →
      t = s.answer f good := by
    intro f t good hf hstep
    obtain ⟨x, hx, rfl⟩ := map_eq_some_iff.mp hstep
    rw [hf] at hx
    cases hx
    rfl
  refine ⟨hsound.atRest, fun listeners => ⟨fun ps hperm => MonitoringParameters.merge_perm hperm, ?_⟩, ?_, ?_⟩
  · intro k q hq
    exact MonitoringParameters.merge_serves (OrdMap.mem_values.mpr ⟨k, hq⟩)
  · intro hgood
    have hagrees : s.Agrees := hgood.exec_induction Agrees.step (agrees_start node result l p) hrun
    refine ⟨hagrees, fun f t hf hstep => ?_⟩
    rw [hanswer f t false hf hstep]
    exact hsound.putBack hagrees hf
  · intro f t hagrees hf hstep
    rw [hanswer f t true hf hstep]
    exact hagrees.answer_good_iff

/-- An item with a deeper queue asked for. -/
def deeper (n : ℕ) : MonitoringParameters := { queueSize := n }

/-- A second ask is granted; a third is refused, with a listener that joined meanwhile. -/
def grantedOnce : List (ModifyEvent ℕ) :=
  [.ask 0 (deeper 2), .serve true, .answer, .ask 0 (deeper 3), .join 1 (deeper 5), .serve false, .serve true]

/-- The third ask is put back to the second. -/
theorem grantedOnce_putBack : ∃ s f t, exec step (start (L := ℕ) () {} 0 (deeper 1)) grantedOnce = some s ∧
    s.taken.head? = some (f, false) ∧ s.step .answer = some t ∧ s.PutBack f t ∧
    t.item.listeners.find? 0 = some (deeper 2) := by
  have hrun : exec step (start (L := ℕ) () {} 0 (deeper 1)) grantedOnce = some _ := rfl
  obtain ⟨_, _, hput, _⟩ := at_rest_and_putBack hrun
  exact ⟨_, _, _, hrun, rfl, rfl, (hput (by decide +kernel)).2 _ _ rfl rfl, by decide +kernel⟩

/-- A third ask goes out before the second is answered Good, and is refused. -/
def askedTwice : List (ModifyEvent ℕ) :=
  [.ask 0 (deeper 2), .ask 0 (deeper 3), .serve true, .serve false, .answer]

/-- The Good answer does not find the second ask still asked. The listener is put back to the ask of its create, and
the server granted its second and holds it. -/
theorem askedTwice_not_putBack :
    ¬ Along step GoodStillAsked (start (L := ℕ) () {} 0 (deeper 1)) askedTwice ∧
    ((exec step (start (L := ℕ) () {} 0 (deeper 1)) askedTwice).map fun s => (s.accepted 0, s.held)) =
      some (some (deeper 2), deeper 2) ∧
    ((exec step (start (L := ℕ) () {} 0 (deeper 1)) (askedTwice ++ [.answer])).map fun s =>
      (s.item.listeners.find? 0, s.item.pending)) = some (some (deeper 1), 0) := by
  decide +kernel

-- nor does a Good answer find an ask that an earlier refusal has put back
example : ¬ Along step GoodStillAsked (start (L := ℕ) () {} 0 (deeper 1))
    [.ask 0 (deeper 2), .join 1 (deeper 5), .serve false, .serve true, .answer, .answer] := by
  decide +kernel

end Modifies

end OpcHub.Gateway
