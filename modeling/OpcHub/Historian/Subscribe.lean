import OpcHub.Historian.Visible

/-! A subscription's snapshot and its stream meet. A value streams when it is
stored, a heartbeat when a flush first takes it and a modification when its day is
committed, each to the subscribers registered under the same lock; the snapshot is
taken with the registration. What a subscriber is passed is therefore what joined
the group's history while it was registered, and its snapshot is what the history
was before. -/

namespace OpcHub.Historian

open Lib List DataValue Historian.Group Buffered Function

variable {V Id : Type*}

/-- The actions that stream, or that a subscription begins or ends with. -/
def Action.streams : Action V Id → Bool
  | .perform _ | .deliver _ | .take _ | .edit _ _ | .subscribe _ _ | .unsubscribe _ => true
  | _ => false

/-- What streams of a part of a group's history: its values but heartbeats, the heartbeats a flush
released, and the modifications. -/
def streamOf (stored released : List (DataValue V)) (modified : List (Modification V)) : List (Streamed V) :=
  (stored.filter fun v => v.heartbeat.isNone).map .value ++ released.map .value ++ modified.map .modification

theorem streamOf_append_perm (stored stored' released released' : List (DataValue V))
    (modified modified' : List (Modification V)) :
    (streamOf (stored ++ stored') (released ++ released') (modified ++ modified')).Perm
      (streamOf stored released modified ++ streamOf stored' released' modified') := by
  classical
  refine perm_iff_count.mpr fun x => ?_
  simp only [streamOf, filter_append, map_append, count_append]
  omega

/-- A subscription as the group's registrations leave it: one no longer among them has ended. -/
def Subscribed.endAt (registered : List Registration) (now : Marks) (sub : Subscribed V Id) : Subscribed V Id :=
  if sub.ended.isNone && registered.all (fun r => r.id != sub.registration.id) then { sub with ended := some now }
  else sub

theorem Subscribed.endAt_fields (registered : List Registration) (now : Marks) (sub : Subscribed V Id) :
    (sub.endAt registered now).registration = sub.registration ∧ (sub.endAt registered now).ledger = sub.ledger ∧
      (sub.endAt registered now).modified = sub.modified ∧
      (sub.endAt registered now).ended.getD now = sub.ended.getD now := by
  simp only [endAt]
  split_ifs with hgone
  · refine ⟨rfl, rfl, rfl, ?_⟩
    rw [Bool.and_eq_true, Option.isNone_iff_eq_none] at hgone
    rw [hgone.1]
    rfl
  · exact ⟨rfl, rfl, rfl, rfl⟩

namespace System

/-- What a subscriber was passed, or is on its way to it. -/
def passed (s : System V Id) (id : ℕ) : List (Streamed V) :=
  ((s.delivered ++ s.posted.flatMap Post.deliveries).filter fun d => d.1 == id).map Prod.snd

/-- What joined the group's history since a subscription began, until it ended. -/
def since (s : System V Id) (sub : Subscribed V Id) : List (Streamed V) :=
  let upTo := sub.ended.getD s.marks
  streamOf ((s.group.ledger.stored.take upTo.stored).drop sub.ledger.stored.length)
    ((s.group.ledger.released.take upTo.released).drop sub.ledger.released.length)
    ((s.modified.take upTo.modified).drop sub.modified.length)

/-- How subscriptions stand to the group: each was passed what joined the history while it lasted. -/
structure Streaming (s : System V Id) : Prop where
  nodup : (s.subscriptions.map fun sub => sub.registration.id).Nodup
  active : s.group.subscribers =
    (s.subscriptions.filter fun sub => sub.ended.isNone).map Subscribed.registration
  known : ∀ d ∈ s.delivered ++ s.posted.flatMap Post.deliveries,
    d.1 ∈ s.subscriptions.map fun sub => sub.registration.id
  began : ∀ sub ∈ s.subscriptions, sub.ledger.stored <+: s.group.ledger.stored ∧
    sub.ledger.released <+: s.group.ledger.released ∧ sub.modified <+: s.modified
  ended : ∀ sub ∈ s.subscriptions, ∀ m ∈ sub.ended, m.stored ≤ s.marks.stored ∧
    m.released ≤ s.marks.released ∧ m.modified ≤ s.marks.modified
  passed : ∀ sub ∈ s.subscriptions,
    (s.passed sub.registration.id).Perm ((s.since sub).filterMap (Streamed.named sub.registration))

variable {s s' : System V Id}

/-- What the streams are made of: the subscriptions and who is registered, what was passed or is on its way, and the
history. -/
structure Feed (V Id : Type*) where
  subscriptions : List (Subscribed V Id)
  subscribers : List Registration
  sent : List (ℕ × Streamed V)
  stored : List (DataValue V)
  released : List (DataValue V)
  modified : List (Modification V)

def feed (s : System V Id) : Feed V Id :=
  ⟨s.subscriptions, s.group.subscribers, s.delivered ++ s.posted.flatMap Post.deliveries, s.group.ledger.stored,
    s.group.ledger.released, s.modified⟩

theorem Streaming.of_feed_eq (h : s.Streaming) (hfeed : s'.feed = s.feed) : s'.Streaming := by
  obtain ⟨hnodup, hactive, hknown, hbegan, hended, hpassed⟩ := h
  obtain ⟨hsubscriptions, hsubscribers, hsent, hstored, hreleased, hmodified⟩ := Feed.mk.inj hfeed
  constructor
  · rwa [hsubscriptions]
  · rwa [hsubscriptions, hsubscribers]
  · rwa [hsubscriptions, hsent]
  · rwa [hsubscriptions, hstored, hreleased, hmodified]
  · rwa [hsubscriptions, marks, hstored, hreleased, hmodified]
  · simpa only [hsubscriptions, System.passed, since, marks, hsent, hstored, hreleased, hmodified] using hpassed

theorem post_deliveries (recipients : List Registration) (records : List (Streamed V)) :
    (post recipients records).flatMap Post.deliveries = (⟨recipients, records⟩ : Post V).deliveries := by
  cases records with
  | nil => simp [post, Post.deliveries]
  | cons x l => simp [post]

variable {recipients : List Registration}

theorem deliveries_to_other {id : ℕ} (h : ∀ r ∈ recipients, r.id ≠ id)
    (records : List (Streamed V)) :
    ((⟨recipients, records⟩ : Post V).deliveries.filter fun d => d.1 == id) = [] := by
  refine filter_eq_nil_iff.mpr fun d hd => ?_
  obtain ⟨r, hr, hd⟩ := mem_flatMap.mp hd
  obtain ⟨x, -, rfl⟩ := mem_map.mp hd
  simpa using h r hr

theorem deliveries_to (hnodup : (recipients.map Registration.id).Nodup)
    {r : Registration} (hr : r ∈ recipients) (records : List (Streamed V)) :
    ((⟨recipients, records⟩ : Post V).deliveries.filter fun d => d.1 == r.id).map Prod.snd =
      records.filterMap (Streamed.named r) := by
  obtain ⟨before, after, rfl⟩ := append_of_mem hr
  rw [map_append, map_cons, nodup_middle, nodup_cons, ← map_append] at hnodup
  -- no other recipient has its id
  have hne : ∀ q ∈ before ++ after, q.id ≠ r.id := fun q hq h => hnodup.1 (h ▸ mem_map_of_mem hq)
  have hbefore := deliveries_to_other (fun q hq => hne q (mem_append_left _ hq)) records
  have hafter := deliveries_to_other (fun q hq => hne q (mem_append_right _ hq)) records
  have hmine : ((records.filterMap (Streamed.named r)).map fun x => (r.id, x)).filter (fun d => d.1 == r.id) =
      (records.filterMap (Streamed.named r)).map fun x => (r.id, x) := by
    refine filter_eq_self.mpr fun d hd => ?_
    obtain ⟨x, -, rfl⟩ := mem_map.mp hd
    exact beq_self_eq_true _
  simp only [Post.deliveries] at hbefore hafter ⊢
  rw [flatMap_append, flatMap_cons, filter_append, filter_append, hbefore, hafter, hmine]
  simp [comp_def]

theorem Streaming.eq_of_id (h : s.Streaming) {sub sub' : Subscribed V Id} (hsub : sub ∈ s.subscriptions)
    (hsub' : sub' ∈ s.subscriptions) (hid : sub.registration.id = sub'.registration.id) : sub = sub' :=
  inj_on_of_nodup_map h.nodup hsub hsub' hid

theorem Streaming.nodup_subscribers (h : s.Streaming) : (s.group.subscribers.map Registration.id).Nodup := by
  rw [h.active, map_map]
  exact h.nodup.sublist (filter_sublist.map _)

theorem Streaming.mem_subscribers (h : s.Streaming) {sub : Subscribed V Id} (hsub : sub ∈ s.subscriptions) :
    (∃ r ∈ s.group.subscribers, r.id = sub.registration.id) ↔ sub.ended = none := by
  rw [h.active]
  constructor
  · rintro ⟨r, hr, hid⟩
    obtain ⟨sub', hsub', rfl⟩ := mem_map.mp hr
    obtain ⟨hmem, hended⟩ := mem_filter.mp hsub'
    rw [← h.eq_of_id hmem hsub hid]
    simpa using hended
  · intro hended
    exact ⟨_, mem_map_of_mem (mem_filter.mpr ⟨hsub, by simp [hended]⟩), rfl⟩

theorem drop_take_append {α : Type*} {l old new : List α} {lo : ℕ} (hl : l = old ++ new) (hlo : lo ≤ old.length) :
    (l.take l.length).drop lo = (old.take old.length).drop lo ++ new := by
  subst hl
  rw [take_length, take_length, drop_append_of_le_length hlo]

/-- A step that adds to the history streams what it adds to the subscribers there are. -/
theorem Streaming.of_stream (h : s.Streaming) (stored released : List (DataValue V))
    (modified : List (Modification V)) (records : List (Streamed V))
    (hfeed : s'.feed = ⟨s.subscriptions, s.group.subscribers,
      s.delivered ++ (s.posted ++ post s.group.subscribers records).flatMap Post.deliveries,
      s.group.ledger.stored ++ stored, s.group.ledger.released ++ released, s.modified ++ modified⟩)
    (hrecords : s.group.subscribers = [] ∨ records = streamOf stored released modified) : s'.Streaming := by
  rw [flatMap_append, post_deliveries, ← append_assoc] at hfeed
  obtain ⟨hsubscriptions, hsubscribers, hall, hstored, hreleased, hmodified⟩ := Feed.mk.inj hfeed
  have hto : ∀ id, s'.passed id = s.passed id ++
      ((⟨s.group.subscribers, records⟩ : Post V).deliveries.filter fun d => d.1 == id).map Prod.snd := by
    intro id
    rw [System.passed, hall, filter_append, map_append]
    rfl
  constructor
  · simpa only [hsubscriptions] using h.nodup
  · simpa only [hsubscriptions, hsubscribers] using h.active
  · intro d hd
    rw [hall] at hd
    rw [hsubscriptions]
    rcases mem_append.mp hd with hd | hd
    · exact h.known d hd
    · obtain ⟨r, hr, hd⟩ := mem_flatMap.mp hd
      obtain ⟨x, -, rfl⟩ := mem_map.mp hd
      rw [h.active] at hr
      obtain ⟨sub, hsub, rfl⟩ := mem_map.mp hr
      exact mem_map_of_mem (mem_of_mem_filter hsub)
  · intro sub hsub
    rw [hsubscriptions] at hsub
    obtain ⟨h₁, h₂, h₃⟩ := h.began sub hsub
    rw [hstored, hreleased, hmodified]
    exact ⟨h₁.trans (prefix_append ..), h₂.trans (prefix_append ..), h₃.trans (prefix_append ..)⟩
  · intro sub hsub m hm
    rw [hsubscriptions] at hsub
    have hle := h.ended sub hsub m hm
    simp only [marks, hstored, hreleased, hmodified, length_append] at hle ⊢
    omega
  · intro sub hsub
    rw [hsubscriptions] at hsub
    have hpassed := h.passed sub hsub
    obtain ⟨h₁, h₂, h₃⟩ := h.began sub hsub
    rw [hto]
    cases hended : sub.ended with
    | none =>
      obtain ⟨r, hr, hid⟩ := (h.mem_subscribers hsub).mpr hended
      have hrecords : records = streamOf stored released modified := by
        rcases hrecords with hnone | hrecords
        · rw [hnone] at hr
          cases hr
        · exact hrecords
      have hreg : r = sub.registration := by
        rw [h.active] at hr
        obtain ⟨sub', hsub', rfl⟩ := mem_map.mp hr
        rw [h.eq_of_id (mem_of_mem_filter hsub') hsub hid]
      subst hreg
      rw [deliveries_to h.nodup_subscribers hr]
      have hsince : (s'.since sub).Perm (s.since sub ++ records) := by
        simp only [since, hended, Option.getD_none, marks]
        rw [drop_take_append hstored h₁.length_le, drop_take_append hreleased h₂.length_le,
          drop_take_append hmodified h₃.length_le, hrecords]
        exact streamOf_append_perm ..
      have hperm := hsince.filterMap (Streamed.named sub.registration)
      rw [filterMap_append] at hperm
      exact (hpassed.append_right _).trans hperm.symm
    | some m =>
      have hother : ∀ r ∈ s.group.subscribers, r.id ≠ sub.registration.id := fun r hr hid => by
        have := (h.mem_subscribers hsub).mp ⟨r, hr, hid⟩
        rw [hended] at this
        cases this
      have hle := h.ended sub hsub m (by rw [hended]; rfl)
      have hsince : s'.since sub = s.since sub := by
        simp only [since, hended, Option.getD_some, hstored, hreleased, hmodified]
        rw [take_append_of_le_length hle.1, take_append_of_le_length hle.2.1,
          take_append_of_le_length hle.2.2]
      rw [deliveries_to_other hother, hsince]
      simpa using hpassed

/-- One that lasts is still registered. -/
theorem Streaming.isNone_endAt (h : s.Streaming) (p : Registration → Bool) (now : Marks) {sub : Subscribed V Id}
    (hsub : sub ∈ s.subscriptions) :
    (sub.endAt (s.group.subscribers.filter p) now).ended.isNone = (sub.ended.isNone && p sub.registration) := by
  cases hended : sub.ended with
  | some m => simp [Subscribed.endAt, hended]
  | none =>
    have hmem : sub.registration ∈ s.group.subscribers := by
      rw [h.active]
      exact mem_map_of_mem (mem_filter.mpr ⟨hsub, by simp [hended]⟩)
    simp only [Subscribed.endAt, hended]
    by_cases hp : p sub.registration = true
    · have hall : ((s.group.subscribers.filter p).all fun r => r.id != sub.registration.id) = false := by
        rw [all_eq_false]
        exact ⟨sub.registration, mem_filter.mpr ⟨hmem, hp⟩, by simp⟩
      simp [hall, hp, hended]
    · have hall : ((s.group.subscribers.filter p).all fun r => r.id != sub.registration.id) = true := by
        rw [all_eq_true]
        intro r hr
        obtain ⟨hr, hpr⟩ := mem_filter.mp hr
        have hne : r.id ≠ sub.registration.id := fun hid => by
          rw [h.active] at hr
          obtain ⟨sub', hsub', rfl⟩ := mem_map.mp hr
          rw [h.eq_of_id (mem_of_mem_filter hsub') hsub hid] at hpr
          exact hp hpr
        simpa using hne
      simp [hall, hp]

theorem Streaming.active_endAt (h : s.Streaming) (p : Registration → Bool) (now : Marks) :
    s.group.subscribers.filter p = ((s.subscriptions.map (Subscribed.endAt (s.group.subscribers.filter p) now)).filter
      fun sub => sub.ended.isNone).map Subscribed.registration := by
  have hfilter : s.subscriptions.filter ((fun sub => sub.ended.isNone) ∘ Subscribed.endAt (s.group.subscribers.filter p) now) =
      s.subscriptions.filter fun sub => (p ∘ Subscribed.registration) sub && sub.ended.isNone :=
    filter_congr fun sub hsub => by simp [h.isNone_endAt p now hsub, Bool.and_comm]
  rw [filter_map, hfilter, map_map]
  nth_rewrite 1 [h.active]
  rw [filter_map, filter_filter]
  exact map_congr_left fun sub _ => (Subscribed.endAt_fields _ now sub).1.symm

theorem Streaming.of_leaving (h : s.Streaming) (p : Registration → Bool)
    (hfeed : s'.feed = ⟨s.subscriptions, s.group.subscribers.filter p, s.delivered ++ s.posted.flatMap Post.deliveries,
      s.group.ledger.stored, s.group.ledger.released, s.modified⟩) : s'.endGone.Streaming := by
  obtain ⟨hsubscriptions, hsubscribers, hsent, hstored, hreleased, hmodified⟩ := Feed.mk.inj hfeed
  have hmarks : s'.endGone.marks = s.marks := by simp only [endGone, marks, hstored, hreleased, hmodified]
  have hsubs : s'.endGone.subscriptions =
      s.subscriptions.map (Subscribed.endAt (s.group.subscribers.filter p) s.marks) := by
    rw [← hsubscriptions, ← hsubscribers, ← hmarks]
    rfl
  have hfields := fun sub : Subscribed V Id => sub.endAt_fields (s.group.subscribers.filter p) s.marks
  have hids : (s'.endGone.subscriptions.map fun sub => sub.registration.id) =
      s.subscriptions.map fun sub => sub.registration.id := by
    rw [hsubs, map_map]
    exact map_congr_left fun sub _ => by simp [hfields sub]
  constructor
  · rw [hids]
    exact h.nodup
  · have hreg : s'.endGone.group.subscribers = s.group.subscribers.filter p := hsubscribers
    rw [hreg, hsubs]
    exact h.active_endAt p s.marks
  · intro d hd
    rw [hids]
    exact h.known d (hsent ▸ hd)
  · rw [hsubs]
    intro sub' hsub'
    obtain ⟨sub, hsub, rfl⟩ := mem_map.mp hsub'
    simp only [hfields sub]
    simpa only [endGone, hstored, hreleased, hmodified] using h.began sub hsub
  · rw [hsubs, hmarks]
    intro sub' hsub' m hm
    obtain ⟨sub, hsub, rfl⟩ := mem_map.mp hsub'
    simp only [Subscribed.endAt] at hm
    split_ifs at hm
    · cases hm
      exact ⟨le_rfl, le_rfl, le_rfl⟩
    · exact h.ended sub hsub m hm
  · rw [hsubs]
    intro sub' hsub'
    obtain ⟨sub, hsub, rfl⟩ := mem_map.mp hsub'
    have hsince : s'.endGone.since (sub.endAt (s.group.subscribers.filter p) s.marks) = s.since sub := by
      simp only [since, hmarks, hfields sub]
      simp only [endGone, hstored, hreleased, hmodified]
    have hto : s'.endGone.passed sub.registration.id = s.passed sub.registration.id := by
      simp only [System.passed, endGone, hsent]
    rw [(hfields sub).1, hsince, hto]
    exact h.passed sub hsub

theorem Streaming.of_deliver (h : s.Streaming) {i : ℕ} {p : Post V} (hp : s.posted[i]? = some p) :
    ({ s with posted := s.posted.eraseIdx i, delivered := s.delivered ++ p.deliveries } : System V Id).Streaming := by
  have hperm : (s.delivered ++ p.deliveries ++ (s.posted.eraseIdx i).flatMap Post.deliveries).Perm
      (s.delivered ++ s.posted.flatMap Post.deliveries) := by
    obtain ⟨hi, hp⟩ := List.getElem?_eq_some_iff.mp hp
    have hsplit := (getElem_cons_eraseIdx_perm hi).flatMap_right Post.deliveries
    rw [hp, flatMap_cons] at hsplit
    rw [append_assoc]
    exact hsplit.append_left _
  refine ⟨h.nodup, h.active, fun d hd => h.known d (hperm.mem_iff.mp hd), h.began, h.ended, fun sub hsub => ?_⟩
  exact ((hperm.filter _).map _).trans (h.passed sub hsub)

/-- A new subscription begins where the history is. -/
theorem Streaming.of_subscribe (env : Env V Id) (h : s.Streaming) {id : ℕ} {nodes : List (NodeIndex × NodeIndex)}
    (hid : ∀ sub ∈ s.subscriptions, sub.registration.id ≠ id) : (s.subscribe env id nodes).Streaming := by
  have hnew : ∀ x ∈ s.delivered ++ s.posted.flatMap Post.deliveries, x.1 ≠ id := fun x hx heq => by
    obtain ⟨sub, hsub, hsubid⟩ := mem_map.mp (h.known x hx)
    exact hid sub hsub (hsubid.trans heq)
  simp only [subscribe]
  constructor
  · rw [map_append, map_singleton, nodup_append]
    refine ⟨h.nodup, nodup_singleton _, fun x hx y hy => ?_⟩
    obtain ⟨sub, hsub, rfl⟩ := mem_map.mp hx
    rw [mem_singleton.mp hy]
    exact hid sub hsub
  · simp [h.active, filter_append]
  · intro d hd
    rw [map_append]
    exact mem_append_left _ (h.known d hd)
  · intro sub hsub
    rcases mem_append.mp hsub with hsub | hsub
    · exact h.began sub hsub
    · rw [mem_singleton.mp hsub]
      exact ⟨prefix_rfl, prefix_rfl, prefix_rfl⟩
  · intro sub hsub
    rcases mem_append.mp hsub with hsub | hsub
    · exact h.ended sub hsub
    · rw [mem_singleton.mp hsub]
      intro m hm
      cases hm
  · intro sub hsub
    rcases mem_append.mp hsub with hsub | hsub
    · exact h.passed sub hsub
    · rw [mem_singleton.mp hsub]
      have hnone : (s.delivered ++ s.posted.flatMap Post.deliveries).filter (fun d => d.1 == id) = [] :=
        filter_eq_nil_iff.mpr fun x hx => by simpa using hnew x hx
      simp [System.passed, since, marks, streamOf, hnone]

/-- What a call streams is what it stored, to the subscribers it found. -/
theorem Streaming.of_perform [DecidableEq V] (h : s.Streaming) {p : Group V Id × Effects V}
    (hp : Performs s.group p) :
    ({ s with group := p.1, posted := s.posted ++ post p.2.recipients (p.2.stored.map .value) } :
      System V Id).endGone.Streaming := by
  obtain ⟨new, hstored, hstreamed⟩ := hp.streams
  have hpost : post p.2.recipients (p.2.stored.map Streamed.value) =
      post s.group.subscribers (p.2.stored.map .value) := by
    rcases hp.recipients with hnone | hto
    · rw [hnone]
      rfl
    · rw [hto]
  -- first with the subscribers it found, and then with those it leaves
  have hmid : ({ s with
      group := { p.1 with subscribers := s.group.subscribers }
      posted := s.posted ++ post p.2.recipients (p.2.stored.map .value) } : System V Id).Streaming := by
    refine h.of_stream new [] [] (p.2.stored.map .value) (by simp [feed, hstored, hp.released, hpost]) ?_
    by_cases hsub : s.group.subscribers = []
    · exact .inl hsub
    · rw [if_neg hsub] at hstreamed
      exact .inr (by simp [streamOf, hstreamed])
  rcases hp.subscribers with hsame | hgone
  · exact hmid.of_leaving (fun _ => true) (by simp [feed, hsame])
  · exact hmid.of_leaving (fun _ => false) (by simp [feed, hgone])

variable {env : Env V Id} {walkBack : GroupFiles V Id → NodeIndex → Ticks → Option (DataValue V)}
  [DecidableEq V] [DecidableEq Id]

variable {a : Action V Id}

omit [DecidableEq V] in
/-- The flush's own steps stream nothing, but its take. -/
theorem step_quiet (ha : a.streams = false) (hs : s.step env walkBack a = some s') :
    s'.feed = s.feed ∧ s'.files.mods = s.files.mods := by
  cases step_steps hs with
  | others _ | failDay _ | failJob _ | mark _ | endFlush _ => exact ⟨rfl, rfl⟩
  | trim before need =>
    obtain ⟨hout, -, hstored⟩ := s.group.drop_untrimmed env before need
    simp only [outside, Outside.mk.injEq] at hout
    exact ⟨by simp only [feed, hstored, hout], rfl⟩
  | @taking _ closed _ _ _ => cases closed <;> exact ⟨rfl, rfl⟩
  | hold _ hs =>
    obtain ⟨⟨day, stop, due⟩, -, rfl⟩ := Option.map_eq_some_iff.mp hs
    exact ⟨rfl, rfl⟩
  | prepare _ hs =>
    obtain ⟨⟨day, stop, due⟩, -, rfl⟩ := Option.map_eq_some_iff.mp hs
    exact ⟨rfl, (s.files.prepare_files ..).2⟩
  | @commitDay _ _ _ write _ =>
    cases write with
    | nothing => exact ⟨rfl, rfl⟩
    | _ => exact ⟨rfl, s.files.commit_mods env _⟩
  | commitJob _ => exact ⟨rfl, s.files.commit_mods env _⟩
  | finish _ _ =>
    simp only [finish]
    split_ifs <;> exact ⟨rfl, rfl⟩
  | correct _ _ => exact ⟨rfl, (s.files.prepare_files ..).2⟩
  | _ => cases ha

theorem step_streaming (h : s.Streaming) (hs : s.step env walkBack a = some s') : s'.Streaming := by
  cases step_steps hs with
  | perform op => exact h.of_perform (s.group.perform_performs env op)
  | deliver hp => exact h.of_deliver hp
  | take now _ =>
    let fresh := (((s.group.markLost env).1 ++ s.group.values.filter (s.group.takes now)).filter fresh?).map
      item
    refine h.of_stream [] fresh [] ((s.group.take env now).2.1.map .value) (by rw [append_nil, append_nil]; rfl) ?_
    by_cases hsub : s.group.subscribers = []
    · exact .inl hsub
    · have hbeats : (s.group.take env now).2.1 = fresh := by
        simp only [Group.take]
        rw [if_neg (by simpa [markLost] using hsub)]
      rw [hbeats]
      exact .inr (by simp only [streamOf, filter_nil, map_nil, nil_append, append_nil])
  | @edit _ day records _ =>
    exact h.of_stream [] [] records (records.map .modification) (by rw [append_nil, append_nil]; rfl)
      (.inr (by simp [streamOf]))
  | subscribe _ hnew => exact h.of_subscribe env hnew
  | unsubscribe id => exact h.of_leaving (fun r => r.id != id) rfl
  | _ => exact h.of_feed_eq (step_quiet rfl hs).1

omit [DecidableEq V] in
theorem step_modifications (hs : s.step env walkBack a = some s') :
    ∃ new, s'.files.modifications.Perm (s.files.modifications ++ new) ∧ s'.modified = s.modified ++ new := by
  have hsame : s'.files.mods = s.files.mods → s'.modified = s.modified →
      ∃ new, s'.files.modifications.Perm (s.files.modifications ++ new) ∧ s'.modified = s.modified ++ new := by
    intro hmods hmodified
    exact ⟨[], by simp [GroupFiles.modifications, hmods], by simp [hmodified]⟩
  cases step_steps hs with
  | perform _ | deliver _ | take _ _ | subscribe _ _ | unsubscribe _ => exact hsame rfl rfl
  | @edit _ day records _ => exact ⟨records, s.files.commitMods_modifications_perm day records, rfl⟩
  | _ => exact hsame (step_quiet rfl hs).2 (congrArg Feed.modified (step_quiet rfl hs).1)

end System

/-- Whether a subscription names an index. -/
def Registration.wants (r : Registration) (index : NodeIndex) : Bool := (r.nodes.lookup index).isSome

/-- Of a subscription's nodes, what had been given up or let go before it began. -/
def Subscribed.letGo (sub : Subscribed V Id) : List (DataValue V) :=
  ((sub.ledger.trimmed ++ sub.ledger.discarded).filter fun b =>
    subscribable b && sub.registration.wants b.item.index).map fun b => b.item.filed

/-- What a subscription's snapshot shows, the buffer's copy and the files as they stood: of its nodes,
every value stored before it but heartbeats, every heartbeat a flush had taken, and the trim's markers,
less what the trim gave up and what a refused file was to take; and every modification made before it. -/
structure Subscribed.Shows (env : Env V Id) (files : GroupFiles V Id) (sub : Subscribed V Id) : Prop where
  values : (sub.buffer ++
      (sub.files.values.filter fun v => sub.registration.wants v.index).map DataValue.filed ++ sub.letGo).Perm
    (((files.values ++ sub.ledger.stored.filter (fun v => v.heartbeat.isNone) ++ sub.ledger.released ++
      (sub.ledger.marked ++ sub.gaps)).filter fun v => sub.registration.wants v.index).map DataValue.filed)
  discarded : ∀ b ∈ sub.ledger.discarded, sub.files.Refuses env b.item.primaryTime
  modifications : sub.files.modifications.Perm (files.modifications ++ sub.modified)

section Counts

variable [DecidableEq V]

variable (wanted : NodeIndex → Bool)

theorem count_filter_wanted (l : List (DataValue V)) (v : DataValue V) :
    ((l.filter fun w => wanted w.index).map filed).count v =
      if wanted v.index then (l.map filed).count v else 0 := by
  have hindex : ∀ w : DataValue V, w.filed = v → w.index = v.index := fun w h => by rw [← h]; rfl
  simp only [count_eq_countP, countP_map, countP_filter]
  split_ifs with h
  · refine countP_congr fun w _ => ?_
    simp only [comp_apply, Bool.and_eq_true, beq_iff_eq, and_iff_left_iff_imp]
    exact fun hw => (hindex w hw).symm ▸ h
  · refine countP_eq_zero.mpr fun w _ => ?_
    simp only [comp_apply, Bool.and_eq_true, beq_iff_eq, not_and]
    exact fun hw => (hindex w hw).symm ▸ h

omit [DecidableEq V] in
theorem subscribable_iff (b : Buffered (DataValue V)) : subscribable b = (b.token.1 != .beat) := by
  simp only [subscribable, token]
  cases hb : b.item.heartbeat <;> cases hr : b.released <;> simp

/-- The released heartbeats and the ordinary values among buffered ones. -/
theorem count_filter_subscribable (l : List (Buffered (DataValue V))) (v : DataValue V) :
    (((l.filter fun b => subscribable b && wanted b.item.index).map fun b => b.item.filed).count v : ℤ) =
      if wanted v.index then tally (.plain, v) l + tally (.released, v) l else 0 := by
  have hsplit : ∀ l : List (Buffered (DataValue V)),
      ((l.filter fun b => subscribable b && wanted b.item.index).map fun b => b.item.filed) =
        ((((l.filter subscribable).map item).filter fun w => wanted w.index).map filed) := by
    intro l
    rw [filter_map, filter_filter, map_map]
    simp only [comp_def, Bool.and_comm]
  have hkinds : ((l.filter subscribable).map (filed ∘ item)).count v =
      (l.map token).count (.plain, v) + (l.map token).count (.released, v) := by
    induction l with
    | nil => rfl
    | cons b l ih =>
      have htoken : b.token = (b.token.1, b.item.filed) := rfl
      rw [filter_cons, subscribable_iff, map_cons, count_cons, count_cons, htoken]
      cases b.token.1 <;> simp [ih, count_cons] <;> omega
  rw [hsplit, count_filter_wanted, map_map, hkinds]
  split_ifs <;> simp [tally]

theorem tallyAs_as (kind kind' : Kind) (l : List (DataValue V)) (v : DataValue V) :
    tallyAs (kind, v) (as kind') l = if kind = kind' then ((l.map filed).count v : ℤ) else 0 := by
  induction l with
  | nil => simp
  | cons w l ih =>
    have h := tallyAs_append (kind, v) (as kind') [w] l
    rw [singleton_append] at h
    rw [h, ih]
    split_ifs with hk
    · subst hk
      simp [tallyAs, as, count_cons]
      split_ifs <;> omega
    · simp [tallyAs, as, Ne.symm hk]

theorem tallyAs_leaving_beat (l : List (DataValue V)) (v : DataValue V) :
    tallyAs (.beat, v) leaving l = 0 := by
  rw [tallyAs, count_eq_zero.mpr]
  · rfl
  · rw [mem_map]
    rintro ⟨w, -, h⟩
    simp only [leaving, Prod.mk.injEq] at h
    split_ifs at h <;> simp at h

/-- A stored value is ordinary, or a heartbeat no flush has taken. -/
theorem tallyAs_arriving (l : List (DataValue V)) (v : DataValue V) : tallyAs (.plain, v) arriving l =
        ((l.filter fun w => w.heartbeat.isNone).map filed).count v ∧
      tallyAs (.released, v) arriving l = 0 := by
  induction l with
  | nil => exact ⟨rfl, rfl⟩
  | cons w l ih =>
    obtain ⟨hplain, hreleased⟩ := ih
    simp only [tallyAs] at hplain hreleased ⊢
    simp only [map_cons, count_cons, filter_cons, arriving]
    cases hb : w.heartbeat <;> simp_all [count_cons]

end Counts

section Snapshot

variable {env : Env V Id}

theorem valuesOf_filter (wanted : NodeIndex → Bool) (l : List (Buffered (Record V Id))) :
    valuesOf (l.filter fun b => wanted b.item.index) =
      (valuesOf l).filter fun b => wanted b.item.index := by
  rw [valuesOf, valuesOf, filterMap_filter, filter_filterMap]
  refine filterMap_congr fun b _ => ?_
  obtain ⟨item, sequence, bytes, copied, released⟩ := b
  cases item with
  | change => exact ite_self none
  | value v => rfl

/-- A snapshot of some nodes is their part of the whole one. -/
theorem valuesOf_snapshot_perm (g : Group V Id) (wanted : NodeIndex → Bool) :
    (valuesOf (g.snapshot env wanted)).Perm
      ((valuesOf (g.snapshot env fun _ => true)).filter fun b => wanted b.item.index) := by
  have hall := valuesOf_mergeRecords_perm g.changes g.values
  have hsome := valuesOf_mergeRecords_perm (g.changes.filter fun b => wanted b.item.index)
    (g.values.filter fun b => wanted b.item.index)
  simp only [snapshot, filter_true, valuesOf_append, valuesOf_map_value, filter_append,
    valuesOf_filter]
  exact (hsome.trans (hall.filter _).symm).append_left _

end Snapshot

namespace System

variable {env : Env V Id} [DecidableEq V] {s₀ s : System V Id}

/-- A subscription's snapshot, taken where a read can take both locks, is the history so far. -/
theorem subscribe_shows (hstart : s₀.Starts) (h : Conserves env s₀ s)
    (hread : s.phase.readable = true) (hmods : s.files.modifications.Perm (s₀.files.modifications ++ s.modified))
    (r : Registration) :
    Subscribed.Shows env s₀.files
      { registration := r
        buffer := ((valuesOf (s.group.snapshot env r.wants)).filter subscribable).map fun b => b.item.filed
        files := s.files
        ledger := s.group.ledger
        gaps := s.group.gapMarkers env
        modified := s.modified } := by
  refine ⟨perm_iff_count.mpr fun v => ?_, h.letGo hstart.letGo, hmods⟩
  have hbuffer : (((valuesOf (s.group.snapshot env r.wants)).filter subscribable).map
      fun b => b.item.filed).Perm
        (((valuesOf (s.group.snapshot env fun _ => true)).filter fun b =>
          subscribable b && r.wants b.item.index).map fun b => b.item.filed) := by
    rw [← filter_filter]
    exact ((valuesOf_snapshot_perm s.group r.wants).filter _).map _
  have hseen := count_filter_subscribable r.wants (valuesOf (s.group.snapshot env fun _ => true)) v
  have hgone := count_filter_subscribable r.wants (s.group.ledger.trimmed ++ s.group.ledger.discarded) v
  simp only [Subscribed.letGo, count_append, hbuffer.count_eq, count_filter_wanted]
  split_ifs at hseen hgone ⊢ with hwants
  · have hplain := readable_balance env hstart h.net hread (.plain, v)
    have hreleased := readable_balance env hstart h.net hread (.released, v)
    have hfiles := total_tallyAs (f := leaving) (fun _ => rfl) s.files.values v
    have hbefore := total_tallyAs (f := leaving) (fun _ => rfl) s₀.files.values v
    obtain ⟨hstored, hnone⟩ := tallyAs_arriving s.group.ledger.stored v
    simp only [total, tallyAs_leaving_beat] at hfiles hbefore
    simp only [tallyAs_as, hstored, hnone, if_true, reduceCtorEq, if_false] at hplain hreleased
    simp only [tally_append] at hgone
    simp only [map_append, count_append]
    omega
  · omega

/-- What holds of the subscriptions along a run from `s₀`. -/
structure Meets (env : Env V Id) (s₀ s : System V Id) : Prop where
  conserves : Conserves env s₀ s
  streaming : s.Streaming
  modifications : s.files.modifications.Perm (s₀.files.modifications ++ s.modified)
  shows : ∀ sub ∈ s.subscriptions, sub.Shows env s₀.files

theorem Starts.meets (h : s₀.Starts) : Meets env s₀ s₀ where
  conserves := ⟨h.sound, rfl, id⟩
  streaming := by
    constructor
    all_goals simp [h.subscriptions, h.subscribers, h.delivered, h.posted]
  modifications := by simp [h.modified]
  shows sub hsub := by
    rw [h.subscriptions] at hsub
    cases hsub

omit [DecidableEq V] in
theorem shows_endGone {files : GroupFiles V Id} (h : ∀ sub ∈ s.subscriptions, sub.Shows env files) :
    ∀ sub ∈ s.endGone.subscriptions, sub.Shows env files := by
  intro sub' hsub'
  obtain ⟨sub, hsub, rfl⟩ := mem_map.mp hsub'
  split_ifs
  · exact ⟨(h sub hsub).values, (h sub hsub).discarded, (h sub hsub).modifications⟩
  · exact h sub hsub

variable {s' : System V Id} {walkBack : GroupFiles V Id → NodeIndex → Ticks → Option (DataValue V)} [DecidableEq Id]

theorem step_meets (hstart : s₀.Starts) (h : Meets env s₀ s) {a : Action V Id}
    (hs : s.step env walkBack a = some s') : Meets env s₀ s' := by
  have hone := step_conserves h.conserves.sound hs
  refine ⟨⟨hone.sound, hone.net.trans h.conserves.net, hone.letGo ∘ h.conserves.letGo⟩, step_streaming h.streaming hs, ?_, ?_⟩
  · obtain ⟨new, hperm, hmodified⟩ := step_modifications hs
    rw [hmodified, ← append_assoc]
    exact hperm.trans (h.modifications.append_right new)
  · cases step_steps hs with
    | perform _ | unsubscribe _ => exact shows_endGone h.shows
    | deliver _ | take _ _ | edit _ => exact h.shows
    | @subscribe id nodes hread _ =>
      intro sub hsub
      rcases mem_append.mp hsub with hsub | hsub
      · exact h.shows sub hsub
      · rw [mem_singleton.mp hsub]
        exact subscribe_shows hstart h.conserves hread h.modifications ⟨id, nodes⟩
    | _ => exact fun sub hsub => h.shows sub ((Feed.mk.inj (step_quiet rfl hs).1).1 ▸ hsub)

theorem run_meets (hstart : s₀.Starts) (h : Meets env s₀ s) {as : List (Action V Id)}
    (hs : s.run env walkBack as = some s') : Meets env s₀ s' := by
  induction as generalizing s with
  | nil =>
    cases hs
    exact h
  | cons a as ih =>
    obtain ⟨s₁, hstep, hrun⟩ := Option.bind_eq_some_iff.mp hs
    exact ih (step_meets hstart h hstep) hrun

/-- A subscription's snapshot is the history before it, and what it is passed is the history since,
each record once: a record is in the one or the other by whether it joined the history before or after. -/
theorem subscription_meets (hstart : s₀.Starts) {as : List (Action V Id)}
    (hrun : s₀.run env walkBack as = some s) {sub : Subscribed V Id} (hsub : sub ∈ s.subscriptions) :
    sub.Shows env s₀.files ∧
      (s.passed sub.registration.id).Perm ((s.since sub).filterMap (Streamed.named sub.registration)) ∧
      sub.ledger.stored <+: s.group.ledger.stored ∧ sub.ledger.released <+: s.group.ledger.released ∧
      sub.modified <+: s.modified := by
  have h := run_meets hstart hstart.meets hrun
  exact ⟨h.shows sub hsub, h.streaming.passed sub hsub, h.streaming.began sub hsub⟩

end System

/-- A value let go and one back in the buffer before a subscription to their node, one after, a flush
and an edit. -/
def subscribedBetween : List (Action ℕ ℕ) :=
  refusedAndFailed ++ [.endFlush, .subscribe 1 [(1, 1)], arrives 7 864000000020, .take 0, .taking, .prepare,
    .commit, .mark, .finish, .edit 1 [⟨1, 864000000010, .delete, none, none, 40, none⟩], .deliver 0]

theorem subscribedBetween_meets : ∃ s sub, damagedDay.run plainHost nothingBefore subscribedBetween = some s ∧
    sub ∈ s.subscriptions ∧ sub.ledger.discarded.length = 1 ∧ sub.buffer.length = 1 ∧
      (s.passed sub.registration.id).length = 2 ∧ sub.Shows plainHost damagedDay.files ∧
      (s.passed sub.registration.id).Perm ((s.since sub).filterMap (Streamed.named sub.registration)) ∧
      sub.ledger.stored <+: s.group.ledger.stored ∧ sub.ledger.released <+: s.group.ledger.released ∧
      sub.modified <+: s.modified := by
  have hrun : (damagedDay.run plainHost nothingBefore subscribedBetween).map (fun s =>
      s.subscriptions.map fun sub =>
        (sub.ledger.discarded.length, sub.buffer.length, (s.passed sub.registration.id).length)) =
      some [(1, 1, 2)] := by decide
  obtain ⟨s, hs, hone⟩ := Option.map_eq_some_iff.mp hrun
  obtain ⟨sub, hsub, hlengths⟩ := map_eq_singleton_iff.mp hone
  have hmem : sub ∈ s.subscriptions := by simp [hsub]
  simp only [Prod.mk.injEq] at hlengths
  exact ⟨s, sub, hs, hmem, hlengths.1, hlengths.2.1, hlengths.2.2,
    System.subscription_meets damagedDay_starts hs hmem⟩

end OpcHub.Historian
