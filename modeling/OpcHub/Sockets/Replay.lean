import OpcHub.Lib.OrdMap
import OpcHub.Lib.Runs

/-! What a process keeps of its subscriptions to the AppServer. What listens is kept by
the socket, by id, and goes with it; what to ask for again is kept by the process, by
request, from the ack on, and a reconnect subscribes it anew from a copy, which goes
on where the socket closes again. An unsubscribe stops ids on the socket and takes the
ids it stopped out of the requests: none stopped reads there as all of the listener's. -/

namespace OpcHub.Sockets

open Lib List OrdMap

abbrev Listener := ℕ
abbrev SubscriptionId := ℕ

variable {Q : Type*} [DecidableEq Q]

/-- A query with its variables, and the id its text gives each of its subscriptions, 0 for none. It has at least one. -/
structure Texts (Q : Type*) where
  ids : Q → List SubscriptionId
  nonempty : ∀ q, ids q ≠ []

/-- The ids of an ack: the request's own for a subscription with none. -/
def Texts.acked (texts : Texts Q) (q : Q) (requestId : ℕ) : List SubscriptionId :=
  (texts.ids q).map fun id => if id = 0 then requestId else id

/-- A listener on an id, and the request it listens for. -/
structure Listening (Q : Type*) where
  listener : Listener
  text : Q
  id : SubscriptionId
  deriving DecidableEq

structure Remembered (Q : Type*) where
  listener : Listener
  text : Q
  ids : List SubscriptionId
  failures : ℕ := 0
  deriving DecidableEq

def Listening.request (x : Listening Q) : Listener × Q := (x.listener, x.text)
def Remembered.request (r : Remembered Q) : Listener × Q := (r.listener, r.text)

/-- `replay`: the requests of its copy still to subscribe, the first of them under `waiting` while its answer is out. -/
structure Replaying (Q : Type*) where
  left : List (Listener × Q)
  waiting : Option ℕ := none
  deriving DecidableEq

structure AppClient (Q : Type*) where
  live : Bool := false
  /-- How many sessions have come up for which Replay is still to be called. -/
  due : ℕ := 0
  /-- The ids requests have taken on the session. -/
  used : List ℕ := []
  /-- `_subscriptionRequests`. -/
  outstanding : OrdMap ℕ (Listener × Q) := ∅
  /-- `_subs`. -/
  listening : List (Listening Q) := []
  /-- `_requests`. -/
  remembered : List (Remembered Q) := []
  replays : List (Replaying Q) := []
  /-- What the listeners have had acked and not unsubscribed since, with the ids of the last ack. A replay's ack gives
  what is there its new ids and adds nothing. -/
  expected : List (Listening Q) := []

inductive ClientEvent (Q : Type*) where
  | connect
  | replay
  | close
  | subscribe (requestId : ℕ) (listener : Listener) (text : Q)
  | ack (requestId : ℕ)
  | refuse (requestId : ℕ)
  | unsubscribe (listener : Listener) (ids : List SubscriptionId)
  /-- A replay that waits for nothing goes on, under the given id if it sends. -/
  | next (replaying : Replaying Q) (requestId : ℕ)
  deriving DecidableEq

namespace AppClient

def remember (request : Listener × Q) (ids : List SubscriptionId) : List (Remembered Q) → List (Remembered Q)
  | [] => [⟨request.1, request.2, ids, 0⟩]
  | r :: rs => if r.request = request then ⟨request.1, request.2, ids, 0⟩ :: rs else r :: remember request ids rs

/-- A request goes when nothing it produced is still subscribed. -/
def forgetOne (listener : Listener) (ids : List SubscriptionId) (r : Remembered Q) : Option (Remembered Q) :=
  if r.listener ≠ listener then some r
  else if ids = [] ∨ r.ids.filter (· ∉ ids) = [] then none
  else some { r with ids := r.ids.filter (· ∉ ids) }

def forget (listener : Listener) (ids : List SubscriptionId) (rs : List (Remembered Q)) : List (Remembered Q) :=
  rs.filterMap (forgetOne listener ids)

def maxReplayFailures : ℕ := 3

def noteReplayFailure (request : Listener × Q) : List (Remembered Q) → List (Remembered Q)
  | [] => []
  | r :: rs =>
    if r.request = request then
      if r.failures + 1 < maxReplayFailures then { r with failures := r.failures + 1 } :: rs else rs
    else r :: noteReplayFailure request rs

variable (s : AppClient Q)

def connect : AppClient Q := { s with live := true, due := s.due + 1, used := [] }

def startReplay : AppClient Q :=
  { s with
    due := s.due - 1
    replays := if s.remembered = [] then s.replays else ⟨s.remembered.map Remembered.request, none⟩ :: s.replays }

/-- The requests replays have out. -/
def replaysOut : List (Listener × Q) := (s.replays.filter fun ρ => ρ.waiting.isSome).filterMap fun ρ => ρ.left.head?

/-- The answers that were out fail, a replay's as its failure. -/
def close : AppClient Q :=
  { s with
    live := false, outstanding := ∅, listening := []
    remembered := s.replaysOut.foldl (fun rs request => noteReplayFailure request rs) s.remembered
    replays := s.replays.map fun ρ => if ρ.waiting.isSome then ⟨ρ.left.tail, none⟩ else ρ }

def send (requestId : ℕ) (request : Listener × Q) : AppClient Q :=
  { s with used := requestId :: s.used, outstanding := s.outstanding.insert requestId request }

def replayed (requestId : ℕ) : Bool := s.replays.any fun ρ => ρ.waiting = some requestId

/-- The subscriptions of a request acked on this session before it is, if any, stay beside the new ones. -/
def ack (texts : Texts Q) (requestId : ℕ) (request : Listener × Q) : AppClient Q :=
  let new := (texts.acked request.2 requestId).map fun id => (⟨request.1, request.2, id⟩ : Listening Q)
  { s with
    outstanding := s.outstanding.erase requestId
    listening := s.listening ++ new
    remembered := remember request (texts.acked request.2 requestId) s.remembered
    replays := s.replays.map fun ρ => if ρ.waiting = some requestId then ⟨ρ.left.tail, none⟩ else ρ
    expected := if s.replayed requestId ∧ request ∉ s.expected.map Listening.request then s.expected
      else (s.expected.filter fun x => x.request ≠ request ∨ x ∈ s.listening) ++ new }

/-- The ids `StopListenRemote` stops. -/
def stopped (listener : Listener) (ids : List SubscriptionId) : List SubscriptionId :=
  ((s.listening.filter fun x => x.listener = listener ∧ (ids = [] ∨ x.id ∈ ids))).map Listening.id

def unsubscribe (listener : Listener) (ids : List SubscriptionId) : AppClient Q :=
  { s with
    listening := s.listening.filter fun x => ¬ (x.listener = listener ∧ x.id ∈ s.stopped listener ids)
    remembered := forget listener (s.stopped listener ids) s.remembered
    expected := s.expected.filter fun x => ¬ (x.listener = listener ∧ (ids = [] ∨ x.id ∈ ids)) }

/-- A replay at its next request: there is none, it is sent, or there is no session to send it on. -/
def next (ρ : Replaying Q) (requestId : ℕ) : List (Listener × Q) → AppClient Q
  | [] => { s with replays := s.replays.erase ρ }
  | request :: left =>
    if s.live then
      { s.send requestId request with replays := ⟨request :: left, some requestId⟩ :: s.replays.erase ρ }
    else
      { s with
        remembered := noteReplayFailure request s.remembered
        replays := ⟨left, none⟩ :: s.replays.erase ρ }

end AppClient

/-- An event; refused where it cannot happen. The server refuses no replay's request. -/
def clientStep (texts : Texts Q) (s : AppClient Q) : ClientEvent Q → Option (AppClient Q)
  | .connect => if s.live then none else some s.connect
  | .replay => if s.due ≠ 0 then some s.startReplay else none
  | .close => if s.live then some s.close else none
  | .subscribe requestId listener text =>
    if s.live ∧ requestId ∉ s.used then some (s.send requestId (listener, text)) else none
  | .ack requestId => (s.outstanding.find? requestId).map fun request => s.ack texts requestId request
  | .refuse requestId =>
    if s.outstanding.contains requestId ∧ ∀ ρ ∈ s.replays, ρ.waiting ≠ some requestId then
      some { s with outstanding := s.outstanding.erase requestId }
    else none
  | .unsubscribe listener ids => some (s.unsubscribe listener ids)
  | .next ρ requestId =>
    if ρ ∈ s.replays ∧ ρ.waiting = none ∧ requestId ∉ s.used then some (s.next ρ requestId ρ.left) else none

namespace AppClient

variable {texts : Texts Q} {s t : AppClient Q} {request : Listener × Q} {ids : List SubscriptionId}

variable {rs : List (Remembered Q)} {listener : Listener} {requestId : ℕ}

theorem mem_remember (hrs : (rs.map Remembered.request).Nodup) {r : Remembered Q} :
    r ∈ remember request ids rs ↔ r = ⟨request.1, request.2, ids, 0⟩ ∨ r ∈ rs ∧ r.request ≠ request := by
  induction rs with
  | nil => simp [remember]
  | cons a rs ih =>
    obtain ⟨ha, hrs⟩ := nodup_cons.mp hrs
    have hne : a.request = request → ∀ b ∈ rs, b.request ≠ request := by
      intro heq b hb hbeq
      exact ha (mem_map.mpr ⟨b, hb, hbeq.trans heq.symm⟩)
    rw [remember]
    split_ifs with heq
    · rw [mem_cons, mem_cons]
      refine or_congr_right ⟨fun h => ⟨.inr h, hne heq r h⟩, ?_⟩
      rintro ⟨rfl | h, hr⟩
      · exact absurd heq hr
      · exact h
    · rw [mem_cons, ih hrs, mem_cons]
      constructor
      · rintro (rfl | h | h)
        · exact .inr ⟨.inl rfl, heq⟩
        · exact .inl h
        · exact .inr ⟨.inr h.1, h.2⟩
      · rintro (h | ⟨h | h, hr⟩)
        · exact .inr (.inl h)
        · exact .inl h
        · exact .inr (.inr ⟨h, hr⟩)

theorem remember_nodup (hrs : (rs.map Remembered.request).Nodup) :
    ((remember request ids rs).map Remembered.request).Nodup := by
  induction rs with
  | nil => exact nodup_singleton _
  | cons a rs ih =>
    obtain ⟨ha, hrs⟩ := nodup_cons.mp hrs
    rw [remember]
    split_ifs with heq
    · rw [← heq]
      exact nodup_cons.mpr ⟨ha, hrs⟩
    · refine nodup_cons.mpr ⟨fun hmem => ?_, ih hrs⟩
      obtain ⟨b, hb, hbeq⟩ := mem_map.mp hmem
      rcases (mem_remember hrs).mp hb with rfl | ⟨hb, -⟩
      · exact heq hbeq.symm
      · exact ha (mem_map.mpr ⟨b, hb, hbeq⟩)

omit [DecidableEq Q] in
theorem request_forgetOne {r r' : Remembered Q} (h : forgetOne listener ids r = some r') :
    r'.request = r.request := by
  unfold forgetOne at h
  split_ifs at h <;> rw [← Option.some.inj h]
  rfl

omit [DecidableEq Q] in
theorem forget_nodup (hrs : (rs.map Remembered.request).Nodup) :
    ((forget listener ids rs).map Remembered.request).Nodup := by
  have hsub : ((forget listener ids rs).map Remembered.request).Sublist (rs.map Remembered.request) := by
    induction rs with
    | nil => exact .slnil
    | cons a rs ih =>
      have hrest := ih (nodup_cons.mp hrs).2
      rw [forget, filterMap_cons]
      cases h : forgetOne listener ids a with
      | none => exact hrest.cons _
      | some b =>
        rw [map_cons, map_cons, request_forgetOne h]
        exact hrest.cons_cons _
  exact hrs.sublist hsub

section Failures

/-- What a replay subscribes anew. -/
def reset (r : Remembered Q) : Remembered Q := { r with failures := 0 }

theorem mem_noteReplayFailure {r : Remembered Q} (h : r ∈ noteReplayFailure request rs) : ∃ r₀ ∈ rs,
    r.request = r₀.request ∧ (r.failures = r₀.failures ∨ r₀.request = request ∧ r.failures = r₀.failures + 1) := by
  induction rs with
  | nil => cases h
  | cons a rs ih =>
    rw [noteReplayFailure] at h
    split_ifs at h with heq hlt
    · rcases mem_cons.mp h with rfl | h
      · exact ⟨a, mem_cons_self, rfl, .inr ⟨heq, rfl⟩⟩
      · exact ⟨r, mem_cons_of_mem _ h, rfl, .inl rfl⟩
    · exact ⟨r, mem_cons_of_mem _ h, rfl, .inl rfl⟩
    · rcases mem_cons.mp h with rfl | h
      · exact ⟨r, mem_cons_self, rfl, .inl rfl⟩
      · obtain ⟨r₀, hr₀, hr⟩ := ih h
        exact ⟨r₀, mem_cons_of_mem _ hr₀, hr⟩

/-- A failure that is not the third drops nothing. -/
theorem reset_noteReplayFailure (h : ∀ r ∈ rs, r.request = request → r.failures + 1 < maxReplayFailures) :
    (noteReplayFailure request rs).map reset = rs.map reset := by
  induction rs with
  | nil => rfl
  | cons a rs ih =>
    rw [noteReplayFailure]
    split_ifs with heq hlt
    · rfl
    · exact absurd (h a mem_cons_self heq) hlt
    · rw [map_cons, map_cons, ih fun r hr => h r (mem_cons_of_mem _ hr)]

theorem reset_foldl {requests : List (Listener × Q)}
    (h : ∀ r ∈ rs, r.failures + requests.count r.request < maxReplayFailures) :
    (requests.foldl (fun rs request => noteReplayFailure request rs) rs).map reset = rs.map reset := by
  induction requests generalizing rs with
  | nil => rfl
  | cons request requests ih =>
    have hfirst : ∀ r ∈ rs, r.request = request → r.failures + 1 < maxReplayFailures := by
      rintro r hr rfl
      have hcount := h r hr
      rw [count_cons_self] at hcount
      omega
    refine (ih fun r hr => ?_).trans (reset_noteReplayFailure hfirst)
    obtain ⟨r₀, hr₀, hreq, hfailures⟩ := mem_noteReplayFailure hr
    have hcount := h r₀ hr₀
    rw [count_cons] at hcount
    rw [hreq]
    rcases hfailures with hsame | ⟨rfl, hmore⟩
    · omega
    · simp only [beq_self_eq_true, if_true] at hcount
      omega

end Failures

/-- What a process keeps while its replays drop and undo nothing. -/
structure Sound (s : AppClient Q) : Prop where
  nodup : (s.remembered.map Remembered.request).Nodup
  ids : ∀ r ∈ s.remembered, r.ids ≠ [] ∧ ∀ id ∈ r.ids, ⟨r.listener, r.text, id⟩ ∈ s.expected
  asked : ∀ x ∈ s.expected, x.request ∈ s.remembered.map Remembered.request
  heard : ∀ x ∈ s.listening, x ∈ s.expected
  /-- What does not listen yet, a replay has still to ask for. -/
  left : s.live = true → s.due = 0 → ∀ x ∈ s.expected, x ∈ s.listening ∨ ∃ ρ ∈ s.replays, x.request ∈ ρ.left
  /-- A replay asks for nothing else. -/
  copied : ∀ ρ ∈ s.replays, ∀ request ∈ ρ.left, request ∈ s.expected.map Listening.request
  waits : ∀ ρ ∈ s.replays, ∀ id, ρ.waiting = some id →
    ∃ request, s.outstanding.find? id = some request ∧ ρ.left.head? = some request
  sent : ∀ id request, s.outstanding.find? id = some request → id ∈ s.used ∧ s.live = true
  asleep : s.live = false → s.listening = []

/-- The listeners' requests on the live session are those they had acked and have not unsubscribed. -/
def Restored (s : AppClient Q) : Prop :=
  s.live = true → s.due = 0 → s.replays = [] → s.outstanding = ∅ →
    ∀ request : Listener × Q, (∃ x ∈ s.listening, x.request = request) ↔ ∃ x ∈ s.expected, x.request = request

/-- No request fails for the third time in a replay, and none is unsubscribed that a replay has still to ask for. An
unsubscribe comes while nothing of the listener listens, and then names no ids, or once Replay is called; if it names
ids, one of them listens, and where it names every id of a request's last ack, it names those of the request's earlier
acks on the session too. -/
def Orderly (s : AppClient Q) : ClientEvent Q → Prop
  | .close => ∀ r ∈ s.remembered, r.failures + s.replaysOut.count r.request < maxReplayFailures
  | .next ρ _ => s.live = false → ∀ r ∈ s.remembered, r.request ∈ ρ.left.head? → r.failures + 1 < maxReplayFailures
  | .unsubscribe listener ids => (∀ ρ ∈ s.replays, ∀ request ∈ ρ.left, request.1 ≠ listener) ∧
    (ids = [] ∧ (∀ x ∈ s.listening, x.listener ≠ listener) ∨ s.live = true ∧ s.due = 0 ∧ (ids = [] ∨
      (∃ x ∈ s.listening, x.listener = listener ∧ x.id ∈ ids) ∧
      ∀ r ∈ s.remembered, r.listener = listener → (∀ id ∈ r.ids, id ∈ ids) →
        ∀ x ∈ s.listening, x.request = r.request → x.id ∈ ids))
  | _ => True

instance (s : AppClient Q) (e : ClientEvent Q) : Decidable (s.Orderly e) := by
  cases e <;> unfold Orderly <;> infer_instance

omit [DecidableEq Q] in
theorem mem_stopped {id : SubscriptionId} :
    id ∈ s.stopped listener ids ↔ ∃ x ∈ s.listening, x.listener = listener ∧ (ids = [] ∨ id ∈ ids) ∧ x.id = id := by
  simp only [stopped, mem_map, mem_filter, decide_eq_true_eq]
  constructor
  · rintro ⟨x, ⟨hx, hl, hid⟩, rfl⟩
    exact ⟨x, hx, hl, hid, rfl⟩
  · rintro ⟨x, hx, hl, hid, rfl⟩
    exact ⟨x, ⟨hx, hl, hid⟩, rfl⟩

omit [DecidableEq Q] in
/-- Only the counts of failures may differ. -/
theorem Sound.of_reset (hs : s.Sound) (h : rs.map reset = s.remembered.map reset) :
    { s with remembered := rs }.Sound := by
  have hrequests : rs.map Remembered.request = s.remembered.map Remembered.request := by
    have hmap := congrArg (List.map Remembered.request) h
    rwa [map_map, map_map] at hmap
  refine { hs with nodup := hrequests ▸ hs.nodup, ids := fun r hr => ?_, asked := fun x hx => ?_ }
  · obtain ⟨r₀, hr₀, hreset⟩ := mem_map.mp (h ▸ mem_map_of_mem hr : reset r ∈ s.remembered.map reset)
    obtain ⟨hl, ht, hids, -⟩ := Remembered.mk.inj hreset
    exact hl ▸ ht ▸ hids ▸ hs.ids r₀ hr₀
  · exact hrequests ▸ hs.asked x hx

/-- A replay's answer is for a request its listener has. -/
theorem Sound.expected_ack (hs : s.Sound) (texts : Texts Q) (hout : s.outstanding.find? requestId = some request) :
    (s.ack texts requestId request).expected = (s.expected.filter fun x => x.request ≠ request ∨ x ∈ s.listening) ++
      (texts.acked request.2 requestId).map fun id => (⟨request.1, request.2, id⟩ : Listening Q) := by
  rw [AppClient.ack, if_neg]
  rintro ⟨hreplayed, hnot⟩
  obtain ⟨ρ, hρ, hwait⟩ := any_eq_true.mp hreplayed
  obtain ⟨request', hout', hhead⟩ := hs.waits ρ hρ requestId (of_decide_eq_true hwait)
  obtain rfl := Option.some.inj (hout.symm.trans hout')
  exact hnot (hs.copied ρ hρ request (mem_of_head? hhead))

/-- After an ack a listener has its request, and what it had beside it. -/
theorem Sound.mem_expected_ack (hs : s.Sound) (hout : s.outstanding.find? requestId = some request)
    {request' : Listener × Q} : request' ∈ (s.ack texts requestId request).expected.map Listening.request ↔
      request' = request ∨ request' ∈ s.expected.map Listening.request := by
  rw [hs.expected_ack texts hout, map_append, mem_append]
  constructor
  · rintro (h | h)
    · obtain ⟨x, hx, rfl⟩ := mem_map.mp h
      exact .inr (mem_map_of_mem (mem_filter.mp hx).1)
    · obtain ⟨x, hx, rfl⟩ := mem_map.mp h
      obtain ⟨id, -, rfl⟩ := mem_map.mp hx
      exact .inl rfl
  · intro h
    by_cases heq : request' = request
    · obtain ⟨id, hid⟩ := exists_mem_of_ne_nil _ (texts.nonempty request.2)
      refine .inr (mem_map.mpr ⟨⟨request.1, request.2, if id = 0 then requestId else id⟩, ?_, heq.symm⟩)
      exact mem_map_of_mem (mem_map_of_mem hid)
    · obtain ⟨x, hx, rfl⟩ := mem_map.mp (h.resolve_left heq)
      exact .inl (mem_map_of_mem (mem_filter.mpr ⟨hx, decide_eq_true (.inl heq)⟩))

/-- A replay that waited for the answer goes on past its request alone. -/
theorem Sound.left_ack (hs : s.Sound) (hout : s.outstanding.find? requestId = some request) {ρ : Replaying Q}
    (hρ : ρ ∈ s.replays) {request' : Listener × Q} (hleft : request' ∈ ρ.left) (hne : request' ≠ request) :
    ∃ ρ' ∈ (s.ack texts requestId request).replays, request' ∈ ρ'.left := by
  refine ⟨_, mem_map_of_mem hρ, ?_⟩
  split_ifs with hwait
  · obtain ⟨request₀, hout', hhead⟩ := hs.waits ρ hρ requestId hwait
    obtain rfl := Option.some.inj (hout.symm.trans hout')
    obtain ⟨tail, htail⟩ := head?_eq_some_iff.mp hhead
    rw [htail] at hleft ⊢
    exact (mem_cons.mp hleft).resolve_left hne
  · exact hleft

/-- The request is remembered, as is each other one that was. -/
theorem Sound.asked_ack (hs : s.Sound) (hout : s.outstanding.find? requestId = some request) {request' : Listener × Q}
    (h : request' ∈ (s.ack texts requestId request).expected.map Listening.request) :
    request' ∈ (s.ack texts requestId request).remembered.map Remembered.request := by
  by_cases heq : request' = request
  · exact mem_map.mpr ⟨_, (mem_remember hs.nodup).mpr (.inl rfl), heq.symm⟩
  · obtain ⟨y, hy, hyx⟩ := mem_map.mp (((hs.mem_expected_ack hout).mp h).resolve_left heq)
    obtain ⟨r, hr, hry⟩ := mem_map.mp (hs.asked y hy)
    have hrx := hry.trans hyx
    exact mem_map.mpr ⟨r, (mem_remember hs.nodup).mpr (.inr ⟨hr, hrx ▸ heq⟩), hrx⟩

theorem Sound.ack (hs : s.Sound) (hout : s.outstanding.find? requestId = some request) :
    (s.ack texts requestId request).Sound := by
  have hlive := (hs.sent requestId request hout).2
  have hexpected := hs.expected_ack texts hout
  constructor
  case nodup => exact remember_nodup hs.nodup
  case ids =>
    rw [hexpected]
    intro r hr
    rcases (mem_remember hs.nodup).mp hr with rfl | ⟨hr, hne⟩
    · refine ⟨by simpa [Texts.acked] using texts.nonempty request.2, fun id hid => mem_append_right _ ?_⟩
      exact mem_map.mpr ⟨id, hid, rfl⟩
    · obtain ⟨hids, hexp⟩ := hs.ids r hr
      refine ⟨hids, fun id hid => mem_append_left _ ?_⟩
      exact mem_filter.mpr ⟨hexp id hid, decide_eq_true (.inl hne)⟩
  case asked => exact fun x hx => hs.asked_ack hout (mem_map_of_mem hx)
  case heard =>
    rw [hexpected]
    intro x hx
    rcases mem_append.mp hx with hx | hx
    · exact mem_append_left _ (mem_filter.mpr ⟨hs.heard x hx, by simpa using Or.inr hx⟩)
    · exact mem_append_right _ hx
  case left =>
    rw [hexpected]
    intro _ hdue x hx
    rcases mem_append.mp hx with hx | hx
    · obtain ⟨hx, hkeep⟩ := mem_filter.mp hx
      rcases hs.left hlive hdue x hx with hl | ⟨ρ, hρ, hleft⟩
      · exact .inl (mem_append_left _ hl)
      · rcases of_decide_eq_true hkeep with hne | hl
        · exact .inr (hs.left_ack hout hρ hleft hne)
        · exact .inl (mem_append_left _ hl)
    · exact .inl (mem_append_right _ hx)
  case copied =>
    intro ρ hρ request' hleft
    obtain ⟨ρ', hρ', rfl⟩ := mem_map.mp hρ
    refine (hs.mem_expected_ack hout).mpr (.inr (hs.copied ρ' hρ' request' ?_))
    split_ifs at hleft
    · exact mem_of_mem_tail hleft
    · exact hleft
  case waits =>
    intro ρ hρ id hid
    obtain ⟨ρ', hρ', rfl⟩ := mem_map.mp hρ
    by_cases hwait : ρ'.waiting = some requestId
    · rw [if_pos hwait] at hid
      cases hid
    · rw [if_neg hwait] at hid ⊢
      have hne : id ≠ requestId := by
        rintro rfl
        exact hwait hid
      rw [AppClient.ack, find?_erase, if_neg hne]
      exact hs.waits ρ' hρ' id hid
  case sent =>
    intro id request' hid
    simp only [AppClient.ack, find?_erase] at hid
    split_ifs at hid
    exact hs.sent id request' hid
  case asleep => exact fun h => absurd (hlive.symm.trans h) (by decide)

section Unsubscribe

omit [DecidableEq Q] in
theorem mem_expected_unsubscribe {x : Listening Q} : x ∈ (s.unsubscribe listener ids).expected ↔
    x ∈ s.expected ∧ ¬ (x.listener = listener ∧ (ids = [] ∨ x.id ∈ ids)) := by
  simp only [AppClient.unsubscribe, mem_filter, decide_eq_true_eq]

omit [DecidableEq Q] in
theorem mem_listening_unsubscribe {x : Listening Q} : x ∈ (s.unsubscribe listener ids).listening ↔
    x ∈ s.listening ∧ ¬ (x.listener = listener ∧ (ids = [] ∨ x.id ∈ ids)) := by
  simp only [AppClient.unsubscribe, mem_filter, decide_eq_true_eq]
  refine and_congr_right fun hx => not_congr (and_congr_right fun hl => ?_)
  constructor
  · intro hid
    obtain ⟨-, -, -, hid, -⟩ := mem_stopped.mp hid
    exact hid
  · exact fun hid => mem_stopped.mpr ⟨x, hx, hl, hid, rfl⟩

variable (hs : s.Sound) (hord : s.Orderly (.unsubscribe listener ids))

include hs hord

/-- Where an unsubscribe stops anything, all that its listener has listens. -/
theorem Sound.listens (hne : s.stopped listener ids ≠ []) {x : Listening Q} (hx : x ∈ s.expected)
    (hl : x.listener = listener) : x ∈ s.listening := by
  obtain ⟨hfree, ⟨-, hnone⟩ | ⟨hlive, hdue, -⟩⟩ := hord
  · obtain ⟨id, hid⟩ := exists_mem_of_ne_nil _ hne
    obtain ⟨y, hy, hyl, -, -⟩ := mem_stopped.mp hid
    exact absurd hyl (hnone y hy)
  · refine (hs.left hlive hdue x hx).resolve_right ?_
    rintro ⟨ρ, hρ, hleft⟩
    exact hfree ρ hρ _ hleft hl

/-- The ids a request is left with are those its listener still has. -/
theorem Sound.ids_unsubscribe {r : Remembered Q} (hr : r ∈ (s.unsubscribe listener ids).remembered) :
    r.ids ≠ [] ∧ ∀ id ∈ r.ids, ⟨r.listener, r.text, id⟩ ∈ (s.unsubscribe listener ids).expected := by
  obtain ⟨r₀, hr₀, hone⟩ := mem_filterMap.mp hr
  obtain ⟨hne, hexp⟩ := hs.ids r₀ hr₀
  unfold forgetOne at hone
  split_ifs at hone with hl hgone
  · cases hone
    exact ⟨hne, fun id hid => mem_expected_unsubscribe.mpr ⟨hexp id hid, fun h => hl h.1⟩⟩
  · cases hone
    obtain ⟨hstopped, hleft⟩ := not_or.mp hgone
    refine ⟨hleft, fun id hid => ?_⟩
    obtain ⟨hid, hnot⟩ := mem_filter.mp hid
    refine mem_expected_unsubscribe.mpr ⟨hexp id hid, fun h => of_decide_eq_true hnot ?_⟩
    exact mem_stopped.mpr ⟨_, hs.listens hord hstopped (hexp id hid) h.1, h.1, h.2, rfl⟩

/-- A request goes only with all that its listener has of it. -/
theorem Sound.asked_unsubscribe {x : Listening Q} (hx : x ∈ (s.unsubscribe listener ids).expected) :
    x.request ∈ (s.unsubscribe listener ids).remembered.map Remembered.request := by
  obtain ⟨hx, hnot⟩ := mem_expected_unsubscribe.mp hx
  obtain ⟨r, hr, hrx⟩ := mem_map.mp (hs.asked x hx)
  have hrl : r.listener = x.listener := congrArg Prod.fst hrx
  obtain ⟨r', hr'⟩ : ∃ r', forgetOne listener (s.stopped listener ids) r = some r' := by
    unfold forgetOne
    split_ifs with hl hgone
    · exact ⟨r, rfl⟩
    · -- every id of its last ack is stopped, and with them those of its earlier acks
      exfalso
      have hl : r.listener = listener := not_not.mp hl
      have hne : ids ≠ [] := fun h => hnot ⟨hrl ▸ hl, .inl h⟩
      obtain ⟨-, ⟨hnil, -⟩ | ⟨-, -, hnamed⟩⟩ := id hord
      · exact hne hnil
      obtain ⟨⟨y, hy, hyl, hyid⟩, hearlier⟩ := hnamed.resolve_left hne
      have hstopped : s.stopped listener ids ≠ [] := ne_nil_of_mem (mem_stopped.mpr ⟨y, hy, hyl, .inr hyid, rfl⟩)
      have hgone := filter_eq_nil_iff.mp (hgone.resolve_left hstopped)
      have hlistens := hs.listens hord hstopped hx (hrl ▸ hl)
      refine hnot ⟨hrl ▸ hl, .inr (hearlier r hr hl (fun id hid => ?_) x hlistens hrx.symm)⟩
      have hin : id ∈ s.stopped listener ids := by simpa using hgone id hid
      obtain ⟨-, -, -, hid, -⟩ := mem_stopped.mp hin
      exact hid.resolve_left hne
    · exact ⟨_, rfl⟩
  exact mem_map.mpr ⟨r', mem_filterMap.mpr ⟨r, hr, hr'⟩, (request_forgetOne hr').trans hrx⟩

theorem Sound.unsubscribe : (s.unsubscribe listener ids).Sound where
  nodup := forget_nodup hs.nodup
  ids r hr := hs.ids_unsubscribe hord hr
  asked x hx := hs.asked_unsubscribe hord hx
  heard x hx := by
    obtain ⟨hx, hnot⟩ := mem_listening_unsubscribe.mp hx
    exact mem_expected_unsubscribe.mpr ⟨hs.heard x hx, hnot⟩
  left hlive hdue x hx := by
    obtain ⟨hx, hnot⟩ := mem_expected_unsubscribe.mp hx
    exact (hs.left hlive hdue x hx).imp_left fun hl => mem_listening_unsubscribe.mpr ⟨hl, hnot⟩
  copied ρ hρ request hleft := by
    obtain ⟨x, hx, rfl⟩ := mem_map.mp (hs.copied ρ hρ request hleft)
    exact mem_map_of_mem (mem_expected_unsubscribe.mpr ⟨hx, fun h => hord.1 ρ hρ _ hleft h.1⟩)
  waits := hs.waits
  sent := hs.sent
  asleep hlive := by rw [AppClient.unsubscribe, hs.asleep hlive, filter_nil]

end Unsubscribe

omit [DecidableEq Q] in
theorem sound_empty : Sound ({} : AppClient Q) where
  nodup := .nil
  ids := nofun
  asked := nofun
  heard := nofun
  left := nofun
  copied := nofun
  waits := nofun
  sent := nofun
  asleep _ := rfl

omit [DecidableEq Q] in
/-- A request is sent under a new id, by a listener or by one of the replays. -/
theorem Sound.send (hs : s.Sound) (hlive : s.live = true) (hnew : requestId ∉ s.used)
    {replays : List (Replaying Q)} (hleft : ∀ ρ ∈ s.replays, ∀ x ∈ ρ.left, ∃ ρ' ∈ replays, x ∈ ρ'.left)
    (hcopied : ∀ ρ ∈ replays, ∃ ρ' ∈ s.replays, ρ.left = ρ'.left)
    (hwaits : ∀ ρ ∈ replays, ρ ∈ s.replays ∨ ρ.waiting = some requestId ∧ ρ.left.head? = some request) :
    { s.send requestId request with replays := replays }.Sound := by
  refine { hs with left := ?_, copied := ?_, waits := ?_, sent := ?_ }
  · intro _ hdue x hx
    refine (hs.left hlive hdue x hx).imp_right ?_
    rintro ⟨ρ, hρ, hx⟩
    exact hleft ρ hρ _ hx
  · intro ρ hρ request' hreq
    obtain ⟨ρ', hρ', heq⟩ := hcopied ρ hρ
    exact hs.copied ρ' hρ' request' (heq ▸ hreq)
  · intro ρ hρ id hid
    simp only [AppClient.send, find?_insert]
    rcases hwaits ρ hρ with hρ | ⟨hwait, hhead⟩
    · obtain ⟨request', hout, hhead⟩ := hs.waits ρ hρ id hid
      have hne : id ≠ requestId := by
        rintro rfl
        exact hnew (hs.sent id request' hout).1
      exact ⟨request', by rwa [if_neg hne], hhead⟩
    · rw [hid] at hwait
      exact ⟨request, by rw [if_pos (Option.some.inj hwait)], hhead⟩
  · intro id request' hid
    simp only [AppClient.send, find?_insert] at hid
    split_ifs at hid with heq
    · exact ⟨heq ▸ mem_cons_self, hlive⟩
    · exact ⟨mem_cons_of_mem _ (hs.sent id request' hid).1, hlive⟩

/-- A replay goes on: it ends, asks for its next request, or fails it for want of a session. -/
theorem Sound.next (hs : s.Sound) {ρ : Replaying Q} (hρ : ρ ∈ s.replays) (hnew : requestId ∉ s.used)
    (hord : s.Orderly (.next ρ requestId)) : (s.next ρ requestId ρ.left).Sound := by
  have hothers : ∀ ρ' ∈ s.replays, ρ' ≠ ρ → ρ' ∈ s.replays.erase ρ := by
    intro ρ' h hne
    exact (mem_erase_of_ne hne).mpr h
  cases hleft : ρ.left with
  | nil =>
    -- a replay at its end asks for nothing
    refine { hs with
      left := ?_
      copied := fun ρ' h => hs.copied ρ' (mem_of_mem_erase h)
      waits := fun ρ' h => hs.waits ρ' (mem_of_mem_erase h) }
    intro hlive hdue x hx
    refine (hs.left hlive hdue x hx).imp_right ?_
    rintro ⟨ρ', hρ', hx⟩
    refine ⟨ρ', hothers ρ' hρ' fun heq => ?_, hx⟩
    rw [heq, hleft] at hx
    cases hx
  | cons request left =>
    cases hlive : s.live with
    | true =>
      rw [AppClient.next, if_pos hlive]
      refine hs.send hlive hnew ?_ ?_ ?_
      · intro ρ' hρ' x hx
        by_cases heq : ρ' = ρ
        · exact ⟨_, mem_cons_self, hleft ▸ heq ▸ hx⟩
        · exact ⟨ρ', mem_cons_of_mem _ (hothers ρ' hρ' heq), hx⟩
      · intro ρ' hρ'
        rcases mem_cons.mp hρ' with rfl | hρ'
        · exact ⟨ρ, hρ, hleft.symm⟩
        · exact ⟨ρ', mem_of_mem_erase hρ', rfl⟩
      · intro ρ' hρ'
        rcases mem_cons.mp hρ' with rfl | hρ'
        · exact .inr ⟨rfl, rfl⟩
        · exact .inl (mem_of_mem_erase hρ')
    | false =>
      rw [AppClient.next, if_neg (by simp [hlive])]
      have hfailures : ∀ r ∈ s.remembered, r.request = request → r.failures + 1 < maxReplayFailures :=
        fun r hr hreq => hord hlive r hr (by simp [hleft, hreq])
      have hkept := hs.of_reset (reset_noteReplayFailure hfailures)
      refine { hkept with left := fun h => absurd (hlive.symm.trans h) (by decide), copied := ?_, waits := ?_ }
      · intro ρ' hρ'
        rcases mem_cons.mp hρ' with rfl | hρ'
        · exact fun request' hreq => hs.copied ρ hρ request' (hleft ▸ mem_cons_of_mem _ hreq)
        · exact hs.copied ρ' (mem_of_mem_erase hρ')
      · intro ρ' hρ'
        rcases mem_cons.mp hρ' with rfl | hρ'
        · exact nofun
        · exact hs.waits ρ' (mem_of_mem_erase hρ')

omit [DecidableEq Q] in
/-- The copy has every request there is. -/
theorem Sound.startReplay (hs : s.Sound) : s.startReplay.Sound := by
  have hmem : ∀ ρ ∈ s.startReplay.replays, ρ = ⟨s.remembered.map Remembered.request, none⟩ ∨ ρ ∈ s.replays := by
    intro ρ hρ
    rw [AppClient.startReplay] at hρ
    split_ifs at hρ
    · exact .inr hρ
    · exact mem_cons.mp hρ
  refine { hs with left := ?_, copied := ?_, waits := ?_ }
  · intro _ _ x hx
    have hin := hs.asked x hx
    refine .inr ⟨⟨s.remembered.map Remembered.request, none⟩, ?_, hin⟩
    rw [AppClient.startReplay, if_neg]
    · exact mem_cons_self
    · intro h
      simp [h] at hin
  · intro ρ hρ request hreq
    rcases hmem ρ hρ with rfl | hρ
    · obtain ⟨r, hr, rfl⟩ := mem_map.mp hreq
      obtain ⟨hne, hexp⟩ := hs.ids r hr
      obtain ⟨id, hid⟩ := exists_mem_of_ne_nil _ hne
      exact mem_map.mpr ⟨_, hexp id hid, rfl⟩
    · exact hs.copied ρ hρ request hreq
  · intro ρ hρ id hid
    rcases hmem ρ hρ with rfl | hρ
    · cases hid
    · exact hs.waits ρ hρ id hid

/-- What fails with the socket is not for the third time. -/
theorem Sound.close (hs : s.Sound) (hord : s.Orderly .close) : s.close.Sound := by
  have hkept := hs.of_reset (reset_foldl hord)
  have hreplays : ∀ ρ ∈ s.close.replays, ρ.waiting = none ∧ ∃ ρ' ∈ s.replays, ∀ x ∈ ρ.left, x ∈ ρ'.left := by
    intro ρ hρ
    obtain ⟨ρ', hρ', rfl⟩ := mem_map.mp hρ
    split_ifs with hwait
    · exact ⟨rfl, ρ', hρ', fun x => mem_of_mem_tail⟩
    · exact ⟨by simpa using hwait, ρ', hρ', fun x hx => hx⟩
  refine { hkept with heard := nofun, left := nofun, copied := ?_, waits := ?_, sent := nofun, asleep := fun _ => rfl }
  · intro ρ hρ request hreq
    obtain ⟨-, ρ', hρ', hsub⟩ := hreplays ρ hρ
    exact hs.copied ρ' hρ' request (hsub request hreq)
  · intro ρ hρ id hid
    rw [(hreplays ρ hρ).1] at hid
    cases hid

omit [DecidableEq Q] in
theorem Sound.refuse (hs : s.Sound) (hno : ∀ ρ ∈ s.replays, ρ.waiting ≠ some requestId) :
    { s with outstanding := s.outstanding.erase requestId }.Sound := by
  refine { hs with waits := ?_, sent := ?_ }
  · intro ρ hρ id hid
    obtain ⟨request, hout, hhead⟩ := hs.waits ρ hρ id hid
    refine ⟨request, ?_, hhead⟩
    rw [find?_erase, if_neg]
    · exact hout
    · rintro rfl
      exact hno ρ hρ hid
  · intro id request hid
    exact hs.sent id request (find?_erase_eq_some.mp hid).2

theorem Sound.step (hs : s.Sound) {e : ClientEvent Q} (hord : s.Orderly e) (hstep : clientStep texts s e = some t) :
    t.Sound := by
  cases e with
  | connect =>
    obtain ⟨hlive, rfl⟩ := of_unless hstep
    refine { hs with left := fun _ h => absurd h (Nat.succ_ne_zero _), sent := ?_, asleep := nofun }
    intro id request hid
    exact absurd (hs.sent id request hid).2 hlive
  | replay =>
    obtain ⟨-, rfl⟩ := of_guard hstep
    exact hs.startReplay
  | close =>
    obtain ⟨-, rfl⟩ := of_guard hstep
    exact hs.close hord
  | subscribe requestId listener text =>
    obtain ⟨⟨hlive, hnew⟩, rfl⟩ := of_guard hstep
    exact hs.send hlive hnew (fun ρ h x hx => ⟨ρ, h, hx⟩) (fun ρ h => ⟨ρ, h, rfl⟩) fun ρ h => .inl h
  | ack requestId =>
    simp only [clientStep, Option.map_eq_some_iff] at hstep
    obtain ⟨request, hout, rfl⟩ := hstep
    exact hs.ack hout
  | refuse requestId =>
    obtain ⟨⟨-, hno⟩, rfl⟩ := of_guard hstep
    exact hs.refuse hno
  | unsubscribe listener ids =>
    cases hstep
    exact hs.unsubscribe hord
  | next ρ requestId =>
    obtain ⟨⟨hρ, -, hnew⟩, rfl⟩ := of_guard hstep
    exact hs.next hρ hnew hord

end AppClient

end OpcHub.Sockets
