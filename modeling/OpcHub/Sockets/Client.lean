import OpcHub.Sockets.Server
import OpcHub.Lib.OrdMap

/-! The app's side of its socket to the server. One loop handles both the server's own
messages and those of a payload the server forwards, unpacked from an envelope. The
identity of a forwarded query is the envelope's and can only narrow. The other messages
of a payload are handled as if the server itself had sent them, under the request id of
the forward, which is drawn from another counter than the app's own requests. -/

namespace OpcHub.Sockets

open Lib List Option

/-- A message of `FromServer::Transmission`, with what its handling reads. -/
inductive FromServer where
  | ack (id : UInt32)
  | clientQuery (text vars : String) (executer : UserPK) (raw : Bool)
  | connectionInfo
  | jwt
  | sessionInfo
  | queryResult
  | subscriptionAck
  | subscription (text : String)
  | exception
  | execute (user : UserPK) (transmission : Bytes)
  | executeAnonymous (transmission : Bytes)
  | executeResponse
  | traces
  | notSet
  deriving DecidableEq

structure ServerMessage where
  requestId : ℕ
  value : FromServer
  deriving DecidableEq

/-- The parsers: a transmission's, of json to an object, and of a query. -/
structure ServerParsers where
  deserialize : Bytes → Option (List ServerMessage)
  json : String → Bool
  query : String → String → Bool

/-- What the handle of a pending request waits for. -/
inductive Awaits where
  | connectionInfo
  | jwt
  | sessionInfo
  | value
  | array
  deriving DecidableEq

/-- A subscription asked for and not acknowledged: its listener, and the ids of its subscriptions. -/
structure SubscriptionRequest where
  listener : ℕ
  subscriptions : List ℕ
  deriving DecidableEq

/-- A client query that was run, and the envelopes around it, the outermost first. -/
structure RunQuery where
  executer : UserPK
  envelopes : List Envelope
  deriving DecidableEq

structure AppSocket where
  id : UInt32 := 0
  tasks : OrdMap ℕ Awaits := ∅
  subscriptionRequests : OrdMap ℕ SubscriptionRequest := ∅
  subs : OrdMap ℕ (List ℕ) := ∅
  /-- The client queries run, and the requests an exception was written for. -/
  queries : List RunQuery := []
  exceptions : List ℕ := []
  /-- The requests resumed and failed, the subscriptions registered, and the listeners told. -/
  resumed : List ℕ := []
  failed : List ℕ := []
  registered : List (ℕ × ℕ) := []
  delivered : List (ℕ × ℕ) := []

/-- The arguments of ProcessTransmission, and the envelopes it is in. -/
structure Call where
  user : Option UserPK
  clientRequestId : Option ℕ
  depth : ℕ
  envelopes : List Envelope

namespace FromServer

/-- The kinds that answer a request of the app. -/
def isResponse : FromServer → Bool
  | .connectionInfo => true
  | .exception => true
  | .jwt => true
  | .queryResult => true
  | .sessionInfo => true
  | .subscriptionAck => true
  | .ack _ => false
  | .clientQuery _ _ _ _ => false
  | .execute _ _ => false
  | .executeAnonymous _ => false
  | .executeResponse => false
  | .subscription _ => false
  | .traces => false
  | .notSet => false

/-- The envelope, and the transmission it holds. -/
def opens : FromServer → Option (Envelope × Bytes)
  | .execute user bytes => some (.execute user, bytes)
  | .executeAnonymous bytes => some (.anonymous, bytes)
  | _ => none

def isAck : FromServer → Bool
  | .ack _ => true
  | _ => false

/-- The kinds that answer a request or tell a listener. -/
def disturbs (p : ServerParsers) : FromServer → Bool
  | .subscription text => p.json text
  | value => value.isResponse

end FromServer

namespace AppSocket

def maxExecuteDepth : ℕ := 4

def popTask (s : AppSocket) (requestId : ℕ) : AppSocket × Option Awaits :=
  ({ s with tasks := s.tasks.erase requestId }, s.tasks.find? requestId)

/-- A handle of another type is not resumed. -/
def resume (s : AppSocket) (requestId : ℕ) (task : Option Awaits) (type : Awaits) : AppSocket :=
  if task = some type then { s with resumed := s.resumed ++ [requestId] } else s

def fail (s : AppSocket) (requestId : ℕ) (task : Option Awaits) : AppSocket :=
  if task.isSome then { s with failed := s.failed ++ [requestId] } else s

def writeException (s : AppSocket) (requestId : ℕ) : AppSocket := { s with exceptions := s.exceptions ++ [requestId] }

def listenRemote (s : AppSocket) (listener id : ℕ) : AppSocket :=
  { s with
    subs := s.subs.insert id (((s.subs.find? id).getD []).insert listener)
    registered := s.registered ++ [(listener, id)] }

def clientQuery (p : ServerParsers) (s : AppSocket) (c : Call) (text vars : String) (executer : UserPK) (requestId : ℕ) :
    AppSocket :=
  if (vars = "" ∨ p.json vars) ∧ p.query text vars then
    { s with queries := s.queries ++ [{ executer := executer, envelopes := c.envelopes }] }
  else s.writeException requestId

/-- Told to the listeners of the subscription, if its text is an object. -/
def onMessage (p : ServerParsers) (s : AppSocket) (text : String) (requestId : ℕ) : AppSocket :=
  if p.json text then
    { s with delivered := s.delivered ++ ((s.subs.find? requestId).getD []).map fun listener => (listener, requestId) }
  else s

def subscriptionAck (s : AppSocket) (requestId : ℕ) (task : Option Awaits) : AppSocket :=
  (s.subscriptionRequests.find? requestId).elim (s.fail requestId task) fun request =>
    (request.subscriptions.foldl (fun (s : AppSocket) id => s.listenRemote request.listener (if id = 0 then requestId else id))
      { s with subscriptionRequests := s.subscriptionRequests.erase requestId }).resume requestId task .array

/-- The switch, but for envelopes. -/
def processValue (p : ServerParsers) (s : AppSocket) (c : Call) (requestId : ℕ) (task : Option Awaits) : FromServer → AppSocket
  | .ack id => { s with id := id }
  | .clientQuery text vars executer _ =>
    if c.depth = 0 then s.clientQuery p c text vars executer requestId
    else if executer ≠ 0 ∧ executer ≠ c.user.getD 0 then s.writeException requestId
    else s.clientQuery p c text vars (c.user.getD 0) requestId
  | .connectionInfo => s.resume requestId task .connectionInfo
  | .jwt => s.resume requestId task .jwt
  | .sessionInfo => s.resume requestId task .sessionInfo
  | .queryResult => s.resume requestId task .value
  | .subscriptionAck => s.subscriptionAck requestId task
  | .subscription text => s.onMessage p text requestId
  | .exception => { s with subscriptionRequests := s.subscriptionRequests.erase requestId }.fail requestId task
  | .execute _ _ => s
  | .executeAnonymous _ => s
  | .executeResponse => s
  | .traces => s
  | .notSet => s

/-- A request's task is popped for the kinds that answer one. -/
def processPlain (p : ServerParsers) (c : Call) (s : AppSocket) (m : ServerMessage) : AppSocket :=
  let requestId := c.clientRequestId.getD m.requestId
  if requestId ≠ 0 ∧ m.value.isResponse then
    (s.popTask requestId).1.processValue p c requestId (s.popTask requestId).2 m.value
  else s.processValue p c requestId none m.value

/-- The call an envelope's transmission is processed by: only the server's own envelope names a user. -/
def enter (c : Call) (envelope : Envelope) (requestId : ℕ) : Call where
  user := if envelope = .anonymous then none else if c.depth ≠ 0 then c.user else envelope.user
  clientRequestId := some requestId
  depth := c.depth + 1
  envelopes := c.envelopes ++ [envelope]

/-- One turn of the loop; `nested` processes an envelope's transmission. -/
def processMessage (p : ServerParsers) (c : Call) (nested : Call → List ServerMessage → AppSocket → AppSocket)
    (s : AppSocket) (m : ServerMessage) : AppSocket :=
  m.value.opens.elim (processPlain p c s m) fun e =>
    if c.depth + 1 > maxExecuteDepth then s.writeException (c.clientRequestId.getD m.requestId)
    else (p.deserialize e.2).elim (s.writeException (c.clientRequestId.getD m.requestId)) fun messages =>
      nested (enter c e.1 (c.clientRequestId.getD m.requestId)) messages s

/-- The loop, with `room` levels that envelopes may still nest. -/
def processTransmission (p : ServerParsers) : ℕ → Call → List ServerMessage → AppSocket → AppSocket
  | 0, c, t, s => t.foldl (processMessage p c fun _ _ s => s) s
  | room + 1, c, t, s => t.foldl (processMessage p c (processTransmission p room)) s

def onRead (p : ServerParsers) (s : AppSocket) (t : List ServerMessage) : AppSocket :=
  processTransmission p maxExecuteDepth { user := none, clientRequestId := none, depth := 0, envelopes := [] } t s

end AppSocket

/-- `ExecuteRequest`, which the server writes for a forward: anonymous, without a user. -/
def executeRequest (serverRequestId : ℕ) (user : UserPK) (bytes : Bytes) : ServerMessage :=
  ⟨serverRequestId, if user = 0 then .executeAnonymous bytes else .execute user bytes⟩

/-- A message is in a transmission, in the envelopes of `path`, the outermost first. -/
inductive Inside (p : ServerParsers) : List ServerMessage → List Envelope → ServerMessage → Prop where
  | here {t : List ServerMessage} {m : ServerMessage} (hm : m ∈ t) : Inside p t [] m
  | within {t u : List ServerMessage} {m n : ServerMessage} {e : Envelope} {bytes : Bytes} {path : List Envelope} (hm : m ∈ t)
      (hopens : m.value.opens = some (e, bytes)) (hu : p.deserialize bytes = some u) (hn : Inside p u path n) :
      Inside p t (e :: path) n

namespace AppSocket

variable {p : ServerParsers} {c : Call} {room id : ℕ} {t : List ServerMessage} {m : ServerMessage} {s : AppSocket}

/-- The call a message under `path` is processed by. -/
def within (c : Call) (path : List Envelope) (id : ℕ) : Call := path.foldl (fun c e => enter c e id) c

section Induction

variable {R : AppSocket → AppSocket → Prop}

theorem foldl_rel {f : AppSocket → ServerMessage → AppSocket} (hrefl : ∀ s, R s s) (htrans : ∀ {s u v}, R s u → R u v → R s v)
    (hf : ∀ m ∈ t, ∀ s, R s (f s m)) (s : AppSocket) : R s (t.foldl f s) := by
  induction t generalizing s with
  | nil => exact hrefl s
  | cons m t ih =>
    obtain ⟨hm, ht⟩ := forall_mem_cons.mp hf
    exact htrans (hm s) (ih ht (f s m))

theorem processMessage_rel {nested : Call → List ServerMessage → AppSocket → AppSocket} (hid : c.clientRequestId = some id)
    (hexception : ∀ s, R s (s.writeException id)) (hplain : m.value.opens = none → ∀ s, R s (processPlain p c s m))
    (hnested : ∀ e bytes u, m.value.opens = some (e, bytes) → p.deserialize bytes = some u → ∀ s, R s (nested (enter c e id) u s))
    (s : AppSocket) : R s (processMessage p c nested s m) := by
  unfold processMessage
  rw [hid]
  cases ho : m.value.opens with
  | none => exact hplain ho s
  | some e =>
    dsimp only [Option.elim]
    split_ifs
    · exact hexception s
    · cases hu : p.deserialize e.2 with
      | none => exact hexception s
      | some u => exact hnested e.1 e.2 u ho hu s

/-- What every plain message inside a transmission does, and each exception, the processing of it does. -/
theorem processTransmission_rel (hrefl : ∀ s, R s s) (htrans : ∀ {s u v}, R s u → R u v → R s v)
    (hexception : ∀ s, R s (s.writeException id)) (hid : c.clientRequestId = some id)
    (hplain : ∀ path m, Inside p t path m → path.length ≤ room → m.value.opens = none →
      ∀ s, R s (processPlain p (within c path id) s m)) (s : AppSocket) :
    R s (processTransmission p room c t s) := by
  induction room generalizing c t s with
  | zero =>
    refine foldl_rel hrefl htrans (fun m hm => processMessage_rel hid hexception ?_ fun _ _ _ _ _ => hrefl) s
    exact hplain [] m (.here hm) (Nat.le_refl 0)
  | succ room ih =>
    refine foldl_rel hrefl htrans (fun m hm => processMessage_rel hid hexception ?_ fun e bytes u ho hu => ?_) s
    · exact hplain [] m (.here hm) (Nat.zero_le _)
    · refine ih rfl fun path n hn hlen => ?_
      exact hplain (e :: path) n (.within hm ho hu hn) (Nat.succ_le_succ hlen)

end Induction

/-- What a payload does to the app beyond the queries it runs. -/
def harms (s : AppSocket) : ℕ := s.resumed.length + s.failed.length + s.registered.length + s.delivered.length

/-- Two states that differ at most in the socket's id, the queries run and the exceptions written. -/
def Same (s u : AppSocket) : Prop := ∃ id queries exceptions, u = { s with id, queries, exceptions }

theorem Same.refl (s : AppSocket) : Same s s := ⟨_, _, _, rfl⟩

theorem Same.trans {s u v : AppSocket} : Same s u → Same u v → Same s v := by
  rintro ⟨_, _, _, rfl⟩ ⟨_, _, _, rfl⟩
  exact ⟨_, _, _, rfl⟩

theorem Same.clientQuery (s : AppSocket) (text vars : String) (executer : UserPK) (requestId : ℕ) :
    Same s (s.clientQuery p c text vars executer requestId) := by
  unfold AppSocket.clientQuery writeException
  split_ifs <;> exact ⟨_, _, _, rfl⟩

open FromServer

/-- A plain message that answers no request and tells no listener leaves all that as it is. -/
theorem same_processPlain (hm : m.value.disturbs p = false) (s : AppSocket) : Same s (processPlain p c s m) := by
  unfold processPlain
  cases hv : m.value with
  | ack id =>
    simp only [isResponse, Bool.false_eq_true, and_false]
    exact ⟨_, _, _, rfl⟩
  | clientQuery text vars executer raw =>
    simp only [isResponse, Bool.false_eq_true, and_false, if_false, processValue]
    split_ifs
    · exact .clientQuery s text vars executer _
    · exact ⟨_, _, _, rfl⟩
    · exact .clientQuery s text vars _ _
  | subscription text =>
    rw [hv] at hm
    simp only [isResponse, Bool.false_eq_true, and_false, if_false, processValue, onMessage]
    rw [if_neg (by simpa [disturbs] using hm)]
    exact .refl s
  | connectionInfo | jwt | sessionInfo | queryResult | subscriptionAck | exception => simp [hv, disturbs, isResponse] at hm
  | _ =>
    simp only [isResponse, Bool.false_eq_true, and_false]
    exact .refl s

/-- Answers and listeners told add to the harm, and leave the id and the queries. -/
structure Grows (s u : AppSocket) : Prop where
  id : u.id = s.id
  queries : u.queries = s.queries
  harms : s.harms ≤ u.harms

namespace Grows

theorem refl (s : AppSocket) : Grows s s := ⟨rfl, rfl, Nat.le_refl _⟩

theorem trans {s u v : AppSocket} (h : Grows s u) (h' : Grows u v) : Grows s v :=
  ⟨h'.id.trans h.id, h'.queries.trans h.queries, h.harms.trans h'.harms⟩

theorem resume (s : AppSocket) (requestId : ℕ) (task : Option Awaits) (type : Awaits) : Grows s (s.resume requestId task type) := by
  unfold AppSocket.resume
  split_ifs
  · exact ⟨rfl, rfl, by simp only [AppSocket.harms, length_append]; omega⟩
  · exact refl s

theorem fail (s : AppSocket) (requestId : ℕ) (task : Option Awaits) : Grows s (s.fail requestId task) := by
  unfold AppSocket.fail
  split_ifs
  · exact ⟨rfl, rfl, by simp only [AppSocket.harms, length_append]; omega⟩
  · exact refl s

theorem listenRemote (s : AppSocket) (listener id : ℕ) : Grows s (s.listenRemote listener id) :=
  ⟨rfl, rfl, by simp only [AppSocket.harms, AppSocket.listenRemote, length_append]; omega⟩

theorem foldl_listenRemote (ids : List ℕ) (listener requestId : ℕ) (s : AppSocket) :
    Grows s (ids.foldl (fun (s : AppSocket) id => s.listenRemote listener (if id = 0 then requestId else id)) s) := by
  induction ids generalizing s with
  | nil => exact refl s
  | cons id ids ih => exact (listenRemote s listener _).trans (ih _)

theorem subscriptionAck (s : AppSocket) (requestId : ℕ) (task : Option Awaits) : Grows s (s.subscriptionAck requestId task) := by
  unfold AppSocket.subscriptionAck
  cases s.subscriptionRequests.find? requestId with
  | none => exact fail s requestId task
  | some request =>
    refine trans (trans ?_ (foldl_listenRemote request.subscriptions request.listener requestId _)) (resume _ requestId task .array)
    exact ⟨rfl, rfl, Nat.le_refl _⟩

theorem onMessage (s : AppSocket) (text : String) (requestId : ℕ) : Grows s (s.onMessage p text requestId) := by
  unfold AppSocket.onMessage
  split_ifs
  · exact ⟨rfl, rfl, by simp only [AppSocket.harms, length_append]; omega⟩
  · exact refl s

end Grows

/-- A query of a call inside an envelope runs as the call's user. -/
structure Queries (c : Call) (s u : AppSocket) : Prop where
  id : u.id = s.id
  harms : u.harms = s.harms
  queries : u.queries = s.queries ∨ u.queries = s.queries ++ [{ executer := c.user.getD 0, envelopes := c.envelopes }]

/-- What the switch can do: name the socket, answer or tell, or run a query. -/
theorem processValue_cases (hdepth : c.depth ≠ 0) (requestId : ℕ) (task : Option Awaits) (value : FromServer) (s : AppSocket) :
    (∃ name, value = .ack name ∧ s.processValue p c requestId task value = { s with id := name }) ∨
      value.isAck = false ∧ (Grows s (s.processValue p c requestId task value) ∨ Queries c s (s.processValue p c requestId task value)) := by
  cases value with
  | ack id => exact .inl ⟨id, rfl, rfl⟩
  | clientQuery text vars executer raw =>
    refine .inr ⟨rfl, .inr ?_⟩
    simp only [processValue, if_neg hdepth, clientQuery]
    split_ifs
    · exact ⟨rfl, rfl, .inl rfl⟩
    · exact ⟨rfl, rfl, .inr rfl⟩
    · exact ⟨rfl, rfl, .inl rfl⟩
  | connectionInfo | jwt | sessionInfo | queryResult => exact .inr ⟨rfl, .inl (.resume s requestId task _)⟩
  | subscriptionAck => exact .inr ⟨rfl, .inl (.subscriptionAck s requestId task)⟩
  | subscription text => exact .inr ⟨rfl, .inl (.onMessage s text requestId)⟩
  | exception =>
    refine .inr ⟨rfl, .inl (.trans ?_ (.fail _ requestId task))⟩
    exact ⟨rfl, rfl, Nat.le_refl _⟩
  | _ => exact .inr ⟨rfl, .inl (.refl s)⟩

theorem processPlain_ack {name : UInt32} (hv : m.value = .ack name) (s : AppSocket) : (processPlain p c s m).id = name := by
  unfold processPlain
  rw [hv]
  simp only [isResponse, Bool.false_eq_true, and_false, if_false, processValue]

/-- The same of a plain message, its request's task popped or not. -/
theorem processPlain_cases (hdepth : c.depth ≠ 0) (m : ServerMessage) (s : AppSocket) :
    (∃ name, m.value = .ack name ∧ (processPlain p c s m).id = name ∧ (processPlain p c s m).harms = s.harms ∧
        (processPlain p c s m).queries = s.queries) ∨
      m.value.isAck = false ∧ (Grows s (processPlain p c s m) ∨ Queries c s (processPlain p c s m)) := by
  unfold processPlain
  dsimp only
  set requestId := c.clientRequestId.getD m.requestId
  split_ifs
  · rcases processValue_cases hdepth requestId (s.popTask requestId).2 m.value (s.popTask requestId).1 with
      ⟨name, hv, he⟩ | ⟨hv, hg | hq⟩
    · exact .inl ⟨name, hv, by rw [he], by rw [he]; rfl, by rw [he]; rfl⟩
    · exact .inr ⟨hv, .inl { hg with }⟩
    · exact .inr ⟨hv, .inr { hq with }⟩
  · rcases processValue_cases hdepth requestId none m.value s with ⟨name, hv, he⟩ | ⟨hv, hg | hq⟩
    · exact .inl ⟨name, hv, by rw [he], by rw [he]; rfl, by rw [he]⟩
    · exact .inr ⟨hv, .inl hg⟩
    · exact .inr ⟨hv, .inr hq⟩

theorem within_depth (c : Call) (path : List Envelope) (id : ℕ) : (within c path id).depth = c.depth + path.length := by
  induction path generalizing c with
  | nil => rfl
  | cons e path ih =>
    have hstep : within c (e :: path) id = within (enter c e id) path id := rfl
    rw [hstep, ih, length_cons]
    simp only [enter]
    omega

/-- The call's user is the forward's or nobody, and nobody inside an anonymous envelope. -/
structure Narrow (user : UserPK) (c : Call) : Prop where
  depth : c.depth ≠ 0
  user : c.user.getD 0 = user ∨ c.user = none
  anonymous : .anonymous ∈ c.envelopes → c.user = none

variable {user : UserPK}

theorem Narrow.within (h : Narrow user c) (path : List Envelope) (id : ℕ) : Narrow user (within c path id) := by
  induction path generalizing c with
  | nil => exact h
  | cons e path ih =>
    refine ih ⟨Nat.succ_ne_zero _, ?_, fun hm => ?_⟩
    · simp only [enter, if_pos h.depth]
      split_ifs
      · exact .inr rfl
      · exact h.user
    · simp only [enter, if_pos h.depth]
      split_ifs with he
      · rfl
      · have hmem := mem_append.mp hm
        exact h.anonymous (hmem.resolve_right fun hm => he (mem_singleton.mp hm).symm)

/-- A query runs as the forward's user or as nobody, and as nobody inside an anonymous envelope. -/
def RunsNarrow (user : UserPK) (q : RunQuery) : Prop :=
  (q.executer = user ∨ q.executer = 0) ∧ (.anonymous ∈ q.envelopes → q.executer = 0)

theorem queries_narrow (hc : Narrow user c) (hid : c.clientRequestId = some id) (s : AppSocket) :
    ∃ queries, (processTransmission p room c t s).queries = s.queries ++ queries ∧ ∀ q ∈ queries, RunsNarrow user q := by
  refine processTransmission_rel
    (R := fun s u => ∃ queries, u.queries = s.queries ++ queries ∧ ∀ q ∈ queries, RunsNarrow user q)
    (fun s => ⟨[], by simp, by simp⟩) ?_ (fun s => ⟨[], by simp [writeException], by simp⟩) hid (fun path m _ _ _ s => ?_) s
  · rintro s u v ⟨qs, hqs, hn⟩ ⟨qs', hqs', hn'⟩
    refine ⟨qs ++ qs', by rw [hqs', hqs, append_assoc], fun q hq => ?_⟩
    exact (mem_append.mp hq).elim (hn q) (hn' q)
  · have hwithin := hc.within path id
    rcases processPlain_cases hwithin.depth m s with ⟨name, -, -, -, hq⟩ | ⟨-, hg | hq⟩
    · exact ⟨[], by rw [hq, append_nil], by simp⟩
    · exact ⟨[], by rw [hg.queries, append_nil], by simp⟩
    · rcases hq.queries with hq | hq
      · exact ⟨[], by rw [hq, append_nil], by simp⟩
      · refine ⟨_, hq, forall_mem_singleton.mpr ⟨?_, fun hm => ?_⟩⟩
        · exact hwithin.user.imp_right fun hu => by rw [hu]; rfl
        · rw [hwithin.anonymous hm]
          rfl

theorem harms_le (hc : c.depth ≠ 0) (hid : c.clientRequestId = some id) (s : AppSocket) :
    s.harms ≤ (processTransmission p room c t s).harms := by
  refine processTransmission_rel (R := fun s u => s.harms ≤ u.harms) (fun s => Nat.le_refl _) Nat.le_trans
    (fun s => Nat.le_refl _) hid (fun path m _ _ _ s => ?_) s
  have hdepth : (within c path id).depth ≠ 0 := by rw [within_depth]; omega
  rcases processPlain_cases hdepth m s with ⟨name, -, -, hh, -⟩ | ⟨-, hg | hq⟩
  · exact hh.ge
  · exact hg.harms
  · exact hq.harms.ge

theorem same_of_not_disturbs (hid : c.clientRequestId = some id)
    (h : ∀ path m, Inside p t path m → path.length ≤ room → m.value.disturbs p = false) (s : AppSocket) :
    Same s (processTransmission p room c t s) :=
  processTransmission_rel Same.refl Same.trans (fun _ => ⟨_, _, _, rfl⟩) hid
    (fun path m hm hlen _ s => same_processPlain (h path m hm hlen) s) s

theorem id_of_not_ack (hc : c.depth ≠ 0) (hid : c.clientRequestId = some id)
    (h : ∀ path m, Inside p t path m → path.length ≤ room → m.value.isAck = false) (s : AppSocket) :
    (processTransmission p room c t s).id = s.id := by
  refine processTransmission_rel (R := fun s u => u.id = s.id) (fun _ => rfl) (fun h h' => h'.trans h) (fun _ => rfl) hid
    (fun path m hm hlen _ s => ?_) s
  have hdepth : (within c path id).depth ≠ 0 := by rw [within_depth]; omega
  rcases processPlain_cases hdepth m s with ⟨name, hv, -⟩ | ⟨-, hg | hq⟩
  · simpa [hv, isAck] using h path m hm hlen
  · exact hg.id
  · exact hq.id

theorem processTransmission_cons (m : ServerMessage) (t : List ServerMessage) (s : AppSocket) :
    processTransmission p room c (m :: t) s = processTransmission p room c t (processTransmission p room c [m] s) := by
  cases room <;> rfl

theorem processTransmission_plain (hm : m.value.opens = none) (s : AppSocket) :
    processTransmission p room c [m] s = processPlain p c s m := by
  cases room <;> simp [processTransmission, processMessage, hm]

theorem processTransmission_opens {e : Envelope} {bytes : Bytes} {u : List ServerMessage} (hid : c.clientRequestId = some id)
    (hdepth : c.depth + 1 ≤ maxExecuteDepth) (hm : m.value.opens = some (e, bytes)) (hu : p.deserialize bytes = some u)
    (s : AppSocket) :
    processTransmission p (room + 1) c [m] s = processTransmission p room (enter c e id) u s := by
  simp [processTransmission, processMessage, hm, hu, hid, Nat.not_lt.mpr hdepth]

theorem inside_cons {path : List Envelope} {n : ServerMessage} (h : Inside p (m :: t) path n) :
    Inside p [m] path n ∨ Inside p t path n := by
  cases h with
  | here hm =>
    rcases mem_cons.mp hm with rfl | hm
    · exact .inl (.here (mem_singleton_self _))
    · exact .inr (.here hm)
  | within hm ho hu hn =>
    rcases mem_cons.mp hm with rfl | hm
    · exact .inl (.within (mem_singleton_self _) ho hu hn)
    · exact .inr (.within hm ho hu hn)

theorem opens_of_disturbs {value : FromServer} (h : value.disturbs p = true ∨ value.isAck = true) : value.opens = none := by
  cases value <;> first | rfl | simp [disturbs, isResponse, isAck] at h

/-- An app with some pending requests and listeners is harmed. -/
def Harms (f : AppSocket → AppSocket) : Prop :=
  ∃ tasks requests subs, ∀ s : AppSocket, s.tasks = tasks → s.subscriptionRequests = requests → s.subs = subs →
    s.harms < (f s).harms

/-- An app that waits for what a message answers, or listens to what it tells, is harmed by it. -/
theorem harms_processPlain (hid : c.clientRequestId = some id) (hne : id ≠ 0) (hm : m.value.disturbs p = true) :
    Harms fun s => processPlain p c s m := by
  have hresume : ∀ (s : AppSocket) type, s.harms < (s.resume id (some type) type).harms := fun s type => by
    simp only [resume, if_true, harms, length_append, length_singleton]
    omega
  have hfail : ∀ (s : AppSocket) type, s.harms < (s.fail id (some type)).harms := fun s type => by
    simp only [fail, isSome_some, if_true, harms, length_append, length_singleton]
    omega
  -- the request the message answers is pending; without its subscription it is failed
  have hanswer : ∀ type, m.value.isResponse = true → (∀ s : AppSocket, s.subscriptionRequests = ∅ →
      s.harms < (s.processValue p c id (some type) m.value).harms) → Harms fun s => processPlain p c s m := fun type hr hv => by
    refine ⟨OrdMap.insert ∅ id type, ∅, ∅, fun s htasks hrequests _ => ?_⟩
    have hpop : (s.popTask id).2 = some type := by rw [popTask, htasks, OrdMap.find?_insert_self]
    simp only [processPlain, hid, getD_some, hr, and_true, if_pos hne, hpop]
    exact hv (s.popTask id).1 hrequests
  cases hv : m.value with
  | connectionInfo => exact hanswer .connectionInfo (by rw [hv]; rfl) fun s _ => by rw [hv]; exact hresume s _
  | jwt => exact hanswer .jwt (by rw [hv]; rfl) fun s _ => by rw [hv]; exact hresume s _
  | sessionInfo => exact hanswer .sessionInfo (by rw [hv]; rfl) fun s _ => by rw [hv]; exact hresume s _
  | queryResult => exact hanswer .value (by rw [hv]; rfl) fun s _ => by rw [hv]; exact hresume s _
  | subscriptionAck =>
    refine hanswer .array (by rw [hv]; rfl) fun s hs => ?_
    rw [hv]
    simp only [processValue, subscriptionAck, hs]
    exact hfail s _
  | exception =>
    refine hanswer .value (by rw [hv]; rfl) fun s _ => ?_
    rw [hv]
    exact hfail { s with subscriptionRequests := s.subscriptionRequests.erase id } .value
  | subscription text =>
    refine ⟨∅, ∅, OrdMap.insert ∅ id [0], fun s _ _ hsubs => ?_⟩
    have hjson : p.json text = true := by rw [hv] at hm; exact hm
    simp only [processPlain, hv, isResponse, Bool.false_eq_true, and_false, if_false, processValue, onMessage, hjson,
      if_true, hid, getD_some, hsubs, OrdMap.find?_insert_self, harms, length_append, length_map,
      length_singleton]
    omega
  | _ => simp [hv, disturbs, isResponse] at hm

section Lists

variable {P : ServerMessage → Prop}

/-- Something `P` is processed. -/
def Holds (p : ServerParsers) (P : ServerMessage → Prop) (room : ℕ) (t : List ServerMessage) : Prop :=
  ∃ path m, Inside p t path m ∧ path.length ≤ room ∧ P m

theorem holds_cons (h : Holds p P room (m :: t)) : Holds p P room [m] ∨ Holds p P room t := by
  obtain ⟨path, n, hn, hlen, hP⟩ := h
  exact (inside_cons hn).imp (fun hn => ⟨path, n, hn, hlen, hP⟩) fun hn => ⟨path, n, hn, hlen, hP⟩

/-- It is the message, or inside the transmission of its envelope. -/
theorem holds_singleton (h : Holds p P room [m]) : P m ∨ ∃ r e bytes u, room = r + 1 ∧ m.value.opens = some (e, bytes) ∧
    p.deserialize bytes = some u ∧ Holds p P r u := by
  obtain ⟨path, n, hn, hlen, hP⟩ := h
  cases hn with
  | here hm => exact .inl (mem_singleton.mp hm ▸ hP)
  | within hm ho hu hn =>
    obtain rfl := mem_singleton.mp hm
    cases room with
    | zero => simp at hlen
    | succ r => exact .inr ⟨r, _, _, _, rfl, ho, hu, _, _, hn, Nat.le_of_succ_le_succ hlen, hP⟩

end Lists

/-- A payload with a message that answers or tells harms an app with what the first such message is for. -/
theorem harms_processTransmission (hid : c.clientRequestId = some id) (hne : id ≠ 0) (hdepth : c.depth ≠ 0)
    (hroom : c.depth + room ≤ maxExecuteDepth) (h : Holds p (fun m => m.value.disturbs p = true) room t) :
    Harms fun s => processTransmission p room c t s := by
  induction room using Nat.strong_induction_on generalizing c t with
  | _ room ihroom =>
    induction t with
    | nil =>
      obtain ⟨path, n, hn, -⟩ := h
      cases hn <;> simp_all
    | cons m t iht =>
      by_cases hm : Holds p (fun m => m.value.disturbs p = true) room [m]
      · -- the first is at this message or in it; what follows undoes no harm
        have hfirst : Harms fun s => processTransmission p room c [m] s := by
          rcases holds_singleton hm with hd | ⟨r, e, bytes, u, rfl, ho, hu, hin⟩
          · simp only [processTransmission_plain (opens_of_disturbs (.inl hd))]
            exact harms_processPlain hid hne hd
          · simp only [processTransmission_opens hid (by omega) ho hu]
            refine ihroom r (Nat.lt_succ_self r) rfl (Nat.succ_ne_zero _) ?_ hin
            simp only [enter]
            omega
        obtain ⟨tasks, requests, subs, hlt⟩ := hfirst
        refine ⟨tasks, requests, subs, fun s ht hr hs => ?_⟩
        dsimp only
        rw [processTransmission_cons]
        exact (hlt s ht hr hs).trans_le (harms_le hdepth hid _)
      · have hsame := same_of_not_disturbs hid (fun path n hn hlen => by
          by_contra hd
          exact hm ⟨path, n, hn, hlen, by simpa using hd⟩)
        obtain ⟨tasks, requests, subs, hlt⟩ := iht ((holds_cons h).resolve_left hm)
        refine ⟨tasks, requests, subs, fun s ht hr hs => ?_⟩
        dsimp only
        rw [processTransmission_cons]
        obtain ⟨id, queries, exceptions, heq⟩ := hsame s
        rw [heq]
        exact hlt { s with id, queries, exceptions } ht hr hs

/-- A payload with an ack names the socket, whatever its name was. -/
theorem names_processTransmission (hid : c.clientRequestId = some id) (hdepth : c.depth ≠ 0)
    (hroom : c.depth + room ≤ maxExecuteDepth) (h : Holds p (fun m => m.value.isAck = true) room t) :
    ∃ name, ∀ s, (processTransmission p room c t s).id = name := by
  induction room using Nat.strong_induction_on generalizing c t with
  | _ room ihroom =>
    induction t with
    | nil =>
      obtain ⟨path, n, hn, -⟩ := h
      cases hn <;> simp_all
    | cons m t iht =>
      by_cases ht : Holds p (fun m => m.value.isAck = true) room t
      · obtain ⟨name, hname⟩ := iht ht
        exact ⟨name, fun s => by rw [processTransmission_cons, hname]⟩
      · have hsame := id_of_not_ack hdepth hid (fun path n hn hlen => by
          by_contra hd
          exact ht ⟨path, n, hn, hlen, by simpa using hd⟩)
        have hlast : ∃ name, ∀ s, (processTransmission p room c [m] s).id = name := by
          rcases holds_singleton ((holds_cons h).resolve_right ht) with hd | ⟨r, e, bytes, u, rfl, ho, hu, hin⟩
          · cases hv : m.value with
            | ack name => exact ⟨name, fun s => by rw [processTransmission_plain (by rw [hv]; rfl), processPlain_ack hv]⟩
            | _ => simp [hv, isAck] at hd
          · simp only [processTransmission_opens hid (by omega) ho hu]
            refine ihroom r (Nat.lt_succ_self r) rfl (Nat.succ_ne_zero _) ?_ hin
            simp only [enter]
            omega
        obtain ⟨name, hname⟩ := hlast
        exact ⟨name, fun s => by rw [processTransmission_cons, hsame, hname]⟩

/-- What a payload may do: run queries as the forward's user or as nobody. -/
structure Harmless (user : UserPK) (s u : AppSocket) : Prop where
  queries : ∃ queries, u.queries = s.queries ++ queries ∧ ∀ q ∈ queries, RunsNarrow user q
  resumed : u.resumed = s.resumed
  failed : u.failed = s.failed
  registered : u.registered = s.registered
  delivered : u.delivered = s.delivered
  id : u.id = s.id

/-- The call that processes a forward's payload. -/
def forwardCall (user : UserPK) (requestId : ℕ) : Call :=
  enter { user := none, clientRequestId := none, depth := 0, envelopes := [] }
    (if user = 0 then .anonymous else .execute user) requestId

theorem narrow_forwardCall (user : UserPK) (requestId : ℕ) : Narrow user (forwardCall user requestId) := by
  by_cases hu : user = 0
  · rw [forwardCall, if_pos hu]
    exact ⟨Nat.succ_ne_zero 0, .inr rfl, fun _ => rfl⟩
  · rw [forwardCall, if_neg hu]
    exact ⟨Nat.succ_ne_zero 0, .inl rfl, fun hm => absurd (mem_singleton.mp hm) nofun⟩

theorem opens_executeRequest (requestId : ℕ) (user : UserPK) (bytes : Bytes) :
    (executeRequest requestId user bytes).value.opens = some (if user = 0 then .anonymous else .execute user, bytes) := by
  unfold executeRequest
  split_ifs <;> rfl

/-- A forward is its payload processed, or an exception if it does not parse. -/
theorem onRead_executeRequest (requestId : ℕ) (user : UserPK) (bytes : Bytes) (s : AppSocket) :
    onRead p s [executeRequest requestId user bytes] = (p.deserialize bytes).elim (s.writeException requestId) fun u =>
      processTransmission p 3 (forwardCall user requestId) u s := by
  unfold onRead
  simp only [maxExecuteDepth, processTransmission, foldl_cons, processMessage, opens_executeRequest]
  rfl

/-- The messages of a payload, by the levels it may nest. -/
theorem inside_executeRequest {requestId : ℕ} {bytes : Bytes} {P : ServerMessage → Prop}
    (hP : ∀ m, P m → m.value.opens = none) :
    Holds p P maxExecuteDepth [executeRequest requestId user bytes] ↔ ∃ u, p.deserialize bytes = some u ∧ Holds p P 3 u := by
  constructor
  · intro h
    rcases holds_singleton h with hm | ⟨r, e, bytes', u, hr, ho, hu, hin⟩
    · have hopens := hP _ hm
      rw [opens_executeRequest] at hopens
      cases hopens
    · rw [opens_executeRequest] at ho
      obtain ⟨rfl, rfl⟩ := Prod.mk.inj (some.inj ho)
      obtain rfl := Nat.succ.inj hr
      exact ⟨u, hu, hin⟩
  · rintro ⟨u, hu, path, m, hm, hlen, hPm⟩
    exact ⟨_ :: path, m, .within (mem_singleton_self _) (opens_executeRequest requestId user bytes) hu hm,
      Nat.succ_le_succ hlen, hPm⟩

/-- A forwarded payload runs queries only as the user of its envelope, or as nobody, and as nobody inside an anonymous
envelope; but it leaves the app's requests, subscriptions, listeners and socket id alone, in every state of the app,
exactly if nothing processed of it is an ack, an answer or something for a listener. -/
theorem forwarded_harmless_iff (p : ServerParsers) (counter : ℕ) (user : UserPK) (bytes : Bytes) :
    (∀ s, ∃ queries, (onRead p s [executeRequest (counter + 1) user bytes]).queries = s.queries ++ queries ∧
        ∀ q ∈ queries, RunsNarrow user q) ∧
      ((∀ s, Harmless user s (onRead p s [executeRequest (counter + 1) user bytes])) ↔
        ∀ path m, Inside p [executeRequest (counter + 1) user bytes] path m → path.length ≤ maxExecuteDepth →
          m.value.isAck = false ∧ m.value.disturbs p = false) := by
  have hqueries : ∀ s, ∃ queries, (onRead p s [executeRequest (counter + 1) user bytes]).queries = s.queries ++ queries ∧
      ∀ q ∈ queries, RunsNarrow user q := fun s => by
    rw [onRead_executeRequest]
    cases p.deserialize bytes with
    | none => exact ⟨[], by simp [writeException], by simp⟩
    | some u => exact queries_narrow (narrow_forwardCall user _) rfl s
  refine ⟨hqueries, fun h path m hm hlen => ?_, fun h s => ?_⟩
  · have hopens : ∀ P : FromServer → Bool, (∀ v, P v = true → v.opens = none) → P m.value = true →
        ∃ u, p.deserialize bytes = some u ∧ Holds p (fun m => P m.value = true) 3 u := fun P hP hPm =>
      (inside_executeRequest fun m hm => hP m.value hm).mp ⟨path, m, hm, hlen, hPm⟩
    refine ⟨?_, ?_⟩
    · by_contra hack
      obtain ⟨u, hu, hin⟩ := hopens FromServer.isAck (fun v hv => opens_of_disturbs (p := p) (.inr hv)) (by simpa using hack)
      obtain ⟨name, hname⟩ := names_processTransmission (c := forwardCall user (counter + 1)) rfl (Nat.succ_ne_zero 0)
        (Nat.le_refl _) hin
      have hsame := (h { id := name + 1 }).id
      rw [onRead_executeRequest, hu] at hsame
      exact absurd ((hname _).symm.trans hsame) (by simp)
    · by_contra hd
      obtain ⟨u, hu, hin⟩ := hopens (FromServer.disturbs p) (fun v hv => opens_of_disturbs (.inl hv)) (by simpa using hd)
      obtain ⟨tasks, requests, subs, hlt⟩ := harms_processTransmission (c := forwardCall user (counter + 1)) rfl
        (Nat.succ_ne_zero counter) (Nat.succ_ne_zero 0) (Nat.le_refl _) hin
      have hs := hlt { tasks := tasks, subscriptionRequests := requests, subs := subs } rfl rfl rfl
      have hsame := h { tasks := tasks, subscriptionRequests := requests, subs := subs }
      rw [onRead_executeRequest, hu] at hsame
      simp only [harms, Option.elim] at hs hsame
      rw [hsame.resumed, hsame.failed, hsame.registered, hsame.delivered] at hs
      exact Nat.lt_irrefl _ hs
  · have hq := hqueries s
    rw [onRead_executeRequest] at hq ⊢
    cases hu : p.deserialize bytes with
    | none =>
      rw [hu] at hq
      exact ⟨hq, rfl, rfl, rfl, rfl, rfl⟩
    | some u =>
      rw [hu] at hq
      have hin : ∀ path m, Inside p u path m → path.length ≤ 3 → m.value.isAck = false ∧ m.value.disturbs p = false :=
        fun path m hm hlen => h _ m (.within (mem_singleton_self _) (opens_executeRequest _ user bytes) hu hm)
          (Nat.succ_le_succ hlen)
      obtain ⟨_, _, _, heq⟩ := same_of_not_disturbs (c := forwardCall user (counter + 1)) rfl (fun path m hm hlen => (hin path m hm hlen).2) s
      have hid := id_of_not_ack (c := forwardCall user (counter + 1)) (Nat.succ_ne_zero 0) rfl
        (fun path m hm hlen => (hin path m hm hlen).1) s
      rw [Option.elim, heq] at hq ⊢
      rw [heq] at hid
      exact ⟨hq, rfl, rfl, rfl, rfl, hid⟩

/-- The bytes `[1]` hold the result of a query. -/
def resultPayload : ServerParsers where
  deserialize := fun bytes => if bytes = [1] then some [⟨0, .queryResult⟩] else none
  json := fun _ => true
  query := fun _ _ => true

/-- Any user's forward resumes the app's own request 1, with a result of the user's making. -/
theorem resultPayload_resumes : (onRead resultPayload { tasks := OrdMap.insert ∅ 1 .value } [executeRequest (0 + 1) 7 [1]]).resumed = [1] ∧
    ¬ ∀ s, Harmless 7 s (onRead resultPayload s [executeRequest (0 + 1) 7 [1]]) := by
  have hresumed : (onRead resultPayload { tasks := OrdMap.insert ∅ 1 .value } [executeRequest (0 + 1) 7 [1]]).resumed = [1] := by
    decide
  refine ⟨hresumed, fun h => ?_⟩
  have hsame := (h { tasks := OrdMap.insert ∅ 1 .value }).resumed
  cases hsame

end AppSocket

end OpcHub.Sockets
