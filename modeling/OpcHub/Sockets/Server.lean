import OpcHub.Lib.Runs
import Mathlib.Data.List.Basic

/-! The identity a client's message runs under on the server's socket. A transmission
is processed message by message; an envelope holds another transmission, processed
inside it. The user is threaded through: it is the session's for what the client sends
plainly, and for what an Execute envelope holds it is whichever user the envelope names,
which is the client's to choose. -/

namespace OpcHub.Sockets

open Lib List Option

abbrev Bytes := List UInt8
abbrev UserPK := UInt32

/-- The user the server itself runs as. -/
def UserPK.system : UserPK := 4294967295

structure Session where
  id : ℕ
  user : UserPK
  deriving DecidableEq

/-- A message of `FromClient::Transmission`; of those that start neither query nor subscription the kind alone. -/
inductive FromClient where
  | addInstance
  | addSession
  | exception
  | execute (user : UserPK) (transmission : Bytes)
  | executeAnonymous (transmission : Bytes)
  | executeResponse
  | forwardExecution
  | forwardExecutionAnonymous
  | jwt
  | query (text vars : String) (returnRaw : Bool)
  | queryResult
  | logBatch
  | requestType (isJwt : Bool)
  | sessionId
  | sessionInfo
  | subscription (text vars : String)
  | unsubscription
  | notSet
  deriving DecidableEq

structure ClientMessage where
  requestId : ℕ
  value : FromClient
  deriving DecidableEq

/-- The parsers: a transmission's, of variables as json, of a query and of subscriptions with their variables. -/
structure Parsers where
  deserialize : Bytes → Option (List ClientMessage)
  json : String → Bool
  query : String → String → Bool
  subscriptions : String → String → Bool

def Parsers.parseVariables (p : Parsers) (vars : String) : Bool := vars = "" || p.json vars

/-- What was unpacked around a transmission. -/
inductive Envelope where
  | execute (user : UserPK)
  | anonymous
  deriving DecidableEq

def Envelope.user : Envelope → Option UserPK
  | .execute user => some user
  | .anonymous => none

/-- A call of ProcessTransmission: its messages still to process, and its arguments. -/
structure Frame where
  messages : List ClientMessage
  user : Option UserPK
  clientRequestId : Option ℕ
  depth : ℕ
  /-- The session of the socket when the transmission was read. -/
  readAs : Option Session
  /-- The envelopes around it, the innermost first. -/
  envelopes : List Envelope
  deriving DecidableEq

inductive Started where
  | query
  | subscription
  /-- The server's own query, for the name a token carries. -/
  | lookup
  deriving DecidableEq

structure Start where
  kind : Started
  user : UserPK
  requestId : ℕ
  readAs : Option Session
  registered : Bool
  deriving DecidableEq

structure Socket where
  session : Option Session := none
  /-- The socket is a registered instance's. -/
  registered : Bool := false
  stack : List Frame := []
  /-- The queries and subscriptions started. -/
  started : List Start := []
  deriving DecidableEq

inductive SocketEvent where
  /-- A transmission is read. -/
  | read (transmission : List ClientMessage)
  /-- The next message is processed, or a transmission is at its end. -/
  | message
  /-- An adoption ends, of SetSessionId or of AddInstance. -/
  | adopt (session : Session)
  | register (session : Session)
  deriving DecidableEq

namespace Socket

def maxExecuteDepth : ℕ := 4

/-- `UserPK()`, where there is one. -/
def userPK (session : Option Session) : Option UserPK := (session.map Session.user).filter fun user => user ≠ 0

def onRead (s : Socket) (transmission : List ClientMessage) : Socket :=
  { s with
    stack :=
      [{ messages := transmission, user := userPK s.session, clientRequestId := none, depth := 0, readAs := s.session,
         envelopes := [] }] }

def start (s : Socket) (f : Frame) (requestId : ℕ) (kind : Started) (user : UserPK) : Socket :=
  { s with
    started :=
      s.started ++ [{ kind := kind, user := user, requestId := requestId, readAs := f.readAs, registered := s.registered }] }

/-- `Execute`: a transmission too deep, or that does not parse, is answered with an exception. -/
def execute (p : Parsers) (s : Socket) (f : Frame) (envelope : Envelope) (bytes : Bytes) (user : Option UserPK)
    (requestId : ℕ) : Socket :=
  if f.depth + 1 > maxExecuteDepth then s
  else (p.deserialize bytes).elim s fun messages =>
    { s with
      stack :=
        { messages := messages, user := user, clientRequestId := some requestId, depth := f.depth + 1, readAs := f.readAs,
          envelopes := envelope :: f.envelopes } :: s.stack }

/-- One turn of ProcessTransmission's loop. -/
def processMessage (p : Parsers) (s : Socket) (f : Frame) (m : ClientMessage) : Socket :=
  match m.value with
  | .execute user bytes => s.execute p f (.execute user) bytes (some user) (f.clientRequestId.getD m.requestId)
  | .executeAnonymous bytes => s.execute p f .anonymous bytes none (f.clientRequestId.getD m.requestId)
  | .query text vars _ =>
    if p.parseVariables vars ∧ p.query text vars then
      s.start f (f.clientRequestId.getD m.requestId) .query (f.user.getD 0)
    else s
  | .subscription text vars =>
    f.user.elim s fun user =>
      if p.parseVariables vars ∧ p.subscriptions text vars then
        s.start f (f.clientRequestId.getD m.requestId) .subscription user
      else s
  | .requestType isJwt =>
    if isJwt ∧ s.session.isSome then s.start f (f.clientRequestId.getD m.requestId) .lookup .system else s
  | .addInstance => s
  | .addSession => s
  | .exception => s
  | .executeResponse => s
  | .forwardExecution => s
  | .forwardExecutionAnonymous => s
  | .jwt => s
  | .queryResult => s
  | .logBatch => s
  | .sessionId => s
  | .sessionInfo => s
  | .unsubscription => s
  | .notSet => s

/-- The stack's top is the transmission being processed. -/
def processTransmission (p : Parsers) (s : Socket) : Option Socket :=
  s.stack.head?.map fun f =>
    f.messages.head?.elim { s with stack := s.stack.tail } fun m =>
      processMessage p { s with stack := { f with messages := f.messages.tail } :: s.stack.tail } f m

def step (p : Parsers) (s : Socket) : SocketEvent → Option Socket
  | .read transmission => if s.stack = [] then some (s.onRead transmission) else none
  | .message => processTransmission p s
  | .adopt session => some { s with session := some session }
  | .register session => some { s with session := some session, registered := true }

end Socket

/-- What runs as the session's user, or as nobody, and nothing as a user without a session. -/
def Start.Lawful (x : Start) : Prop :=
  (x.user = 0 ∨ x.readAs.map Session.user = some x.user) ∧ (x.readAs = none → x.user = 0 ∧ x.kind ≠ .subscription)

instance : DecidablePred Start.Lawful := fun _ => inferInstanceAs (Decidable (_ ∧ _))

namespace Frame

/-- The user the innermost envelope names, if it is an Execute. -/
def named (f : Frame) : Option UserPK :=
  f.envelopes.head?.bind Envelope.user

/-- The message starts nothing as a user an envelope put in the session's place, and no lookup. -/
def Keeps (p : Parsers) (session : Option Session) (f : Frame) : FromClient → Prop
  | .query text vars _ => p.parseVariables vars ∧ p.query text vars →
      ∀ user ∈ f.named, user = 0 ∨ f.readAs.map Session.user = some user
  | .subscription text vars => p.parseVariables vars ∧ p.subscriptions text vars →
      ∀ user ∈ f.named, f.readAs.isSome ∧ (user = 0 ∨ f.readAs.map Session.user = some user)
  | .requestType isJwt => isJwt ∧ session.isSome → f.readAs.map Session.user = some .system
  | _ => True

instance (p : Parsers) (session : Option Session) (f : Frame) : DecidablePred (f.Keeps p session)
  -- through the option: the users are too many to go through
  | .query _ _ _ => @instDecidableForall _ _ inferInstance (Option.decidableForallMem f.named)
  | .subscription _ _ => @instDecidableForall _ _ inferInstance (Option.decidableForallMem f.named)
  | .requestType _ => inferInstanceAs (Decidable (_ → _))
  | .addInstance | .addSession | .exception | .execute _ _ | .executeAnonymous _ | .executeResponse
  | .forwardExecution | .forwardExecutionAnonymous | .jwt | .queryResult | .logBatch | .sessionId | .sessionInfo
  | .unsubscription | .notSet => isTrue trivial

/-- The threaded user is the session's, or the innermost envelope's. -/
structure Threaded (f : Frame) : Prop where
  plain : f.envelopes = [] → f.user = Socket.userPK f.readAs
  enveloped : f.envelopes ≠ [] → f.user = f.named
  depth : f.depth = f.envelopes.length

end Frame

namespace Socket

variable {p : Parsers} {s t : Socket} {f : Frame} {m : ClientMessage} {kind : Started} {user : UserPK} {requestId : ℕ}

/-- On a socket that is no registered instance, whatever was started is lawful. -/
def Lawful (s : Socket) : Prop := ∀ x ∈ s.started, x.registered = false → x.Lawful

/-- The next message keeps to the session's user, where the socket is no registered instance. -/
def Keeps (p : Parsers) (s : Socket) : SocketEvent → Prop
  | .message => s.registered = false → ∀ f ∈ s.stack.head?, ∀ m ∈ f.messages.head?, f.Keeps p s.session m.value
  | _ => True

instance (p : Parsers) (s : Socket) : DecidablePred (s.Keeps p)
  | .message => inferInstanceAs (Decidable (_ → _))
  | .read _ | .adopt _ | .register _ => isTrue trivial

theorem lawful_start : (s.start f requestId kind user).Lawful ↔ s.Lawful ∧ (s.registered = false →
    Start.Lawful { kind := kind, user := user, requestId := requestId, readAs := f.readAs, registered := s.registered }) := by
  simp only [Lawful, start, forall_mem_append, forall_mem_singleton]

theorem execute_started {envelope : Envelope} {bytes : Bytes} {user : Option UserPK} :
    (s.execute p f envelope bytes user requestId).started = s.started := by
  unfold execute
  split_ifs
  · rfl
  · cases p.deserialize bytes <;> rfl

theorem userPK_eq_some {session : Option Session} : userPK session = some user ↔ session.map Session.user = some user ∧ user ≠ 0 := by
  simp [userPK, filter_eq_some_iff]

theorem readAs_ne_none (h : f.readAs.map Session.user = some user) : f.readAs ≠ none := fun hnone => by
  rw [hnone] at h
  cases h

variable {registered : Bool}

/-- A query is lawful unless an Execute envelope put another user in the session's place. -/
theorem lawful_query_iff (h : f.Threaded) :
    Start.Lawful { kind := .query, user := f.user.getD 0, requestId := requestId, readAs := f.readAs, registered := registered } ↔
      ∀ user ∈ f.named, user = 0 ∨ f.readAs.map Session.user = some user := by
  cases he : f.envelopes with
  | nil =>
    have hnamed : f.named = none := by rw [Frame.named, he]; rfl
    rw [hnamed, h.plain he]
    refine iff_of_true ?_ nofun
    cases hu : userPK f.readAs with
    | none => exact ⟨.inl rfl, fun _ => ⟨rfl, nofun⟩⟩
    | some user =>
      have hread := (userPK_eq_some.mp hu).1
      exact ⟨.inr hread, fun hnone => absurd hnone (readAs_ne_none hread)⟩
  | cons envelope envelopes =>
    rw [h.enveloped (by simp [he])]
    cases hn : f.named with
    | none =>
      refine iff_of_true ⟨.inl rfl, fun _ => ⟨rfl, nofun⟩⟩ nofun
    | some user =>
      simp only [getD_some, mem_some, forall_eq']
      exact ⟨And.left, fun hu => ⟨hu, fun hnone => ⟨hu.resolve_right fun hsome => readAs_ne_none hsome hnone, nofun⟩⟩⟩

/-- A subscription too, which an envelope can also start on a socket without a session. -/
theorem lawful_subscription_iff (h : f.Threaded) (hu : f.user = some user) :
    Start.Lawful { kind := .subscription, user := user, requestId := requestId, readAs := f.readAs, registered := registered } ↔
      ∀ user ∈ f.named, f.readAs.isSome ∧ (user = 0 ∨ f.readAs.map Session.user = some user) := by
  unfold Start.Lawful
  cases he : f.envelopes with
  | nil =>
    have hnamed : f.named = none := by rw [Frame.named, he]; rfl
    have hread := (userPK_eq_some.mp ((h.plain he).symm.trans hu)).1
    rw [hnamed]
    exact iff_of_true ⟨.inr hread, fun hnone => absurd hnone (readAs_ne_none hread)⟩ fun _ hu =>
      absurd hu (not_mem_none _)
  | cons envelope envelopes =>
    have hnamed := (h.enveloped (by simp [he])).symm.trans hu
    simp only [hnamed, mem_some, forall_eq', ne_eq, not_true_eq_false, and_false, imp_false,
      isSome_iff_ne_none]
    exact and_comm

theorem lawful_lookup_iff :
    Start.Lawful { kind := .lookup, user := .system, requestId := requestId, readAs := f.readAs, registered := registered } ↔
      f.readAs.map Session.user = some .system := by
  unfold Start.Lawful
  have hsystem : UserPK.system ≠ 0 := by decide
  simp only [hsystem, false_or, false_and, imp_false]
  exact ⟨And.left, fun h => ⟨h, readAs_ne_none h⟩⟩

theorem lawful_processMessage (h : f.Threaded) : (s.processMessage p f m).Lawful ↔
    s.Lawful ∧ (s.registered = false → f.Keeps p s.session m.value) := by
  have hsame : ∀ {t : Socket}, t.started = s.started → (t.Lawful ↔ s.Lawful ∧ (s.registered = false → True)) := fun ht => by
    simp only [Lawful, ht, implies_true, and_true]
  unfold processMessage
  cases hm : m.value with
  | execute | executeAnonymous => exact hsame execute_started
  | query text vars raw =>
    simp only [Frame.Keeps]
    split_ifs with hp
    · rw [lawful_start, lawful_query_iff h]
      simp only [hp, and_self, true_implies]
    · simp only [hp, false_implies, implies_true, and_true]
  | subscription text vars =>
    simp only [Frame.Keeps]
    cases hu : f.user with
    | none =>
      have hnamed : f.named = none := by
        cases he : f.envelopes with
        | nil => rw [Frame.named, he]; rfl
        | cons envelope envelopes => exact (h.enveloped (by simp [he])).symm.trans hu
      simp only [hnamed, Option.elim, not_mem_none, false_implies, implies_true, and_true]
    | some user =>
      simp only [Option.elim]
      split_ifs with hp
      · rw [lawful_start, lawful_subscription_iff h hu]
        simp only [hp, and_self, true_implies]
      · simp only [hp, false_implies, implies_true, and_true]
  | requestType isJwt =>
    simp only [Frame.Keeps]
    split_ifs with hp
    · rw [lawful_start, lawful_lookup_iff]
      simp only [hp, and_self, true_implies]
    · simp only [hp, false_implies, implies_true, and_true]
  | _ => exact hsame rfl

theorem threaded_execute {envelope : Envelope} {bytes : Bytes} (hs : ∀ g ∈ s.stack, g.Threaded) (h : f.Threaded) :
    ∀ g ∈ (s.execute p f envelope bytes envelope.user requestId).stack, g.Threaded := by
  unfold execute
  split_ifs
  · exact hs
  · cases p.deserialize bytes with
    | none => exact hs
    | some messages => exact forall_mem_cons.mpr ⟨⟨nofun, fun _ => rfl, congrArg (· + 1) h.depth⟩, hs⟩

/-- An envelope's frame runs as the envelope says, whatever it is in. -/
theorem threaded_processMessage (hs : ∀ g ∈ s.stack, g.Threaded) (h : f.Threaded) :
    ∀ g ∈ (s.processMessage p f m).stack, g.Threaded := by
  unfold processMessage
  cases m.value with
  | execute | executeAnonymous => exact threaded_execute hs h
  | query | requestType =>
    dsimp only
    split_ifs <;> exact hs
  | subscription text vars =>
    dsimp only
    cases f.user with
    | none => exact hs
    | some user =>
      split_ifs <;> exact hs
  | _ => exact hs

/-- Each step leaves the stack threaded, and keeps what is started lawful exactly if its message does. -/
theorem lawful_step {event : SocketEvent} (h : ∀ f ∈ s.stack, f.Threaded) (hstep : s.step p event = some t) :
    (∀ f ∈ t.stack, f.Threaded) ∧ (t.Lawful ↔ s.Lawful ∧ s.Keeps p event) := by
  cases event with
  | read transmission =>
    obtain ⟨-, rfl⟩ := of_guard hstep
    exact ⟨forall_mem_singleton.mpr ⟨fun _ => rfl, fun h => absurd rfl h, rfl⟩, (and_iff_left trivial).symm⟩
  | message =>
    simp only [step, processTransmission, map_eq_some_iff] at hstep
    obtain ⟨f, hf, rfl⟩ := hstep
    have hstack := cons_head?_tail hf
    rw [← hstack] at h
    obtain ⟨hthreaded, hrest⟩ := forall_mem_cons.mp h
    simp only [Keeps, hf, mem_some, forall_eq']
    cases hm : f.messages.head? with
    | none => exact ⟨hrest, by simp [Lawful]⟩
    | some m =>
      refine ⟨threaded_processMessage (forall_mem_cons.mpr ⟨?_, hrest⟩) hthreaded, ?_⟩
      · exact { hthreaded with }
      · simp only [Option.elim, mem_some, forall_eq']
        exact lawful_processMessage hthreaded
  | adopt | register =>
    cases hstep
    exact ⟨h, (and_iff_left trivial).symm⟩

/-- Over every run of a socket, each query and subscription it starts while it is no registered instance runs as
the user of the session its transmission was read under, or as nobody, and without a session nothing is started as a
user and no subscription, exactly if every message processed then keeps to that: no Execute envelope directly around a
query or a subscription names another user, or any user around a subscription read without a session, and no token is
asked for. -/
theorem runs_as_sender_iff {events : List SocketEvent} (hrun : exec (step p) {} events = some s) :
    s.Lawful ↔ Along (step p) (fun s e => s.Keeps p e) {} events := by
  have hlaw := exec_iff_along (I := fun s => ∀ f ∈ s.stack, f.Threaded) (L := Lawful) lawful_step (by simp) hrun
  rw [hlaw]
  exact and_iff_right (by simp [Lawful])

/-- One byte holds a query, and two an anonymous envelope around it; every text parses. -/
def twoPayloads : Parsers where
  deserialize := fun bytes =>
    if bytes.length = 1 then some [⟨9, .query "users{id}" "" false⟩]
    else if bytes.length = 2 then some [⟨9, .executeAnonymous [1]⟩] else none
  json := fun _ => true
  query := fun _ _ => true
  subscriptions := fun _ _ => true

/-- A client that never logged in sends an Execute envelope that names user 7, with a query in it. -/
def namesAnother : List SocketEvent := [.read [⟨3, .execute 7 [1]⟩], .message, .message]

theorem namesAnother_not_lawful : ∃ s, exec (step twoPayloads) {} namesAnother = some s ∧
    s.started = [{ kind := .query, user := 7, requestId := 3, readAs := none, registered := false }] ∧ ¬ s.Lawful := by
  refine ⟨_, rfl, rfl, fun h => ?_⟩
  exact absurd (h _ (mem_singleton_self _) rfl) (by decide)

/-- User 5's client sends a query, the same in two envelopes, and a subscription. -/
def keepsToItself : List SocketEvent :=
  [.adopt ⟨1, 5⟩, .read [⟨3, .query "users{id}" "" false⟩, ⟨4, .execute 5 [1, 2]⟩, ⟨5, .subscription "users{id}" ""⟩], .message,
    .message, .message, .message, .message, .adopt ⟨2, 6⟩, .message, .message]

theorem keepsToItself_lawful : ∃ s, exec (step twoPayloads) {} keepsToItself = some s ∧ s.Lawful ∧
    s.started.map (fun x => (x.kind, x.user)) = [(.query, 5), (.query, 0), (.subscription, 5)] := by
  have hrun : exec (step twoPayloads) {} keepsToItself = some _ := rfl
  exact ⟨_, hrun, (runs_as_sender_iff hrun).mpr (by decide +kernel), by decide⟩

end Socket

end OpcHub.Sockets
