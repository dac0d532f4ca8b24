import OpcHub.Lib.Runs
import OpcHub.Lib.Tokens
import Mathlib.Algebra.Order.Group.Multiset
import Mathlib.Tactic.Abel

/-! How a client comes to be registered. A ConnectAwait that finds no client for
its connection and credential waits in `_requests`, and the first to wait starts
a connect: the row is read, a client is built on the blocking pool, and the
answer to its connect registers it or fails it and posts the resumption of those
who wait. An edit of the row is numbered, and a connect whose row was edited after
it counted the edits starts over. The registry, the waiters and the connects are
under locks of their own, so each step here is one hold of one of them. -/

namespace OpcHub.Gateway

open Lib Option Multiset

/-- What a client is registered under. -/
structure Key (S C : Type*) where
  slug : S
  credential : C
  deriving DecidableEq

/-- A row of the connections. -/
structure Row (I S : Type*) where
  id : I
  slug : S
  deriving DecidableEq

/-- How an edit names its row. -/
inductive RowKey (I S : Type*) where
  | pk (id : I)
  | nk (slug : S)
  deriving DecidableEq

variable {I S C A : Type*}

def RowKey.Matches : RowKey I S → Row I S → Prop
  | .pk id, row => row.id = id
  | .nk slug, row => row.slug = slug

/-- The edits recorded, and the number of the last one of each row, 0 for none. -/
structure Edits (I S : Type*) where
  count : ℕ := 0
  ids : I → ℕ := fun _ => 0
  slugs : S → ℕ := fun _ => 0

/-- A client as it was built, with what its connect knew of its row. -/
structure Client (I S C : Type*) where
  row : Row I S
  credential : C
  editsAtRead : ℕ
  /-- The edits recorded when the read of its row began: a history variable. -/
  begun : ℕ
  deriving DecidableEq

/-- Where a connect is. -/
inductive Stage (I S : Type*) where
  /-- Create, before it counts the edits. -/
  | counting
  | counted (edits : ℕ)
  /-- The row's read is out, begun after `begun` edits. -/
  | reading (edits begun : ℕ)
  /-- Queued for the pool with the row read. -/
  | pooled (row : Row I S) (edits begun : ℕ)
  | connecting (client : ℕ)
  /-- ConnectAgain has posted the next Create. -/
  | again
  /-- Resume is posted, with the client or with the failure. -/
  | answered (client : Option ℕ)
  deriving DecidableEq

/-- Create has the connect: an Exception of it ends the connect. -/
def Stage.creates : Stage I S → Bool
  | .counting => true
  | .counted _ => true
  | .reading _ _ => true
  | .pooled _ _ _ => true
  | .connecting _ => false
  | .again => false
  | .answered _ => false

/-- The connect may still register a client. -/
def Stage.underWay : Stage I S → Bool
  | .answered _ => false
  | _ => true

/-- Where a ConnectionEdited is. -/
inductive EditPhase where
  | recorded
  /-- The clients BuiltFrom found and it has still to close; it returns with the last. -/
  | closing (clients : List ℕ)
  /-- The first of them is lost or removed, and still to be deregistered. -/
  | leaving (client : ℕ) (clients : List ℕ)
  deriving DecidableEq

/-- The client it closes next, and those after it. -/
def EditPhase.next : EditPhase → Option (ℕ × List ℕ)
  | .closing (client :: clients) => some (client, clients)
  | _ => none

/-- The client it still has to deregister, and those after it. -/
def EditPhase.left : EditPhase → Option (ℕ × List ℕ)
  | .leaving client clients => some (client, clients)
  | _ => none

structure EditCall (I S : Type*) where
  key : RowKey I S
  removed : Bool
  phase : EditPhase
  deriving DecidableEq

structure Connects (I S C A : Type*) where
  edits : Edits I S := {}
  /-- The clients built so far are those below `built`. -/
  clients : ℕ → Option (Client I S C) := fun _ => none
  built : ℕ := 0
  /-- The clients' flags. -/
  connected : ℕ → Bool := fun _ => false
  discarded : ℕ → Bool := fun _ => false
  /-- `_clients`. -/
  registered : Key S C → Option ℕ := fun _ => none
  /-- ConnectAwaits between Start's first look and its second, which is under the lock. -/
  looking : Multiset (Key S C × A) := 0
  requests : Multiset (Key S C × A) := 0
  resuming : Multiset A := 0
  resumed : Multiset A := 0
  connects : Multiset (Key S C × Stage I S) := 0
  /-- The ConnectionEditeds, by the number of their edit. -/
  calls : ℕ → Option (EditCall I S) := fun _ => none

inductive ConnectEvent (I S C A : Type*) where
  /-- Start's first look, off the lock. -/
  | start (key : Key S C) (await : A)
  /-- Its second, under `_requestMutex`. -/
  | enter (key : Key S C) (await : A)
  | count (key : Key S C)
  | read (key : Key S C) (edits : ℕ)
  | found (key : Key S C) (edits begun : ℕ) (row : Row I S)
  /-- A step of Create throws. -/
  | fail (key : Key S C) (stage : Stage I S)
  /-- The pool's job. -/
  | build (key : Key S C) (row : Row I S) (edits begun : ℕ)
  /-- AnswerConnect of a session activated. -/
  | activate (key : Key S C) (client : ℕ)
  /-- AnswerConnect of a connect that failed. -/
  | reject (key : Key S C) (client : ℕ)
  | again (key : Key S C)
  | resume (key : Key S C) (outcome : Option ℕ)
  /-- One the drain took resumes. -/
  | wake (await : A)
  | lose (client : ℕ)
  /-- RemoveClient's flags. -/
  | discard (client : ℕ)
  | deregister (client : ℕ)
  /-- ConnectionEdited records its edit. -/
  | edit (key : RowKey I S) (removed : Bool)
  /-- KeepAliveEdited records its own. -/
  | keepAlive (key : RowKey I S)
  /-- BuiltFrom. -/
  | list (number : ℕ)
  /-- ConnectionLost or RemoveClient of the next client, up to its Deregister. -/
  | close (number : ℕ)
  | leave (number : ℕ)

namespace Edits

variable [DecidableEq I] [DecidableEq S]

/-- `recordEdit`. -/
def record (e : Edits I S) : RowKey I S → Edits I S
  | .pk id => { e with count := e.count + 1, ids := Function.update e.ids id (e.count + 1) }
  | .nk slug => { e with count := e.count + 1, slugs := Function.update e.slugs slug (e.count + 1) }

omit [DecidableEq I] [DecidableEq S] in
/-- `editedSince`. -/
def since (e : Edits I S) (row : Row I S) (edits : ℕ) : Bool := edits < e.ids row.id || edits < e.slugs row.slug

@[simp] theorem record_count (e : Edits I S) (key : RowKey I S) : (e.record key).count = e.count + 1 := by
  cases key <;> rfl

end Edits

def Client.key (c : Client I S C) : Key S C := ⟨c.row.slug, c.credential⟩

namespace Connects

section Steps

variable [DecidableEq I] [DecidableEq S] [DecidableEq C] [DecidableEq A]

/-- Every ConnectAwait started, wherever it is. -/
def awaits (s : Connects I S C A) : Multiset A :=
  s.looking.map Prod.snd + s.requests.map Prod.snd + s.resuming + s.resumed

/-- `eraseRequests`, with the awaits taken still to be resumed. -/
def eraseRequests (s : Connects I S C A) (key : Key S C) : Connects I S C A :=
  { s with
    requests := s.requests.filter (·.1 ≠ key)
    resuming := s.resuming + (s.requests.filter (·.1 = key)).map Prod.snd }

/-- ConnectionLost, or RemoveClient, up to Deregister. -/
def letGo (s : Connects I S C A) (client : ℕ) (removed : Bool) : Connects I S C A :=
  { s with
    connected := Function.update s.connected client false
    discarded := Function.update s.discarded client (s.discarded client || removed) }

/-- `Deregister`: another client under its key stays. -/
def unregister (s : Connects I S C A) (client : ℕ) : Connects I S C A :=
  { s with registered := fun key => if s.registered key = some client then none else s.registered key }

instance (key : RowKey I S) (row : Row I S) : Decidable (key.Matches row) :=
  match key with
  | .pk id => inferInstanceAs (Decidable (row.id = id))
  | .nk slug => inferInstanceAs (Decidable (row.slug = slug))

/-- The registered clients whose row the key names. -/
def builtFrom (s : Connects I S C A) (key : RowKey I S) : List ℕ :=
  (List.range s.built).filter fun client =>
    (s.clients client).any fun c => s.registered c.key = some client && key.Matches c.row

/-- The pool's job: an edit since the count has the row read again. -/
def build (s : Connects I S C A) (key : Key S C) (row : Row I S) (edits begun : ℕ) : Connects I S C A :=
  if s.edits.since row edits then { s with connects := advance s.connects key (.pooled row edits begun) .counting }
  else
    { s with
      clients := Function.update s.clients s.built (some ⟨row, key.credential, edits, begun⟩)
      built := s.built + 1
      connects := advance s.connects key (.pooled row edits begun) (.connecting s.built) }

/-- The row of the client was edited since its connect counted. -/
def stale (s : Connects I S C A) (client : ℕ) : Bool :=
  (s.clients client).any fun c => s.edits.since c.row c.editsAtRead

/-- AnswerConnect of a session activated: registered, unless another is under the key. -/
def activate (s : Connects I S C A) (key : Key S C) (client : ℕ) : Connects I S C A :=
  if s.stale client then { s with connects := advance s.connects key (.connecting client) .again }
  else
    { s with
      connected := Function.update s.connected client true
      registered := if (s.registered key).isSome then s.registered else Function.update s.registered key (some client)
      connects := advance s.connects key (.connecting client) (.answered (some client)) }

def step (s : Connects I S C A) : ConnectEvent I S C A → Option (Connects I S C A)
  | .start key await =>
    if await ∈ s.awaits then none
    else if (s.registered key).isSome then some { s with resumed := await ::ₘ s.resumed }
    else some { s with looking := (key, await) ::ₘ s.looking }
  | .enter key await =>
    if (key, await) ∉ s.looking then none
    else if (s.registered key).isSome then
      some { s with looking := s.looking.erase (key, await), resumed := await ::ₘ s.resumed }
    else if s.requests.filter (·.1 = key) = 0 then
      some { s with
        looking := s.looking.erase (key, await)
        requests := (key, await) ::ₘ s.requests
        connects := (key, .counting) ::ₘ s.connects }
    else some { s with looking := s.looking.erase (key, await), requests := (key, await) ::ₘ s.requests }
  | .count key =>
    if (key, .counting) ∈ s.connects then
      some { s with connects := advance s.connects key .counting (.counted s.edits.count) }
    else none
  | .read key edits =>
    if (key, .counted edits) ∈ s.connects then
      some { s with connects := advance s.connects key (.counted edits) (.reading edits s.edits.count) }
    else none
  | .found key edits begun row =>
    if (key, .reading edits begun) ∈ s.connects ∧ row.slug = key.slug then
      some { s with connects := advance s.connects key (.reading edits begun) (.pooled row edits begun) }
    else none
  | .fail key stage =>
    if (key, stage) ∈ s.connects ∧ stage.creates then
      some { s.eraseRequests key with connects := s.connects.erase (key, stage) }
    else none
  | .build key row edits begun =>
    if (key, .pooled row edits begun) ∈ s.connects then some (s.build key row edits begun) else none
  | .activate key client => if (key, .connecting client) ∈ s.connects then some (s.activate key client) else none
  | .reject key client =>
    if (key, .connecting client) ∈ s.connects then
      some { s with
        connects := advance s.connects key (.connecting client) (if s.stale client then .again else .answered none) }
    else none
  | .again key =>
    if (key, .again) ∈ s.connects then some { s with connects := advance s.connects key .again .counting } else none
  | .resume key outcome =>
    if (key, .answered outcome) ∈ s.connects then
      some { s.eraseRequests key with connects := s.connects.erase (key, .answered outcome) }
    else none
  | .wake await =>
    if await ∈ s.resuming then
      some { s with resuming := s.resuming.erase await, resumed := await ::ₘ s.resumed }
    else none
  | .lose client => some (s.letGo client false)
  | .discard client => some (s.letGo client true)
  | .deregister client => some (s.unregister client)
  | .edit key removed =>
    some { s with
      edits := s.edits.record key
      calls := Function.update s.calls (s.edits.count + 1) (some ⟨key, removed, .recorded⟩) }
  | .keepAlive key => some { s with edits := s.edits.record key }
  | .list number =>
    (s.calls number).bind fun call =>
      if call.phase = .recorded then
        some { s with
          calls := Function.update s.calls number (some { call with phase := .closing (s.builtFrom call.key) }) }
      else none
  | .close number =>
    (s.calls number).bind fun call => call.phase.next.map fun (client, clients) =>
      { s.letGo client call.removed with
        calls := Function.update s.calls number (some { call with phase := .leaving client clients }) }
  | .leave number =>
    (s.calls number).bind fun call => call.phase.left.map fun (client, clients) =>
      { s.unregister client with
        calls := Function.update s.calls number (some { call with phase := .closing clients }) }

end Steps

variable [DecidableEq I] [DecidableEq S] [DecidableEq C] [DecidableEq A] {s t : Connects I S C A}
  {e : ConnectEvent I S C A}

/-- What a connect has read and counted so far. -/
def Dated (s : Connects I S C A) (key : Key S C) : Stage I S → Prop
  | .counted edits => edits ≤ s.edits.count
  | .reading edits begun => edits ≤ begun
  | .pooled row edits begun => row.slug = key.slug ∧ edits ≤ begun
  | .connecting client => ∃ c, s.clients client = some c ∧ c.key = key
  | _ => True

/-- What an event makes of a state it can happen in. -/
inductive Steps (s : Connects I S C A) : Connects I S C A → Prop where
  | known {await : A} (hfresh : await ∉ s.awaits) : Steps s { s with resumed := await ::ₘ s.resumed }
  | look {p : Key S C × A} (hfresh : p.2 ∉ s.awaits) : Steps s { s with looking := p ::ₘ s.looking }
  | found {p : Key S C × A} (hmem : p ∈ s.looking) :
      Steps s { s with looking := s.looking.erase p, resumed := p.2 ::ₘ s.resumed }
  | join {p : Key S C × A} (hmem : p ∈ s.looking) (hfree : s.registered p.1 = none) : Steps s { s with
      looking := s.looking.erase p
      requests := p ::ₘ s.requests
      connects := if s.requests.filter (·.1 = p.1) = 0 then (p.1, .counting) ::ₘ s.connects else s.connects }
  | goOn {key : Key S C} {stage stage' : Stage I S} (hmem : (key, stage) ∈ s.connects) (hway : stage.underWay)
      (hdated : s.Dated key stage → s.Dated key stage') :
      Steps s { s with connects := advance s.connects key stage stage' }
  | build {key : Key S C} {row : Row I S} {edits begun : ℕ} (hmem : (key, .pooled row edits begun) ∈ s.connects) :
      Steps s (s.build key row edits begun)
  | activate {key : Key S C} {client : ℕ} (hmem : (key, .connecting client) ∈ s.connects) :
      Steps s (s.activate key client)
  | drain {key : Key S C} {stage : Stage I S} (hmem : (key, stage) ∈ s.connects) :
      Steps s { s.eraseRequests key with connects := s.connects.erase (key, stage) }
  | wake {await : A} (hmem : await ∈ s.resuming) :
      Steps s { s with resuming := s.resuming.erase await, resumed := await ::ₘ s.resumed }
  | letGo (client : ℕ) (removed : Bool) : Steps s (s.letGo client removed)
  | unregister (client : ℕ) : Steps s (s.unregister client)
  | edit (key : RowKey I S) (removed : Bool) : Steps s { s with
      edits := s.edits.record key
      calls := Function.update s.calls (s.edits.count + 1) (some ⟨key, removed, .recorded⟩) }
  | keepAlive (key : RowKey I S) : Steps s { s with edits := s.edits.record key }
  | list {number : ℕ} {call : EditCall I S} (hcall : s.calls number = some call) : Steps s { s with
      calls := Function.update s.calls number (some { call with phase := .closing (s.builtFrom call.key) }) }
  | close {number client : ℕ} {clients : List ℕ} {call : EditCall I S} (hcall : s.calls number = some call)
      (hnext : call.phase.next = some (client, clients)) : Steps s { s.letGo client call.removed with
        calls := Function.update s.calls number (some { call with phase := .leaving client clients }) }
  | leave {number client : ℕ} {clients : List ℕ} {call : EditCall I S} (hcall : s.calls number = some call)
      (hleft : call.phase.left = some (client, clients)) : Steps s { s.unregister client with
        calls := Function.update s.calls number (some { call with phase := .closing clients }) }

theorem step_steps (h : s.step e = some t) : s.Steps t := by
  cases e with
  | start key await =>
    simp only [step, ite_none_left_eq_some] at h
    obtain ⟨hfresh, h⟩ := h
    split at h <;> cases h
    · exact .known hfresh
    · exact .look (p := (key, await)) hfresh
  | enter key await =>
    simp only [step, ite_none_left_eq_some, not_not] at h
    obtain ⟨hmem, h⟩ := h
    split at h
    · cases h
      exact .found hmem
    · rename_i hfree
      have hjoin := Steps.join hmem (by simpa using hfree)
      split at h <;> rename_i hfirst <;> cases h
      · rwa [if_pos hfirst] at hjoin
      · rwa [if_neg hfirst] at hjoin
  | list number =>
    simp only [step, bind_eq_some_iff, ite_none_right_eq_some, some.injEq] at h
    obtain ⟨call, hcall, -, rfl⟩ := h
    exact .list hcall
  | close number =>
    simp only [step, bind_eq_some_iff, map_eq_some_iff] at h
    obtain ⟨call, hcall, next, hnext, rfl⟩ := h
    exact .close hcall hnext
  | leave number =>
    simp only [step, bind_eq_some_iff, map_eq_some_iff] at h
    obtain ⟨call, hcall, left, hleft, rfl⟩ := h
    exact .leave hcall hleft
  | lose client | discard client => exact some.inj h ▸ .letGo client _
  | deregister client => exact some.inj h ▸ .unregister client
  | edit key removed => exact some.inj h ▸ .edit key removed
  | keepAlive key => exact some.inj h ▸ .keepAlive key
  | _ =>
    obtain ⟨hmem, rfl⟩ := of_guard h
    first
    | exact .wake hmem
    | exact .build hmem
    | exact .activate hmem
    | exact .drain hmem
    | exact .drain hmem.1
    | exact .goOn hmem rfl fun _ => le_refl s.edits.count
    | exact .goOn hmem rfl id
    | exact .goOn hmem.1 rfl fun h => ⟨hmem.2, h⟩
    | exact .goOn hmem rfl fun _ => trivial
    | exact .goOn hmem rfl fun _ => by split <;> trivial

/-- What a step can do to the connects, the waiters and the registry. -/
inductive Moves (s t : Connects I S C A) : Prop where
  /-- At most a client leaves the registry. -/
  | keep (hconnects : t.connects = s.connects) (hrequests : t.requests = s.requests)
      (hregistered : ∀ {key client}, t.registered key = some client → s.registered key = some client)
  /-- An await waits, and the first of its key starts a connect. -/
  | join (key : Key S C) (await : A) (hfree : s.registered key = none)
      (hconnects : t.connects =
        if s.requests.filter (·.1 = key) = 0 then (key, .counting) ::ₘ s.connects else s.connects)
      (hrequests : t.requests = (key, await) ::ₘ s.requests) (hregistered : t.registered = s.registered)
  /-- A connect goes on, and can register a client with its last step. -/
  | goOn (key : Key S C) (stage stage' : Stage I S) (hmem : (key, stage) ∈ s.connects) (hway : stage.underWay)
      (hconnects : t.connects = advance s.connects key stage stage') (hrequests : t.requests = s.requests)
      (hregistered : t.registered = s.registered ∨
        stage'.underWay = false ∧ ∃ client, t.registered = Function.update s.registered key (some client))
  /-- A connect ends, and those who waited for it are taken. -/
  | drain (key : Key S C) (stage : Stage I S) (hmem : (key, stage) ∈ s.connects)
      (hconnects : t.connects = s.connects.erase (key, stage)) (hrequests : t.requests = s.requests.filter (·.1 ≠ key))
      (hregistered : t.registered = s.registered)

variable {key : Key S C}

theorem build_moves {row : Row I S} {edits begun : ℕ}
    (hmem : (key, .pooled row edits begun) ∈ s.connects) : s.Moves (s.build key row edits begun) := by
  unfold build
  split
  · exact .goOn key _ _ hmem rfl rfl rfl (.inl rfl)
  · exact .goOn key _ _ hmem rfl rfl rfl (.inl rfl)

theorem activate_moves {client : ℕ} (hmem : (key, .connecting client) ∈ s.connects) :
    s.Moves (s.activate key client) := by
  unfold activate
  split
  · exact .goOn key _ _ hmem rfl rfl rfl (.inl rfl)
  · refine .goOn key _ _ hmem rfl rfl rfl ?_
    by_cases hsome : (s.registered key).isSome
    · exact .inl (if_pos hsome)
    · exact .inr ⟨rfl, client, if_neg hsome⟩

omit [DecidableEq I] [DecidableEq S] [DecidableEq C] [DecidableEq A] in
theorem unregister_registered {client other : ℕ}
    (h : (s.unregister client).registered key = some other) : s.registered key = some other := by
  simp only [unregister] at h
  split at h
  · cases h
  · exact h

theorem step_moves (h : s.step e = some t) : s.Moves t := by
  cases step_steps h with
  | join hmem hfree => exact .join _ _ hfree rfl rfl rfl
  | goOn hmem hway _ => exact .goOn _ _ _ hmem hway rfl rfl (.inl rfl)
  | build hmem => exact build_moves hmem
  | activate hmem => exact activate_moves hmem
  | drain hmem => exact .drain _ _ hmem rfl rfl rfl
  | unregister _ | leave _ _ => exact .keep rfl rfl unregister_registered
  | _ => exact .keep rfl rfl id

omit [DecidableEq I] [DecidableEq A] in
theorem awaits_eraseRequests (s : Connects I S C A) (key : Key S C) (connects : Multiset (Key S C × Stage I S)) :
    awaits { s.eraseRequests key with connects := connects } = s.awaits := by
  have hsplit : (s.requests.filter (·.1 = key)).map Prod.snd + (s.requests.filter (·.1 ≠ key)).map Prod.snd =
      s.requests.map Prod.snd := by
    rw [← map_add, filter_add_not]
  simp only [awaits, eraseRequests, ← hsplit]
  abel

omit [DecidableEq I] in
theorem awaits_looking {p : Key S C × A} (h : p ∈ s.looking) :
    s.awaits = (s.looking.erase p).map Prod.snd + p.2 ::ₘ (s.requests.map Prod.snd + s.resuming + s.resumed) := by
  obtain ⟨looking, hlooking⟩ := exists_cons_of_mem h
  rw [awaits, hlooking, erase_cons_head, map_cons]
  simp only [← singleton_add]
  abel

omit [DecidableEq I] [DecidableEq S] [DecidableEq C] in
theorem awaits_wake {await : A} (h : await ∈ s.resuming) :
    awaits { s with resuming := s.resuming.erase await, resumed := await ::ₘ s.resumed } = s.awaits := by
  obtain ⟨resuming, hresuming⟩ := exists_cons_of_mem h
  rw [awaits, awaits, hresuming, erase_cons_head]
  simp only [← singleton_add]
  abel

theorem step_nodup (hnodup : s.awaits.Nodup) (h : s.step e = some t) : t.awaits.Nodup := by
  cases step_steps h with
  | @known await hfresh =>
    have hawaits : awaits { s with resumed := await ::ₘ s.resumed } = await ::ₘ s.awaits := by
      simp only [awaits, ← singleton_add]
      abel
    rw [hawaits]
    exact nodup_cons.mpr ⟨hfresh, hnodup⟩
  | @look p hfresh =>
    have hawaits : awaits { s with looking := p ::ₘ s.looking } = p.2 ::ₘ s.awaits := by
      rw [awaits, awaits, map_cons]
      simp only [← singleton_add]
      abel
    rw [hawaits]
    exact nodup_cons.mpr ⟨hfresh, hnodup⟩
  | found hmem =>
    rw [awaits_looking hmem] at hnodup
    convert hnodup using 1
    simp only [awaits, ← singleton_add]
    abel
  | join hmem _ =>
    rw [awaits_looking hmem] at hnodup
    convert hnodup using 1
    rw [awaits, map_cons]
    simp only [← singleton_add]
    abel
  | drain _ => rwa [awaits_eraseRequests]
  | wake hmem => rwa [awaits_wake hmem]
  | build _ =>
    unfold build
    split <;> exact hnodup
  | activate _ =>
    unfold activate
    split <;> exact hnodup
  | _ => exact hnodup

/-- Somebody waits for a client of the key. -/
def Waited (s : Connects I S C A) (key : Key S C) : Prop := ∃ await, (key, await) ∈ s.requests

/-- A key somebody waits for has one connect, which finds no client registered until it ends. -/
structure Sound (s : Connects I S C A) : Prop where
  nodup : s.awaits.Nodup
  onePer : OnePer s.connects s.Waited
  free : ∀ {key stage}, (key, stage) ∈ s.connects → stage.underWay → s.registered key = none

omit [DecidableEq I] [DecidableEq A] in
theorem filter_eq_zero_iff (key : Key S C) : s.requests.filter (·.1 = key) = 0 ↔ ¬ s.Waited key := by
  simp only [filter_eq_nil, Waited, not_exists]
  constructor
  · intro h await hmem
    exact h _ hmem rfl
  · rintro h ⟨_, await⟩ hmem rfl
    exact h await hmem

theorem Moves.onePer (hmoves : s.Moves t) (h : OnePer s.connects s.Waited) : OnePer t.connects t.Waited := by
  cases hmoves with
  | keep hconnects hrequests hregistered =>
    rw [hconnects]
    exact h.congr fun key => by simp only [Waited, hrequests]
  | join key await hfree hconnects hrequests hregistered =>
    have hwaited : ∀ k, t.Waited k ↔ s.Waited k ∨ k = key := by
      intro k
      simp only [Waited, hrequests, mem_cons, Prod.mk.injEq]
      constructor
      · rintro ⟨a, ⟨rfl, -⟩ | hmem⟩
        · exact .inr rfl
        · exact .inl ⟨a, hmem⟩
      · rintro (⟨a, hmem⟩ | rfl)
        · exact ⟨a, .inr hmem⟩
        · exact ⟨await, .inl ⟨rfl, rfl⟩⟩
    rw [hconnects]
    split <;> rename_i hfirst
    · exact h.raise ((filter_eq_zero_iff key).mp hfirst) _ hwaited
    · have hkey : s.Waited key := by
        by_contra hnot
        exact hfirst ((filter_eq_zero_iff key).mpr hnot)
      exact h.congr fun k => (hwaited k).trans (or_iff_left_of_imp fun heq => heq ▸ hkey)
  | goOn key stage stage' hmem hway hconnects hrequests hregistered =>
    rw [hconnects]
    exact (h.advance hmem stage').congr fun k => by simp only [Waited, hrequests]
  | drain key stage hmem hconnects hrequests hregistered =>
    rw [hconnects]
    refine h.lower hmem fun k => ?_
    simp only [Waited, hrequests, mem_filter]
    exact exists_and_right

theorem Moves.free (hmoves : s.Moves t) (h : s.Sound) {stage : Stage I S}
    (hmem : (key, stage) ∈ t.connects) (hway : stage.underWay) : t.registered key = none := by
  cases hmoves with
  | keep hconnects hrequests hregistered =>
    rw [hconnects] at hmem
    rw [eq_none_iff_forall_ne_some]
    intro client hclient
    have := h.free hmem hway
    rw [hregistered hclient] at this
    cases this
  | join k await hfree hconnects hrequests hregistered =>
    rw [hregistered]
    rw [hconnects] at hmem
    split at hmem
    · obtain heq | hmem := mem_cons.mp hmem
      · cases heq
        exact hfree
      · exact h.free hmem hway
    · exact h.free hmem hway
  | goOn k before after hbefore hbway hconnects hrequests hregistered =>
    rw [hconnects] at hmem
    obtain heq | hother := mem_advance hmem
    · cases heq
      obtain hregistered | ⟨hafter, -⟩ := hregistered
      · rw [hregistered]
        exact h.free hbefore hbway
      · rw [hafter] at hway
        cases hway
    · -- the token of another key: what is registered is under this one
      have hne := h.onePer.ne_of_mem_erase hbefore hother
      have hfree := h.free (mem_of_mem_erase hother) hway
      obtain hregistered | ⟨-, client, hregistered⟩ := hregistered
      · rwa [hregistered]
      · rwa [hregistered, Function.update_of_ne hne]
  | drain k before hbefore hconnects hrequests hregistered =>
    rw [hconnects] at hmem
    rw [hregistered]
    exact h.free (mem_of_mem_erase hmem) hway

theorem Sound.step (h : s.Sound) (hstep : s.step e = some t) : t.Sound :=
  ⟨step_nodup h.nodup hstep, (step_moves hstep).onePer h.onePer, (step_moves hstep).free h⟩

omit [DecidableEq I] [DecidableEq A] in
theorem sound_start : ({} : Connects I S C A).Sound where
  nodup := nodup_zero
  onePer := ⟨fun ⟨_, hmem⟩ => absurd hmem (notMem_zero _), fun _ => rfl⟩
  free hmem := absurd hmem (notMem_zero _)

/-- After any run: no ConnectAwait has been resumed twice; nobody waits under a key without a connect or a posted
Resume; a key has at most one of them; and a client that is connecting finds no other under its key. -/
theorem one_client {es : List (ConnectEvent I S C A)} (hrun : exec step {} es = some s) :
    (∀ await, s.resumed.count await ≤ 1) ∧
    (∀ key, tokens s.connects key = 0 → ¬ s.Waited key) ∧
    (∀ key, tokens s.connects key ≤ 1) ∧
    ∀ key client, (key, .connecting client) ∈ s.connects → s.registered key = none := by
  have hsound : s.Sound := exec_induction (fun hs hstep => Sound.step hs hstep) sound_start hrun
  refine ⟨?_, ?_, ?_, fun key client hmem => hsound.free hmem rfl⟩
  · have hle : s.resumed ≤ s.awaits := le_add_left _ _
    exact nodup_iff_count_le_one.mp (nodup_of_le hle hsound.nodup)
  · intro key hzero hwaited
    have := hsound.onePer.one hwaited
    omega
  · intro key
    by_cases hwaited : s.Waited key
    · exact (hsound.onePer.one hwaited).le
    · rw [hsound.onePer.none hwaited]
      exact Nat.zero_le 1

/-- Two waiters of one key, and an edit of its row while it connects. -/
def editedMeanwhile : List (ConnectEvent ℕ ℕ ℕ ℕ) :=
  [.start ⟨1, 1⟩ 0, .start ⟨1, 1⟩ 1, .enter ⟨1, 1⟩ 0, .enter ⟨1, 1⟩ 1, .count ⟨1, 1⟩, .read ⟨1, 1⟩ 0,
    .found ⟨1, 1⟩ 0 0 ⟨5, 1⟩, .build ⟨1, 1⟩ ⟨5, 1⟩ 0 0, .edit (.pk 5) false, .activate ⟨1, 1⟩ 0, .again ⟨1, 1⟩,
    .count ⟨1, 1⟩, .read ⟨1, 1⟩ 1, .found ⟨1, 1⟩ 1 1 ⟨5, 1⟩, .build ⟨1, 1⟩ ⟨5, 1⟩ 1 1, .activate ⟨1, 1⟩ 1,
    .resume ⟨1, 1⟩ (some 1), .wake 0, .wake 1, .list 1, .close 1, .leave 1]

theorem editedMeanwhile_one_client : (exec step {} editedMeanwhile).isSome ∧
    ∀ s, exec step {} editedMeanwhile = some s → s.resumed.count 0 ≤ 1 ∧ ∀ key, tokens s.connects key ≤ 1 :=
  ⟨by decide +kernel, fun _ hrun => ⟨(one_client hrun).1 0, (one_client hrun).2.2.1⟩⟩

end Connects

end OpcHub.Gateway
