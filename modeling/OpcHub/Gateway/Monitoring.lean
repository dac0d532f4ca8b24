import Mathlib.Data.Finset.Option
import OpcHub.Lib.Runs
import OpcHub.Gateway.Tracked

/-! The monitored nodes of one client: requests that join items or send creates,
the creates' answers, the acks, both unsubscribes, a listener's parameters changed,
the deletes that wait a second, and the take that a lost session makes. Each hold of
the lock is one step, and anything may come between two. -/

namespace OpcHub.Gateway

open Lib

def badRequestCancelledByClient : StatusCode := 0x802C0000

def badSessionClosed : StatusCode := 0x80260000

def badConfigurationError : StatusCode := 0x80890000

section Data

variable (N L : Type*) [LinearOrder N] [LinearOrder L]

/-- A create in flight. -/
structure Call where
  listener : L
  /-- The new nodes, in the order the server answers them, with what was sent for each. -/
  parameters : OrdMap N MonitoringParameters
  /-- Unsubscribed while the create was out. -/
  cancelled : Finset N := ∅
  /-- Asked again while the create was out. -/
  refreshed : OrdMap N MonitoringParameters := ∅

/-- A DataChangeAwait whose request is registered. -/
structure DataChange where
  listener : L
  nodes : OrdMap N Unit
  /-- None while its create is out; what it resumes with otherwise. -/
  status : Option StatusCode

/-- What a request's ack says of a node. -/
structure NodeResult where
  node : N
  statusCode : StatusCode
  revisedSamplingInterval : ℚ := 0
  revisedQueueSize : ℕ := 0

/-- What a request has done for its listener on a node. -/
inductive Bond where
  | none
  | attached
  /-- Attached, and unsubscribed or taken since. -/
  | released
  deriving DecidableEq

structure Monitoring extends Tracked N L where
  requestId : ℕ := 0
  requests : OrdMap MonitorHandle (OrdMap N Unit) := ∅
  calls : OrdMap MonitorHandle (Call N L) := ∅
  errors : OrdMap MonitorHandle (OrdMap N StatusCode) := ∅
  /-- The creates in flight when the items were taken. -/
  takenCalls : Finset MonitorHandle := ∅
  /-- The client's cached subscription; 0 is none. -/
  subscriptionId : ℕ := 0
  /-- `ItemParameters`: what each listener asks of a node now. -/
  asks : L → N → MonitoringParameters := fun _ _ => {}
  awaits : OrdMap MonitorHandle (DataChange N L) := ∅
  /-- The DeleteMonitoring passes waiting, each with the items it was armed for. -/
  passes : Multiset (List MonitorHandle) := 0
  /-- The modifies posted and not yet answered. -/
  modifies : Multiset (OrdMap N (Change L)) := 0
  /-- The items handed to a delete. A handle stays here when the server gives its id to a new item. -/
  deleted : Finset MonitorHandle := ∅
  /-- The subscriptions handed to a delete, the last first. -/
  deletedSubscriptions : List ℕ := []
  /-- The items answers have reported, on a subscription not taken since. -/
  reported : Finset MonitorHandle := ∅
  bonds : MonitorHandle → N → Bond := fun _ _ => .none
  /-- The parameters changed, with neither a ParametersChanged nor a request since. -/
  unannounced : L → N → Bool := fun _ _ => false
  /-- The ask was last written by an answer that carried another than the listener's own then. -/
  overwritten : L → N → Bool := fun _ _ => false

end Data

variable {N L : Type*} [LinearOrder N] [LinearOrder L]

inductive MonitorEvent (N L : Type*) [LinearOrder N] [LinearOrder L] where
  /-- `MonitoredItemsRequest`, from a DataChangeAwait on the strand. -/
  | request (listener : L) (nodes : OrdMap N Unit)
  /-- The create's answer: `OnCreateResponse`. -/
  | answer (request : MonitorHandle) (results : List MonitoredItemCreateResult)
  /-- The create fails as a whole. -/
  | fail (request : MonitorHandle) (status : StatusCode)
  /-- The await resumes: `GetResult`. -/
  | ack (request : MonitorHandle)
  | unsubscribe (listener : L) (nodes : OrdMap N Unit)
  | unsubscribeAll (listener : L)
  /-- The listener's own parameters change. -/
  | change (listener : L) (node : N) (parameters : MonitoringParameters)
  | parametersChanged (listener : L) (nodes : OrdMap N Unit)
  /-- A modify's answer, by node. -/
  | modified (changes : OrdMap N (Change L)) (status : N → StatusCode)
  /-- `Modified`: what a modify's answer revised. -/
  | revised (node : N) (samplingInterval : ℚ) (queueSize : ℕ)
  /-- `TakeForResubscribe`. -/
  | take
  /-- A DeleteMonitoring pass, its second over. -/
  | pass (requested : List MonitorHandle)
  /-- The client's subscription is created, or forgotten. -/
  | subscribed (subscriptionId : ℕ)

namespace Call

/-- What was sent for a node. -/
def sent (c : Call N L) (n : N) : MonitoringParameters := (c.parameters.find? n).getD {}

/-- What the answer attaches for a node: what was asked again, else what was sent. -/
def ask (c : Call N L) (n : N) : MonitoringParameters := (c.refreshed.find? n).getD (c.sent n)

/-- An item is asked for what its listener asked again. -/
def askAgain (c : Call N L) (i : Item N L) : Item N L × Option (Change L) :=
  (c.refreshed.find? i.node).elim (i, none) (i.join c.listener)

/-- Marked, not removed: the answer is matched to the nodes by position. -/
def cancel (c : Call N L) (ns : List N) : Call N L :=
  { c with cancelled := c.cancelled ∪ (ns.filter c.parameters.contains).toFinset }

def refresh (c : Call N L) (ns : List N) (asks : N → MonitoringParameters) : Call N L :=
  { c with
    refreshed := (ns.filter fun n => c.parameters.contains n ∧ n ∉ c.cancelled).foldl
      (fun refreshed n => refreshed.insert n (asks n)) c.refreshed }

end Call

/-- What an answer has done so far. -/
structure Answering (N L : Type*) [LinearOrder N] [LinearOrder L] where
  tracked : Tracked N L
  modify : OrdMap N (Change L) := ∅
  errors : OrdMap N StatusCode := ∅
  /-- The items nothing wants. -/
  surplus : Finset MonitorHandle := ∅
  /-- The nodes whose item the listener's ask was written on. -/
  attached : Finset N := ∅

namespace Answering

/-- The new item, asked again at once where its listener has asked since the create was sent. -/
def attachNew (t : Tracked N L) (c : Call N L) (h : MonitorHandle) (n : N) (result : MonitoredItemCreateResult) :
    Tracked N L × Option (Change L) :=
  (t.track h (.create n result c.listener (c.sent n))).alterAt h c.askAgain

/-- The node whose item it writes on: an item that has the handle already is the other node's. -/
def attaches (t : Tracked N L) (c : Call N L) (h : MonitorHandle) (n : N) : Option N :=
  (t.subscriptions.find? h).elim (some n) fun i => if (c.refreshed.find? i.node).isSome then some i.node else none

/-- One node's result. -/
def answerNode (r : MonitorHandle) (c : Call N L) (x : Answering N L) (e : N × MonitoredItemCreateResult) :
    Answering N L :=
  if e.2.statusCode ≠ 0 then { x with errors := x.errors.emplace e.1 e.2.statusCode }
  else if e.1 ∈ c.cancelled then
    { x with
      errors := x.errors.emplace e.1 badRequestCancelledByClient
      surplus := insert (.of r.subId e.2.monitoredItemId) x.surplus }
  else if (x.tracked.findNode e.1).isSome then
    -- another create for this node answered first: its item is joined, and this one is a duplicate
    { x with
      tracked := (x.tracked.alter e.1 fun i => i.join c.listener (c.ask e.1)).1
      modify := Tracked.keep x.modify e.1 (x.tracked.alter e.1 fun i => i.join c.listener (c.ask e.1)).2
      surplus := insert (.of r.subId e.2.monitoredItemId) x.surplus
      attached := insert e.1 x.attached }
  else
    { x with
      tracked := (attachNew x.tracked c (.of r.subId e.2.monitoredItemId) e.1 e.2).1
      modify := Tracked.keep x.modify ((attaches x.tracked c (.of r.subId e.2.monitoredItemId) e.1).getD e.1)
        (attachNew x.tracked c (.of r.subId e.2.monitoredItemId) e.1 e.2).2
      attached := x.attached ∪ (attaches x.tracked c (.of r.subId e.2.monitoredItemId) e.1).toFinset }

end Answering

namespace Monitoring

/-- The nodes a request has to create items for. -/
def fresh (s : Monitoring N L) (nodes : OrdMap N Unit) : OrdMap N Unit :=
  nodes.filter fun n _ => (s.findNode n).isNone

def nextRequest (s : Monitoring N L) : MonitorHandle := .of s.subscriptionId (s.requestId + 1)

/-- The items changed, with the modifies that takes posted. -/
def post (s : Monitoring N L) (x : Tracked N L × OrdMap N (Change L)) : Monitoring N L :=
  { s with
    toTracked := x.1
    modifies := if x.2.entries = [] then s.modifies else x.2 ::ₘ s.modifies }

def register (s : Monitoring N L) (l : L) (nodes : OrdMap N Unit) : Monitoring N L :=
  { s.post (Tracked.alterAll (fun n i => i.join l (s.asks l n)) nodes.keys s.toTracked) with
    requestId := s.requestId + 1
    requests := s.requests.insert s.nextRequest nodes
    calls :=
      if (s.fresh nodes).entries = [] then s.calls
      else s.calls.insert s.nextRequest { listener := l, parameters := (s.fresh nodes).map fun n _ => s.asks l n }
    awaits := s.awaits.insert s.nextRequest ⟨l, nodes, if (s.fresh nodes).entries = [] then some 0 else none⟩
    bonds := fun r n =>
      if r = s.nextRequest then if nodes.contains n ∧ (s.findNode n).isSome then .attached else .none else s.bonds r n
    unannounced := fun k n => s.unannounced k n && !(k = l ∧ nodes.contains n)
    overwritten := fun k n => s.overwritten k n && !(k = l ∧ nodes.contains n) }

def monitoredItemsRequest (s : Monitoring N L) (l : L) (nodes : OrdMap N Unit) : Monitoring N L :=
  -- no subscription to create the new nodes on: nothing is registered, and the await asks again
  if (s.fresh nodes).entries ≠ [] ∧ s.subscriptionId = 0 then s else s.register l nodes

def answering (s : Monitoring N L) (r : MonitorHandle) (c : Call N L) (results : List MonitoredItemCreateResult) :
    Answering N L :=
  (c.parameters.keys.zip results).foldl (Answering.answerNode r c) { tracked := s.toTracked }

/-- The items an answer reports. -/
def created (r : MonitorHandle) (results : List MonitoredItemCreateResult) : List MonitorHandle :=
  (results.filter fun result => result.statusCode = 0).map fun result => .of r.subId result.monitoredItemId

def answerCall (s : Monitoring N L) (r : MonitorHandle) (results : List MonitoredItemCreateResult) (c : Call N L) :
    Monitoring N L :=
  { s.post ((s.answering r c results).tracked, (s.answering r c results).modify) with
    calls := s.calls.erase r
    errors :=
      if (s.answering r c results).errors.entries = [] then s.errors
      else s.errors.insert r (s.answering r c results).errors
    deleted := s.deleted ∪ (s.answering r c results).surplus
    reported := s.reported ∪ (created r results).toFinset
    bonds := fun r' n => if r' = r ∧ n ∈ (s.answering r c results).attached then .attached else s.bonds r' n
    overwritten := fun l n =>
      if l = c.listener ∧ n ∈ (s.answering r c results).attached then !decide ((c.ask n).Same (s.asks l n))
      else s.overwritten l n }

/-- An answer after the items were taken finds no call. -/
def onCreateResponse (s : Monitoring N L) (r : MonitorHandle) (results : List MonitoredItemCreateResult) :
    Monitoring N L :=
  (s.calls.find? r).elim s (s.answerCall r results)

def resume (s : Monitoring N L) (r : MonitorHandle) (status : StatusCode) : Monitoring N L :=
  { s with awaits := s.awaits.modify r fun a => { a with status := some status } }

/-- A request's own word on a node: its create failed, or was cancelled. -/
def error (s : Monitoring N L) (r : MonitorHandle) (n : N) : Option StatusCode :=
  (s.errors.find? r).bind fun errors => errors.find? n

def nodeResult (s : Monitoring N L) (r : MonitorHandle) (sc : StatusCode) (n : N) : NodeResult N :=
  (s.error r n).elim
    ((s.findNode n).elim
      { node := n
        statusCode :=
          if sc ≠ 0 then sc else if r ∈ s.takenCalls then badSessionClosed else badConfigurationError }
      fun x =>
        { node := n
          statusCode := x.2.result.statusCode
          revisedSamplingInterval := x.2.result.revisedSamplingInterval
          revisedQueueSize := x.2.result.revisedQueueSize })
    fun status => { node := n, statusCode := status }

/-- What GetResult answers. -/
def results (s : Monitoring N L) (r : MonitorHandle) (sc : StatusCode) : List (NodeResult N) :=
  ((s.requests.find? r).elim [] fun nodes => nodes.keys).map (s.nodeResult r sc)

/-- What GetResult erases, with the await it resumes. -/
def getResult (s : Monitoring N L) (r : MonitorHandle) : Monitoring N L :=
  { s with
    requests := s.requests.erase r
    calls := s.calls.erase r
    errors := s.errors.erase r
    takenCalls := s.takenCalls.erase r
    awaits := s.awaits.erase r }

/-- The item that is left without listeners when this one leaves. -/
def empties (l : L) (x : MonitorHandle × Item N L) : Option MonitorHandle :=
  if x.2.listeners.contains l ∧ (x.2.listeners.erase l).entries = [] then some x.1 else none

def arm (s : Monitoring N L) (items : List MonitorHandle) : Multiset (List MonitorHandle) :=
  if items = [] then s.passes else items ::ₘ s.passes

/-- The bonds of a listener's requests to the nodes it leaves. -/
def release (s : Monitoring N L) (l : L) (leaves : N → Bool) (r : MonitorHandle) (n : N) : Bond :=
  if s.bonds r n = .attached ∧ leaves n ∧ ((s.awaits.find? r).any fun a => a.listener = l) then .released
  else s.bonds r n

def unsubscribe (s : Monitoring N L) (l : L) (nodes : OrdMap N Unit) : Monitoring N L :=
  { s.post (Tracked.alterAll (fun _ i => i.leave l) nodes.keys s.toTracked) with
    calls := s.calls.map fun _ c => if c.listener = l then c.cancel nodes.keys else c
    passes := s.arm (nodes.keys.filterMap fun n => (s.findNode n).bind (empties l))
    bonds := s.release l nodes.contains }

def unsubscribeAll (s : Monitoring N L) (l : L) : Monitoring N L :=
  { s.post (s.toTracked.leaveAll l) with
    calls := s.calls.map fun _ c => if c.listener = l then c.cancel c.parameters.keys else c
    passes := s.arm (s.subscriptions.entries.filterMap (empties l))
    bonds := s.release l fun _ => true }

def change (s : Monitoring N L) (l : L) (n : N) (p : MonitoringParameters) : Monitoring N L :=
  { s with
    asks := fun k m => if k = l ∧ m = n then p else s.asks k m
    unannounced := fun k m => s.unannounced k m || (k = l ∧ m = n) }

def parametersChanged (s : Monitoring N L) (l : L) (nodes : OrdMap N Unit) : Monitoring N L :=
  { s.post (Tracked.alterAll (fun n i => i.ask l (s.asks l n)) nodes.keys s.toTracked) with
    -- a node whose item has the listener is done with; a create of it that is out is not asked again
    calls := s.calls.map fun _ c =>
      if c.listener = l then c.refresh (nodes.keys.filter fun n => (s.recorded l n).isNone) (s.asks l) else c
    unannounced := fun k n => s.unannounced k n && !(k = l ∧ nodes.contains n)
    overwritten := fun k n => s.overwritten k n && !(k = l ∧ nodes.contains n) }

/-- A modify's answer on a node's item. -/
def judgeNode (changes : OrdMap N (Change L)) (status : N → StatusCode) (n : N) (i : Item N L) :
    Item N L × Option (Change L) :=
  ((changes.find? n).elim i fun c => (i.modified c (status n = 0)).1, none)

def modifying (s : Monitoring N L) (changes : OrdMap N (Change L)) (status : N → StatusCode) : Monitoring N L :=
  { s with
    toTracked := (Tracked.alterAll (judgeNode changes status) changes.keys s.toTracked).1
    modifies := s.modifies.erase changes }

/-- What a modify's answer revised, on a node's item. -/
def reviseItem (samplingInterval : ℚ) (queueSize : ℕ) (i : Item N L) : Item N L × Option (Change L) :=
  ({ i with result := { i.result with revisedSamplingInterval := samplingInterval, revisedQueueSize := queueSize } },
    none)

/-- `Modified`. -/
def revise (s : Monitoring N L) (n : N) (samplingInterval : ℚ) (queueSize : ℕ) : Monitoring N L :=
  { s with toTracked := (s.toTracked.alter n (reviseItem samplingInterval queueSize)).1 }

def takeForResubscribe (s : Monitoring N L) : Monitoring N L :=
  { s with
    toTracked := {}
    calls := ∅
    takenCalls := s.takenCalls ∪ s.calls.keys.toFinset
    reported := ∅
    bonds := fun r n => if s.bonds r n = .attached then .released else s.bonds r n }

/-- The items a pass still finds without listeners. -/
def unwanted (s : Monitoring N L) (requested : List MonitorHandle) : List MonitorHandle :=
  requested.filter fun h => (s.subscriptions.find? h).any fun i => i.listeners.entries = []

/-- A pass retires its subscription: nothing is monitored, no request is registered, and the cached subscription is
one it emptied. -/
def Retires (s : Monitoring N L) (requested : List MonitorHandle) : Prop :=
  (requested.foldl Tracked.retire s.toTracked).subscriptions.entries = [] ∧ s.requests.entries = [] ∧
    s.subscriptionId ∈ (s.unwanted requested).map MonitorHandle.subId

instance (s : Monitoring N L) (requested : List MonitorHandle) : Decidable (s.Retires requested) :=
  inferInstanceAs (Decidable (_ ∧ _ ∧ _))

def deleteMonitoring (s : Monitoring N L) (requested : List MonitorHandle) : Monitoring N L :=
  { s with
    toTracked := requested.foldl Tracked.retire s.toTracked
    passes := s.passes.erase requested
    deleted := s.deleted ∪ (s.unwanted requested).toFinset
    subscriptionId := if s.Retires requested then 0 else s.subscriptionId
    deletedSubscriptions :=
      if s.Retires requested then (s.unwanted requested).map MonitorHandle.subId ++ s.deletedSubscriptions
      else s.deletedSubscriptions }

/-- The request's create is out. -/
def Out (s : Monitoring N L) (r : MonitorHandle) : Prop := ∃ a ∈ s.awaits.find? r, a.status = none

instance (s : Monitoring N L) (r : MonitorHandle) : Decidable (s.Out r) :=
  inferInstanceAs (Decidable (∃ a ∈ s.awaits.find? r, a.status = none))

/-- An answer has a result for each node of its create. -/
def Matches (s : Monitoring N L) (r : MonitorHandle) (results : List MonitoredItemCreateResult) : Prop :=
  ∀ c ∈ s.calls.find? r, c.parameters.entries.length = results.length

instance (s : Monitoring N L) (r : MonitorHandle) (results : List MonitoredItemCreateResult) :
    Decidable (s.Matches r results) :=
  inferInstanceAs (Decidable (∀ c ∈ s.calls.find? r, c.parameters.entries.length = results.length))

def step (s : Monitoring N L) : MonitorEvent N L → Option (Monitoring N L)
  | .request l nodes => some (s.monitoredItemsRequest l nodes)
  | .answer r results =>
    if s.Out r ∧ s.Matches r results then some ((s.onCreateResponse r results).resume r 0) else none
  | .fail r status => if s.Out r ∧ status ≠ 0 then some (s.resume r status) else none
  | .ack r => if (s.awaits.find? r).any fun a => a.status.isSome then some (s.getResult r) else none
  | .unsubscribe l nodes => some (s.unsubscribe l nodes)
  | .unsubscribeAll l => some (s.unsubscribeAll l)
  | .change l n p => some (s.change l n p)
  | .parametersChanged l nodes => some (s.parametersChanged l nodes)
  | .modified changes status => if changes ∈ s.modifies then some (s.modifying changes status) else none
  | .revised n samplingInterval queueSize => some (s.revise n samplingInterval queueSize)
  | .take => some s.takeForResubscribe
  | .pass requested => if requested ∈ s.passes then some (s.deleteMonitoring requested) else none
  | .subscribed id => some { s with subscriptionId := id }

end Monitoring

end OpcHub.Gateway
