import OpcHub.Gateway.Callbacks
import OpcHub.Lib.OrdMap
import Mathlib.Data.Finset.Basic

/-! The connection manager: the connections it opens, looks up by id and lets go with
their CLOSING, and its stop. Over every interleaving of its calls, its deliveries and
the net thread, each connection keeps the callback protocol of the event loop. -/

namespace OpcHub.Gateway

open Lib Option

/-- The event source's state. -/
inductive SourceState where
  | fresh
  | started
  | stopping
  | stopped
  deriving DecidableEq

inductive CallStatus where
  | good
  | badInternalError
  | badNotSupported
  | badInvalidArgument
  | badConnectionClosed
  | badNotFound
  deriving DecidableEq

/-- The parameters openConnection looks for; `ip` tells whether the host is an address. -/
structure OpenParams where
  listen : Option Bool := none
  port : Option UInt16
  address : Option Bytes
  validate : Option Bool := none
  ip : Bool
  deriving DecidableEq

structure ConnectionManager where
  state : SourceState := .fresh
  /-- Every connection opened: its handlers hold one that is erased. -/
  opened : OrdMap ℕ Connection := ∅
  /-- The ids in `_connections`. -/
  connections : Finset ℕ := ∅
  nextId : ℕ := 1

inductive ManagerEvent where
  | start
  | stop
  | checkStopped
  | openConnection (params : OpenParams)
  | closeConnection (id : ℕ)
  | sendWithConnection (id : ℕ) (buf : Bytes)
  | deliver (id : ℕ)
  | connection (id : ℕ) (event : ConnectionEvent)
  deriving DecidableEq

namespace ConnectionManager

/-- The connection an id is found under. -/
def find (m : ConnectionManager) (id : ℕ) : Option Connection := if id ∈ m.connections then m.opened.find? id else none

def set (m : ConnectionManager) (id : ℕ) (c : Connection) : ConnectionManager := { m with opened := m.opened.insert id c }

def checkStopped (m : ConnectionManager) : ConnectionManager :=
  if m.state = .stopping ∧ m.connections = ∅ then { m with state := .stopped } else m

def stop (m : ConnectionManager) : ConnectionManager :=
  { m with state := .stopping, opened := m.opened.map fun id c => if id ∈ m.connections then c.close else c }

def openConnection (m : ConnectionManager) (params : OpenParams) : ConnectionManager × CallStatus :=
  if m.state ≠ .started then (m, .badInternalError)
  else if params.listen = some true then (m, .badNotSupported)
  else if params.port = none ∨ params.address.getD [] = [] then (m, .badInvalidArgument)
  else if params.validate = some true then (m, .good)
  else
    ({ m with
        opened := m.opened.insert m.nextId (.opened params.ip)
        connections := insert m.nextId m.connections
        nextId := m.nextId + 1 }, .good)

def closeConnection (m : ConnectionManager) (id : ℕ) : ConnectionManager × CallStatus :=
  (m.find id).elim (m, .badNotFound) fun c => (m.set id c.close, .good)

def sendWithConnection (m : ConnectionManager) (id : ℕ) (buf : Bytes) : ConnectionManager × CallStatus :=
  (m.find id).elim (m, .badConnectionClosed) fun c =>
    if c.writable then (m.set id (c.send buf), .good) else (m, .badConnectionClosed)

/-- The event delivered; a CLOSING erases the connection before the callback. -/
def deliver (m : ConnectionManager) (id : ℕ) (c : Connection) (event : EEvent) : ConnectionManager :=
  { m.set id (c.deliver event) with
    connections := if event = .closing then m.connections.erase id else m.connections }

def step (m : ConnectionManager) : ManagerEvent → Option ConnectionManager
  | .start => some { m with state := .started }
  | .stop => some m.stop
  | .checkStopped => some m.checkStopped
  | .openConnection params => some (m.openConnection params).1
  | .closeConnection id => some (m.closeConnection id).1
  | .sendWithConnection id buf => some (m.sendWithConnection id buf).1
  | .deliver id => (m.find id).bind fun c => c.pending.map fun event => m.deliver id c event
  | .connection id event => (m.opened.find? id).bind fun c => (c.step event).map fun d => m.set id d

variable {m n : ConnectionManager} {id i : ℕ} {c d e : Connection}

theorem find_eq_some : m.find id = some c ↔ id ∈ m.connections ∧ m.opened.find? id = some c := by
  rw [find, ite_none_right_eq_some]

theorem find?_set : (m.set id d).opened.find? i = if i = id then some d else m.opened.find? i :=
  OrdMap.find?_insert m.opened id i d

theorem find?_stop : m.stop.opened.find? i = (m.opened.find? i).map fun c => if i ∈ m.connections then c.close else c :=
  OrdMap.find?_map m.opened _ i

theorem closeConnection_eq (m : ConnectionManager) (id : ℕ) :
    (m.closeConnection id).1.state = m.state ∧ (m.closeConnection id).1.connections = m.connections ∧
      (m.closeConnection id).1.nextId = m.nextId := by
  unfold closeConnection
  cases m.find id <;> exact ⟨rfl, rfl, rfl⟩

theorem sendWithConnection_eq (m : ConnectionManager) (id : ℕ) (buf : Bytes) :
    (m.sendWithConnection id buf).1.state = m.state ∧ (m.sendWithConnection id buf).1.connections = m.connections ∧
      (m.sendWithConnection id buf).1.nextId = m.nextId := by
  unfold sendWithConnection
  cases m.find id with
  | none => exact ⟨rfl, rfl, rfl⟩
  | some c =>
    dsimp only [Option.elim]
    split_ifs <;> exact ⟨rfl, rfl, rfl⟩

/-- A connection moves on, and is erased with its CLOSING alone. -/
structure Becomes (m n : ConnectionManager) (i : ℕ) (c d : Connection) : Prop where
  moves : c.Moves d
  listed : (i ∈ n.connections ↔ i ∈ m.connections) ∧ d.closingDelivered = c.closingDelivered ∨
    i ∉ n.connections ∧ d.closingDelivered = true

theorem Becomes.rest (h : i ∈ n.connections ↔ i ∈ m.connections) : Becomes m n i d d := ⟨.rest, .inl ⟨h, rfl⟩⟩

theorem becomes_of_set (hc : m.opened.find? id = some c) (hb : Becomes m n id c e)
    (hopened : n.opened = (m.set id e).opened) (hothers : ∀ j, j ≠ id → (j ∈ n.connections ↔ j ∈ m.connections))
    (hd : n.opened.find? i = some d) : ∃ c, m.opened.find? i = some c ∧ Becomes m n i c d := by
  rw [hopened, find?_set] at hd
  split_ifs at hd with hi
  · cases hd
    exact ⟨c, hi ▸ hc, hi ▸ hb⟩
  · exact ⟨d, hd, .rest (hothers i hi)⟩

variable {event : ManagerEvent}

/-- What an event makes of a connection: it is just opened, or moves on. -/
theorem becomes_of_step (hcore : ∀ i c, m.opened.find? i = some c → c.Core)
    (hstep : m.step event = some n) (hd : n.opened.find? i = some d) :
    (i = m.nextId ∧ n.nextId = m.nextId + 1 ∧ i ∈ n.connections ∧ ∃ ip, d = .opened ip) ∨
      ∃ c, m.opened.find? i = some c ∧ Becomes m n i c d := by
  cases event with
  | start =>
    cases hstep
    exact .inr ⟨d, hd, .rest .rfl⟩
  | stop =>
    cases hstep
    rw [find?_stop, map_eq_some_iff] at hd
    obtain ⟨c, hc, rfl⟩ := hd
    refine .inr ⟨c, hc, ?_⟩
    split_ifs
    · exact ⟨.close, .inl ⟨.rfl, rfl⟩⟩
    · exact .rest .rfl
  | checkStopped =>
    cases hstep
    unfold checkStopped at hd ⊢
    split_ifs at hd ⊢
    · exact .inr ⟨d, hd, .rest .rfl⟩
    · exact .inr ⟨d, hd, .rest .rfl⟩
  | openConnection params =>
    cases hstep
    unfold openConnection at hd ⊢
    split_ifs at hd ⊢
    case neg =>
      rw [OrdMap.find?_insert] at hd
      split_ifs at hd with hi
      · exact .inl ⟨hi, rfl, by simp [hi], params.ip, (some.inj hd).symm⟩
      · exact .inr ⟨d, hd, .rest (by simp [hi])⟩
    all_goals exact .inr ⟨d, hd, .rest .rfl⟩
  | closeConnection id =>
    cases hstep
    unfold closeConnection at hd ⊢
    cases hf : m.find id with
    | none =>
      rw [hf] at hd
      exact .inr ⟨d, hd, .rest .rfl⟩
    | some c =>
      rw [hf] at hd
      exact .inr (becomes_of_set (find_eq_some.mp hf).2 ⟨.close, .inl ⟨.rfl, rfl⟩⟩ rfl (fun _ _ => .rfl) hd)
  | sendWithConnection id buf =>
    cases hstep
    unfold sendWithConnection at hd ⊢
    cases hf : m.find id with
    | none =>
      rw [hf] at hd
      exact .inr ⟨d, hd, .rest .rfl⟩
    | some c =>
      rw [hf] at hd
      dsimp only [Option.elim] at hd ⊢
      split_ifs at hd ⊢
      · exact .inr (becomes_of_set (find_eq_some.mp hf).2 ⟨.send buf, .inl ⟨.rfl, rfl⟩⟩ rfl (fun _ _ => .rfl) hd)
      · exact .inr ⟨d, hd, .rest .rfl⟩
  | deliver id =>
    simp only [step, bind_eq_some_iff, map_eq_some_iff] at hstep
    obtain ⟨c, hf, event, he, rfl⟩ := hstep
    refine .inr (becomes_of_set (find_eq_some.mp hf).2 ⟨.deliver he, ?_⟩ rfl (fun j hj => ?_) hd)
    · cases event with
      | established | data => exact .inl ⟨.rfl, rfl⟩
      | closing => exact .inr ⟨by simp [deliver], rfl⟩
    · unfold deliver
      split_ifs
      · simp [hj]
      · exact .rfl
  | connection id event =>
    simp only [step, bind_eq_some_iff, map_eq_some_iff] at hstep
    obtain ⟨c, hc, e, he, rfl⟩ := hstep
    have hsame := ((hcore id c hc).step_eq he).2.2
    exact .inr (becomes_of_set hc ⟨.event he, .inl ⟨.rfl, hsame⟩⟩ rfl (fun _ _ => .rfl) hd)

/-- No event takes an id back; the manager is stopped by its check alone, and a stopped one opens nothing. -/
theorem nextId_stopped_of_step (hstep : m.step event = some n) : m.nextId ≤ n.nextId ∧
    ((m.state = .stopped → m.connections = ∅) → n.state = .stopped → n.connections = ∅) := by
  cases event with
  | start | stop =>
    cases hstep
    exact ⟨le_rfl, fun _ hs => by cases hs⟩
  | checkStopped =>
    cases hstep
    unfold checkStopped
    split_ifs with hc
    · exact ⟨le_rfl, fun _ _ => hc.2⟩
    · exact ⟨le_rfl, id⟩
  | openConnection params =>
    cases hstep
    unfold openConnection
    split_ifs with hstarted
    case neg => exact ⟨Nat.le_succ _, fun _ hs => absurd (hs.symm.trans (not_not.mp hstarted)) (by decide)⟩
    all_goals exact ⟨le_rfl, id⟩
  | closeConnection id =>
    cases hstep
    obtain ⟨hstate, hconnections, hnext⟩ := closeConnection_eq m id
    rw [hstate, hconnections]
    exact ⟨hnext.ge, fun h => h⟩
  | sendWithConnection id buf =>
    cases hstep
    obtain ⟨hstate, hconnections, hnext⟩ := sendWithConnection_eq m id buf
    rw [hstate, hconnections]
    exact ⟨hnext.ge, fun h => h⟩
  | deliver id =>
    simp only [step, bind_eq_some_iff, map_eq_some_iff] at hstep
    obtain ⟨c, hf, event, he, rfl⟩ := hstep
    exact ⟨le_rfl, fun h hs => by simp [deliver, h hs]⟩
  | connection id event =>
    simp only [step, bind_eq_some_iff, map_eq_some_iff] at hstep
    obtain ⟨c, hc, e, he, rfl⟩ := hstep
    exact ⟨le_rfl, fun h => h⟩

structure Managed (m : ConnectionManager) : Prop where
  bounded : ∀ i c, m.opened.find? i = some c → i < m.nextId
  sound : ∀ i c, m.opened.find? i = some c → c.Sound
  listed : ∀ i c, m.opened.find? i = some c → (i ∈ m.connections ↔ c.closingDelivered = false)
  stopped : m.state = .stopped → m.connections = ∅

namespace Managed

theorem core (h : Managed m) (i : ℕ) (c : Connection) (hc : m.opened.find? i = some c) : c.Core := (h.sound i c hc).core

theorem step (h : Managed m) (hstep : m.step event = some n) : Managed n where
  bounded := fun i d hd => by
    rcases becomes_of_step h.core hstep hd with ⟨rfl, hnext, -⟩ | ⟨c, hc, hb⟩
    · omega
    · exact (h.bounded i c hc).trans_le (nextId_stopped_of_step hstep).1
  sound := fun i d hd => by
    rcases becomes_of_step h.core hstep hd with ⟨-, -, -, ip, rfl⟩ | ⟨c, hc, hb⟩
    · exact Connection.Sound.opened ip
    · exact (h.sound i c hc).moves hb.moves
  listed := fun i d hd => by
    rcases becomes_of_step h.core hstep hd with ⟨-, -, hi, ip, rfl⟩ | ⟨c, hc, hb⟩
    · exact iff_of_true hi rfl
    · rcases hb.listed with ⟨hi, he⟩ | ⟨hi, he⟩
      · rw [hi, he]
        exact h.listed i c hc
      · exact iff_of_false hi (by simp [he])
  stopped := (nextId_stopped_of_step hstep).2 h.stopped

theorem start : Managed {} where
  bounded := fun i c hc => absurd hc (by simp)
  sound := fun i c hc => absurd hc (by simp)
  listed := fun i c hc => absurd hc (by simp)
  stopped := fun hs => absurd hs (by decide)

/-- A connection the client is through with is told of no more than its CLOSING. -/
theorem follows {events : List ManagerEvent} (h : Managed m) (hrun : Lib.exec ConnectionManager.step m events = some n)
    (hc : m.opened.find? i = some c) (hthrough : c.Through) (hd : n.opened.find? i = some d) : c.Follows d := by
  -- the connection's id is given once, so what is found under it follows it over the run
  have hinv : Managed n ∧ i < n.nextId ∧ ∀ d, n.opened.find? i = some d → c.Follows d := by
    refine exec_induction ?_ (I := fun n => Managed n ∧ i < n.nextId ∧ ∀ d, n.opened.find? i = some d → c.Follows d)
      ⟨h, h.bounded i c hc, fun d hd => ?_⟩ hrun
    · rintro u event v ⟨hu, hi, hf⟩ hstep
      refine ⟨hu.step hstep, hi.trans_le (nextId_stopped_of_step hstep).1, fun d hd => ?_⟩
      rcases becomes_of_step hu.core hstep hd with ⟨rfl, -⟩ | ⟨e, he, hb⟩
      · exact absurd hi (lt_irrefl _)
      · exact (hf e he).moves (hu.core i e he) hb.moves
    · rw [hc] at hd
      exact some.inj hd ▸ .refl hthrough
  exact hinv.2.2 d hd

/-- Every connection is closed by its closeConnection and by the stop, but one that had its CLOSING. -/
theorem through (h : Managed m) (hevent : event = .closeConnection i ∨ event = .stop)
    (hstep : m.step event = some n) (hc : n.opened.find? i = some c) : c.Through := by
  have hgone : i ∉ m.connections → m.opened.find? i = some c → c.Through := fun hi hc => by
    rw [h.listed i c hc] at hi
    exact .inr (by simpa using hi)
  rcases hevent with rfl | rfl
  · cases hstep
    unfold closeConnection at hc
    cases hf : m.find i with
    | none =>
      rw [hf] at hc
      exact hgone (fun hi => by simp [find, hi, show m.opened.find? i = some c from hc] at hf) hc
    | some d =>
      rw [hf] at hc
      dsimp only [Option.elim] at hc
      rw [find?_set, if_pos rfl] at hc
      cases hc
      exact .inl rfl
  · cases hstep
    rw [find?_stop, map_eq_some_iff] at hc
    obtain ⟨d, hd, rfl⟩ := hc
    split_ifs with hi
    · exact .inl rfl
    · rw [if_neg hi] at hgone
      exact hgone hi hd

end Managed

/-- The client's view of a connection: the open62541 callback protocol. -/
structure Protocol (c : Connection) : Prop where
  /-- One OPENING, at most one ESTABLISHED without data and chunks in the order read, and one CLOSING at the end. -/
  story : ∃ established chunks, c.callbacks = Connection.story established chunks c.closingDelivered ∧ chunks <+: c.received ∧
    [] ∉ chunks ∧ (established = false → chunks = [])
  /-- No event was raised over one pending. -/
  single : c.clashed = false
  /-- What was accepted is written before the socket is closed, unless an operation fails. -/
  flushed : c.shut = true → c.failed = false → c.written = c.accepted
  /-- A connection closed or failed settles with its CLOSING. -/
  ends : c.Settled → c.closeCalled = true ∨ c.failed = true → c.closingDelivered = true

theorem Protocol.of_sound (h : c.Sound) : Protocol c where
  story := by
    obtain ⟨established, chunks, rest, ht⟩ := h.logged
    refine ⟨established, chunks, ht.callbacks, ⟨rest, ht.received.symm⟩, fun hm => ht.read ?_, ht.first⟩
    rw [ht.received]
    exact List.mem_append_left rest hm
  single := h.core.clashed
  flushed := h.core.written_eq
  ends := h.closingDelivered

/-- Over every run of the manager, each connection it opened keeps the callback protocol; after
closeConnection or the stop only the CLOSING follows; and the manager stops with no connection left. -/
theorem callback_protocol {events : List ManagerEvent} (hrun : exec step {} events = some m) :
    (∀ i c, m.opened.find? i = some c → Protocol c) ∧
      (∀ event u later n i c d, (event = .closeConnection i ∨ event = .stop) → m.step event = some u →
        exec step u later = some n → u.opened.find? i = some c → n.opened.find? i = some d →
        d.callbacks = c.callbacks ∨ d.callbacks = c.callbacks ++ [.closing]) ∧
      (m.state = .stopped → m.connections = ∅ ∧ ∀ i c, m.opened.find? i = some c → c.closingDelivered = true) := by
  have hm : Managed m := exec_induction Managed.step Managed.start hrun
  refine ⟨fun i c hc => .of_sound (hm.sound i c hc), fun event u later n i c d hevent hstep hlater hc hd => ?_, fun hs => ?_⟩
  · have hfollows := (hm.step hstep).follows hlater hc (hm.through hevent hstep hc) hd
    exact hfollows.callbacks.imp_right And.left
  · have hempty := hm.stopped hs
    refine ⟨hempty, fun i c hc => ?_⟩
    have hlisted := hm.listed i c hc
    simpa [hempty] using hlisted

/-- Of every connection one write is out at most, and one while anything is queued and the connection stands; until an
operation fails what was accepted is what was written and then the queue, and a connection closed has nothing out. -/
theorem sent_in_order {events : List ManagerEvent} (hrun : exec step {} events = some m) {i : ℕ}
    (hc : m.opened.find? i = some c) : c.writes ≤ 1 ∧ (c.state = .established → c.tx ≠ [] → c.writes = 1) ∧
      (c.failed = false → c.accepted = c.written ++ c.tx) ∧
      (c.state = .closed → c.inflight = 0 ∧ c.resolves = 0 ∧ c.connects = 0 ∧ c.reads = 0 ∧ c.writes = 0) := by
  have hcore := ((exec_induction Managed.step Managed.start hrun).sound i c hc).core
  have hwrites := hcore.writes
  have hinflight := hcore.inflight
  refine ⟨by grind, fun hs htx => by simp [hwrites, hcore.queued hs htx], hcore.kept, fun hs => ?_⟩
  have hnone := (hcore.closed hs).1
  omega

/-- A connection by address is established, sends, reads and is closed with a chunk still in its queue. -/
def closedWriting : List ManagerEvent :=
  [.start, .openConnection { port := some 4840, address := some [49], ip := true }, .connection 1 .postStart,
    .connection 1 .start, .connection 1 (.connected true), .deliver 1, .sendWithConnection 1 [7], .connection 1 (.enqueue [7]),
    .connection 1 .postArm, .connection 1 .armRead, .connection 1 (.read (some [5])), .deliver 1, .closeConnection 1,
    .connection 1 .requestClose, .connection 1 .postArm, .connection 1 .armRead, .connection 1 (.wrote true), .stop,
    .deliver 1, .connection 1 .requestClose, .checkStopped]

theorem closedWriting_protocol : ∃ m, exec step {} closedWriting = some m ∧ m.state = .stopped ∧ m.connections = ∅ ∧
    ∃ c, m.opened.find? 1 = some c ∧ Protocol c ∧
      c.callbacks = [.opening, .established, .data [5], .closing] ∧ c.written = [[7]] := by
  have hrun : exec step {} closedWriting = some _ := rfl
  obtain ⟨hprotocol, -, hstopped⟩ := callback_protocol hrun
  exact ⟨_, hrun, rfl, (hstopped rfl).1, _, rfl, hprotocol 1 _ rfl, by decide, by decide⟩

theorem closedWriting_sent : ∃ m, exec step {} closedWriting = some m ∧ ∃ c, m.opened.find? 1 = some c ∧
    c.accepted = c.written ++ c.tx := by
  have hrun : exec step {} closedWriting = some _ := rfl
  exact ⟨_, hrun, _, rfl, (sent_in_order hrun (i := 1) rfl).2.2.1 rfl⟩

end ConnectionManager

end OpcHub.Gateway
