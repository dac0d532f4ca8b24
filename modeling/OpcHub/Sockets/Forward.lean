import OpcHub.Lib.OrdMap
import OpcHub.Lib.Runs

/-! Executions that the AppServer forwards from one socket to the instance another
serves. A forward finds its target among the connected sockets, registers its wait
under the target's connection and a request id of the target's own counter, and then
writes the request; a reply takes the wait of its socket's connection and its id, and
a disconnect fails the waits its socket asked for or was to answer. Nothing else ends
a wait, so one that is registered after the disconnect of its target was handled
stays. -/

namespace OpcHub.Sockets

open Lib OrdMap List

abbrev SocketId := ℕ
abbrev ForwardId := ℕ

/-- What a registration publishes, all zero before it. -/
structure ConnectionPks where
  program : UInt32 := 0
  inst : UInt32 := 0
  connection : UInt32 := 0
  deriving DecidableEq

/-- `ServerSocketSession`: what its registration published, and the ids its counter has given. -/
structure Peer where
  pks : ConnectionPks := {}
  requestIds : List UInt32 := []
  deriving DecidableEq

/-- A ForwardExecutionAwait that has found its target. -/
structure Forward where
  requester : SocketId
  target : SocketId
  /-- The connection and the id its wait is registered under. -/
  sentAs : Option (UInt32 × UInt32) := none
  written : Bool := false
  deriving DecidableEq

structure SessionHandle where
  requester : SocketId
  handle : ForwardId
  targetConnectionPK : UInt32
  deriving DecidableEq

/-- What a forward is resumed with: a reply, or an exception of the server's own. -/
inductive Resumption where
  | result (responder : SocketId) (requestId : UInt32) (results : String)
  | exception (responder : SocketId) (requestId : UInt32) (what : String)
  | failed (what : String)
  deriving DecidableEq

/-- The reply's socket and id, of a resumption that is one. -/
def Resumption.reply : Resumption → Option (SocketId × UInt32)
  | .result responder requestId _ | .exception responder requestId _ => some (responder, requestId)
  | .failed _ => none

def forwardKey (targetConnectionPK requestId : UInt32) : ℕ :=
  (targetConnectionPK.toNat &&& 0xFFFFFFFF) <<< 32 ||| (requestId.toNat &&& 0xFFFFFFFF)

structure Forwarding where
  peers : OrdMap SocketId Peer := ∅
  /-- The connection pks given so far, and to which socket. -/
  issued : OrdMap ℕ SocketId := ∅
  /-- `_sessions`. -/
  connected : List SocketId := []
  /-- The sockets taken from `_sessions` whose OnCloseConnection is still to run. -/
  closing : List SocketId := []
  forwards : OrdMap ForwardId Forward := ∅
  /-- `_forwardExecutionMessages`. -/
  messages : OrdMap ℕ SessionHandle := ∅
  resumed : List (ForwardId × Resumption) := []
  deriving DecidableEq

inductive ForwardEvent where
  | connect (socket : SocketId)
  | register (socket : SocketId) (pks : ConnectionPks)
  /-- A query is sent to the socket's client, under an id of the same counter. -/
  | query (socket : SocketId) (requestId : UInt32)
  /-- FindApp, and the exception where it finds none. -/
  | find (forward : ForwardId) (requester : SocketId) (app appInstance : UInt32) (target : Option SocketId)
  | wait (forward : ForwardId) (requestId : UInt32)
  | write (forward : ForwardId)
  | response (socket : SocketId) (requestId : UInt32) (results : String)
  | exception (socket : SocketId) (requestId : UInt32) (what : String)
  /-- A socket is taken from `_sessions`, by its own disconnect or because another registers in its place. -/
  | drop (socket : SocketId)
  | close (socket : SocketId)
  deriving DecidableEq

/-- The test of FindApp; instance 0 is any. -/
def ConnectionPks.serves (pks : ConnectionPks) (app appInstance : UInt32) : Bool :=
  app ≠ 0 && pks.program = app && pks.connection ≠ 0 && (appInstance = 0 || pks.inst = appInstance)

/-- What OnCloseConnection fails a wait with. -/
def SessionHandle.onClose (h : SessionHandle) (requesterId : SocketId) (targetConnectionPK : UInt32) : Option String :=
  if targetConnectionPK ≠ 0 ∧ h.targetConnectionPK = targetConnectionPK then some "Forward target disconnected."
  else if h.requester = requesterId then some "Connection closed."
  else none

namespace Forwarding

variable (s : Forwarding)

def pksOf (socket : SocketId) : ConnectionPks := ((s.peers.find? socket).map Peer.pks).getD {}

def serving (app appInstance : UInt32) (socket : SocketId) : Bool :=
  decide (socket ∈ s.connected) && (s.pksOf socket).serves app appInstance

def connect (socket : SocketId) : Option Forwarding :=
  if s.peers.contains socket then none
  else some { s with peers := s.peers.insert socket {}, connected := socket :: s.connected }

/-- The end of AddInstance, with the pks the database gave: the connection's is new. -/
def register (socket : SocketId) (pks : ConnectionPks) : Option Forwarding :=
  if s.issued.contains pks.connection.toNat then none
  else (s.peers.find? socket).map fun p =>
    { s with
      peers := s.peers.insert socket { p with pks := pks }
      issued := s.issued.insert pks.connection.toNat socket }

/-- `NextRequestId`. -/
def draw (socket : SocketId) (requestId : UInt32) : Option Forwarding :=
  (s.peers.find? socket).bind fun p =>
    if requestId ∈ p.requestIds then none
    else some { s with peers := s.peers.insert socket { p with requestIds := requestId :: p.requestIds } }

/-- Any connected socket that serves the app may be the one found. -/
def find (forward : ForwardId) (requester : SocketId) (app appInstance : UInt32) : Option SocketId → Option Forwarding
  | some target =>
    if s.forwards.contains forward ∨ forward ∈ s.resumed.map Prod.fst ∨ ¬ s.peers.contains requester ∨
      ¬ s.serving app appInstance target then none
    else some { s with forwards := s.forwards.insert forward { requester := requester, target := target } }
  | none =>
    if s.forwards.contains forward ∨ forward ∈ s.resumed.map Prod.fst ∨ ¬ s.peers.contains requester ∨
      s.connected.any (s.serving app appInstance) then none
    else some { s with
      resumed := s.resumed ++ [(forward,
        .failed ("No session found for appPK:" ++ toString app ++ ", instancePK:" ++ toString appInstance))] }

/-- `Suspend` after FindApp, up to the emplace. -/
def wait (forward : ForwardId) (requestId : UInt32) : Option Forwarding :=
  (s.forwards.find? forward).bind fun g =>
    if g.sentAs.isSome then none
    else (s.draw g.target requestId).map fun t =>
      let pk := (s.pksOf g.target).connection
      { t with
        messages := s.messages.emplace (forwardKey pk requestId) ⟨g.requester, forward, pk⟩
        forwards := s.forwards.insert forward { g with sentAs := some (pk, requestId) } }

def write (forward : ForwardId) : Option Forwarding :=
  (s.forwards.find? forward).bind fun g =>
    if g.sentAs.isNone ∨ g.written then none
    else some { s with forwards := s.forwards.insert forward { g with written := true } }

/-- `Resume` and `ResumeExp`. -/
def resume (r : Resumption) (requestId : UInt32) (responder : UInt32) : Forwarding :=
  if responder = 0 then s
  else (s.messages.find? (forwardKey responder requestId)).elim s fun h =>
    { s with
      messages := s.messages.erase (forwardKey responder requestId)
      resumed := s.resumed ++ [(h.handle, r)] }

def onCloseConnection (requesterId : SocketId) (targetConnectionPK : UInt32) : Forwarding :=
  { s with
    messages := s.messages.filter fun _ h => (h.onClose requesterId targetConnectionPK).isNone
    resumed := s.resumed ++ s.messages.values.filterMap fun h =>
      (h.onClose requesterId targetConnectionPK).map fun what => (h.handle, .failed what) }

end Forwarding

/-- An event of the server's; refused where it cannot happen. A reply may come from any socket there has been,
under any id: an exception with none is for no one, and one for a query's id is for no forward. -/
def forwardStep (s : Forwarding) : ForwardEvent → Option Forwarding
  | .connect socket => s.connect socket
  | .register socket pks => s.register socket pks
  | .query socket requestId => s.draw socket requestId
  | .find forward requester app appInstance target => s.find forward requester app appInstance target
  | .wait forward requestId => s.wait forward requestId
  | .write forward => s.write forward
  | .response socket requestId results =>
    if s.peers.contains socket then
      some (s.resume (.result socket requestId results) requestId (s.pksOf socket).connection)
    else none
  | .exception socket requestId what =>
    if ¬ s.peers.contains socket then none
    else if requestId = 0 then some s
    else some (s.resume (.exception socket requestId what) requestId (s.pksOf socket).connection)
  | .drop socket =>
    if socket ∈ s.connected then
      some { s with connected := s.connected.filter (· ≠ socket), closing := socket :: s.closing }
    else none
  | .close socket =>
    if socket ∈ s.closing then
      some ({ s with closing := s.closing.filter (· ≠ socket) }.onCloseConnection socket (s.pksOf socket).connection)
    else none

theorem forwardKey_eq (pk id : UInt32) : forwardKey pk id = 4294967296 * pk.toNat + id.toNat := by
  have hlow : ∀ n : UInt32, n.toNat &&& 0xFFFFFFFF = n.toNat := by
    intro n
    rw [show (0xFFFFFFFF : ℕ) = 2 ^ 32 - 1 from rfl, Nat.and_two_pow_sub_one_eq_mod]
    exact Nat.mod_eq_of_lt n.toNat_lt
  rw [forwardKey, hlow, hlow, ← Nat.shiftLeft_add_eq_or_of_lt id.toNat_lt, Nat.shiftLeft_eq]
  omega

theorem forwardKey_inj {pk pk' id id' : UInt32} (h : forwardKey pk id = forwardKey pk' id') : pk = pk' ∧ id = id' := by
  rw [forwardKey_eq, forwardKey_eq] at h
  have hid := id.toNat_lt
  have hid' := id'.toNat_lt
  constructor
  · apply UInt32.toNat_inj.mp
    omega
  · apply UInt32.toNat_inj.mp
    omega

/-- What a forward was sent as, to whom and for whom: what the waits and the resumptions are about. -/
def Forward.Same (g g' : Forward) : Prop := g'.requester = g.requester ∧ g'.target = g.target ∧ g'.sentAs = g.sentAs

namespace Forwarding

variable {s t : Forwarding}

variable {socket : SocketId} {id app inst : UInt32} {f : ForwardId}

theorem pksOf_eq {p : Peer} (h : s.peers.find? socket = some p) : s.pksOf socket = p.pks := by
  simp [pksOf, h]

/-! What holds of the waits in every run. -/

structure Sound (s : Forwarding) : Prop where
  /-- A wait is its forward's, under the key the forward was sent with. -/
  kept : ∀ k h, s.messages.find? k = some h →
    ∃ g pk id, s.forwards.find? h.handle = some g ∧ g.sentAs = some (pk, id) ∧ k = forwardKey pk id ∧
      h.requester = g.requester ∧ h.targetConnectionPK = pk
  unresumed : ∀ k h, s.messages.find? k = some h → h.handle ∉ s.resumed.map Prod.fst
  /-- A forward that was sent and not resumed has its wait. -/
  awaited : ∀ f g pk id, s.forwards.find? f = some g → g.sentAs = some (pk, id) → f ∉ s.resumed.map Prod.fst →
    ∃ h, s.messages.find? (forwardKey pk id) = some h ∧ h.handle = f
  unsent : ∀ f g, s.forwards.find? f = some g → g.sentAs = none → f ∉ s.resumed.map Prod.fst
  nodup : (s.resumed.map Prod.fst).Nodup
  replied : ∀ f r socket id, (f, r) ∈ s.resumed → r.reply = some (socket, id) →
    ∃ g pk, s.forwards.find? f = some g ∧ g.target = socket ∧ g.sentAs = some (pk, id)
  owned : ∀ socket p, s.peers.find? socket = some p → p.pks.connection ≠ 0 →
    s.issued.find? p.pks.connection.toNat = some socket
  found : ∀ f g, s.forwards.find? f = some g →
    ∃ p, s.peers.find? g.target = some p ∧ s.issued.find? p.pks.connection.toNat = some g.target
  /-- The connection a forward was sent to is its target's, and the id is one of its target's. -/
  drawn : ∀ f g pk id, s.forwards.find? f = some g → g.sentAs = some (pk, id) →
    s.issued.find? pk.toNat = some g.target ∧ ∃ p, s.peers.find? g.target = some p ∧ id ∈ p.requestIds

theorem sound_empty : Sound {} where
  kept := nofun
  unresumed := nofun
  awaited := nofun
  unsent := nofun
  nodup := .nil
  replied := nofun
  owned := nofun
  found := nofun
  drawn := nofun

variable (hs : s.Sound)
include hs

/-- No two waits are of one forward: it was sent under one key. -/
theorem Sound.handles_nodup : (s.messages.values.map SessionHandle.handle).Nodup := by
  let keyOf (f : ForwardId) : Option ℕ := ((s.forwards.find? f).bind Forward.sentAs).map fun a => forwardKey a.1 a.2
  have hof : ∀ e ∈ s.messages.entries, keyOf e.2.handle = some e.1 := by
    intro e he
    obtain ⟨g, pk, id, hg, hsent, hk, -⟩ := hs.kept e.1 e.2 (mem_entries_iff.mp he)
    simp [keyOf, hg, hsent, hk]
  have heq : (s.messages.values.map SessionHandle.handle).map keyOf = s.messages.keys.map some := by
    rw [OrdMap.values, OrdMap.keys, map_map, map_map, map_map]
    exact map_congr_left hof
  apply List.Nodup.of_map keyOf
  rw [heq]
  exact s.messages.keys_nodup.map (Option.some_injective ℕ)

/-- Waits are taken out and their forwards resumed. -/
theorem Sound.settle {messages : OrdMap ℕ SessionHandle} (keep : ℕ → SessionHandle → Prop)
    (rs : List (ForwardId × Resumption))
    (hmessages : ∀ k h, messages.find? k = some h ↔ s.messages.find? k = some h ∧ keep k h)
    (htaken : ∀ f, f ∈ rs.map Prod.fst ↔ ∃ k h, s.messages.find? k = some h ∧ ¬ keep k h ∧ h.handle = f)
    (hnodup : (rs.map Prod.fst).Nodup)
    (hreply : ∀ f r socket id, (f, r) ∈ rs → r.reply = some (socket, id) →
      ∃ g pk, s.forwards.find? f = some g ∧ g.target = socket ∧ g.sentAs = some (pk, id)) :
    { s with messages := messages, resumed := s.resumed ++ rs }.Sound := by
  have hmem : ∀ f, f ∈ (s.resumed ++ rs).map Prod.fst ↔ f ∈ s.resumed.map Prod.fst ∨ f ∈ rs.map Prod.fst := by
    intro f
    rw [map_append, mem_append]
  refine { hs with kept := ?kept, unresumed := ?unresumed, awaited := ?awaited, unsent := ?unsent, nodup := ?nodup, replied := ?replied }
  case kept => exact fun k h hk => hs.kept k h ((hmessages k h).mp hk).1
  case unresumed =>
    intro k h hk hin
    obtain ⟨hfind, hkeep⟩ := (hmessages k h).mp hk
    rcases (hmem _).mp hin with hin | hin
    · exact hs.unresumed k h hfind hin
    · -- a wait taken out for the same forward has the same key, so it is this one
      obtain ⟨k', h', hfind', hkeep', heq⟩ := (htaken _).mp hin
      obtain ⟨g, pk, id, hg, hsent, hkey, -⟩ := hs.kept k h hfind
      obtain ⟨g', pk', id', hg', hsent', hkey', -⟩ := hs.kept k' h' hfind'
      rw [heq, hg] at hg'
      cases hg'
      rw [hsent] at hsent'
      obtain ⟨rfl, rfl⟩ := Prod.mk.inj (Option.some.inj hsent')
      obtain rfl : k' = k := hkey'.trans hkey.symm
      rw [hfind] at hfind'
      cases hfind'
      exact hkeep' hkeep
  case awaited =>
    intro f g pk id hg hsent hf
    obtain ⟨h, hfind, rfl⟩ := hs.awaited f g pk id hg hsent fun hin => hf ((hmem f).mpr (.inl hin))
    refine ⟨h, (hmessages _ h).mpr ⟨hfind, ?_⟩, rfl⟩
    by_contra hkeep
    exact hf ((hmem _).mpr (.inr ((htaken _).mpr ⟨_, h, hfind, hkeep, rfl⟩)))
  case unsent =>
    intro f g hg hsent hf
    rcases (hmem f).mp hf with hin | hin
    · exact hs.unsent f g hg hsent hin
    · obtain ⟨k, h, hfind, -, rfl⟩ := (htaken f).mp hin
      obtain ⟨g', pk, id, hg', hsent', -⟩ := hs.kept k h hfind
      rw [hg] at hg'
      cases hg'
      simp [hsent] at hsent'
  case nodup =>
    rw [map_append]
    refine hs.nodup.append hnodup ?_
    intro f hf hin
    obtain ⟨k, h, hfind, -, rfl⟩ := (htaken f).mp hin
    exact hs.unresumed k h hfind hf
  case replied =>
    intro f r socket id hr hrep
    rcases mem_append.mp hr with hr | hr
    · exact hs.replied f r socket id hr hrep
    · exact hreply f r socket id hr hrep

theorem Sound.resume {r : Resumption}
    (hr : r.reply = some (socket, id)) : (s.resume r id (s.pksOf socket).connection).Sound := by
  unfold Forwarding.resume
  split_ifs with hpk
  · exact hs
  cases hfind : s.messages.find? (forwardKey (s.pksOf socket).connection id) with
  | none => exact hs
  | some h =>
    obtain ⟨g, pk, id', hg, hsent, hkey, -⟩ := hs.kept _ h hfind
    obtain ⟨hpk', rfl⟩ := forwardKey_inj hkey
    -- the connection is the responder's, and the one the forward was sent to
    have htarget : g.target = socket := by
      have hissued := (hs.drawn _ g pk id hg hsent).1
      cases hp : s.peers.find? socket with
      | none => exact absurd (by simp [pksOf, hp]) hpk
      | some p =>
        rw [pksOf_eq hp] at hpk hpk'
        have howned := hs.owned socket p hp hpk
        rw [hpk', hissued] at howned
        exact Option.some.inj howned
    refine hs.settle (fun k _ => k ≠ forwardKey (s.pksOf socket).connection id) [(h.handle, r)]
      (fun k h' => find?_erase_eq_some.trans and_comm) ?_ (nodup_singleton _) ?_
    · intro f
      rw [map_singleton, mem_singleton]
      constructor
      · rintro rfl
        exact ⟨_, h, hfind, not_not_intro rfl, rfl⟩
      · rintro ⟨k, h', hk, hkeep, rfl⟩
        rw [not_not] at hkeep
        rw [hkeep, hfind] at hk
        exact congrArg SessionHandle.handle (Option.some.inj hk).symm
    · intro f r' socket' id' hmem hrep
      obtain ⟨rfl, rfl⟩ := Prod.mk.inj (mem_singleton.mp hmem)
      rw [hr] at hrep
      obtain ⟨rfl, rfl⟩ := Prod.mk.inj (Option.some.inj hrep)
      exact ⟨g, pk, hg, htarget, hsent⟩

theorem Sound.onCloseConnection (requester : SocketId) (pk : UInt32) : (s.onCloseConnection requester pk).Sound := by
  have hfst : (s.messages.values.filterMap fun h =>
      (h.onClose requester pk).map fun what => (h.handle, Resumption.failed what)).map Prod.fst =
        (s.messages.values.filter fun h => (h.onClose requester pk).isSome).map SessionHandle.handle := by
    rw [map_filterMap, ← filterMap_eq_map, filterMap_filter]
    congr 1
    funext h
    cases h.onClose requester pk <;> rfl
  refine hs.settle (fun _ h => h.onClose requester pk = none) _ ?_ ?_ ?_ ?_
  · intro k h
    rw [find?_filter_eq_some, Option.isNone_iff_eq_none]
  · intro f
    rw [hfst, mem_map]
    constructor
    · rintro ⟨h, hmem, rfl⟩
      obtain ⟨hval, hclose⟩ := mem_filter.mp hmem
      obtain ⟨k, hk⟩ := mem_values.mp hval
      exact ⟨k, h, hk, Option.isSome_iff_ne_none.mp hclose, rfl⟩
    · rintro ⟨k, h, hk, hclose, rfl⟩
      exact ⟨h, mem_filter.mpr ⟨mem_values.mpr ⟨k, hk⟩, Option.isSome_iff_ne_none.mpr hclose⟩, rfl⟩
  · rw [hfst]
    exact hs.handles_nodup.sublist (filter_sublist.map _)
  · intro f r socket id hmem hrep
    obtain ⟨h, -, hr⟩ := mem_filterMap.mp hmem
    obtain ⟨what, -, heq⟩ := Option.map_eq_some_iff.mp hr
    obtain ⟨-, rfl⟩ := Prod.mk.inj heq
    cases hrep

/-- A peer is put, with no id taken away nor, from a forward's target, its connection without giving it one. -/
theorem Sound.insertPeer {p : Peer} {issued : OrdMap ℕ SocketId} {connected : List SocketId}
    (hissued : ∀ k x, s.issued.find? k = some x → issued.find? k = some x)
    (hold : ∀ q, s.peers.find? socket = some q → (∀ id ∈ q.requestIds, id ∈ p.requestIds) ∧
      (p.pks = q.pks ∨ issued.find? p.pks.connection.toNat = some socket))
    (howned : p.pks.connection ≠ 0 → issued.find? p.pks.connection.toNat = some socket) :
    { s with peers := s.peers.insert socket p, issued := issued, connected := connected }.Sound := by
  have hpeers : ∀ x q, s.peers.find? x = some q → ∃ q', (s.peers.insert socket p).find? x = some q' ∧
      (∀ id ∈ q.requestIds, id ∈ q'.requestIds) ∧
      (q'.pks = q.pks ∨ issued.find? q'.pks.connection.toNat = some x) := by
    intro x q hq
    by_cases hx : x = socket
    · subst hx
      exact ⟨p, find?_insert_self .., hold q hq⟩
    · exact ⟨q, by rwa [find?_insert_of_ne _ _ hx], fun _ h => h, .inl rfl⟩
  refine { hs with owned := ?_, found := ?_, drawn := ?_ }
  · intro x q hq hpk
    obtain ⟨rfl, rfl⟩ | ⟨-, hq⟩ := find?_insert_eq_some.mp hq
    · exact howned hpk
    · exact hissued _ _ (hs.owned x q hq hpk)
  · intro f g hg
    obtain ⟨q, hq, hi⟩ := hs.found f g hg
    obtain ⟨q', hq', -, hpks | hnew⟩ := hpeers _ q hq
    · exact ⟨q', hq', hpks ▸ hissued _ _ hi⟩
    · exact ⟨q', hq', hnew⟩
  · intro f g pk id hg hsent
    obtain ⟨hi, q, hq, hid⟩ := hs.drawn f g pk id hg hsent
    obtain ⟨q', hq', hids, -⟩ := hpeers _ q hq
    exact ⟨hissued _ _ hi, q', hq', hids id hid⟩

theorem Sound.connect (h : s.connect socket = some t) : t.Sound := by
  obtain ⟨hnew, rfl⟩ := of_unless h
  refine hs.insertPeer (fun _ _ h => h) (fun q hq => ?_) fun h => absurd rfl h
  exact absurd (contains_iff.mpr ⟨q, hq⟩) hnew

theorem Sound.register {pks : ConnectionPks} (h : s.register socket pks = some t) : t.Sound := by
  simp only [Forwarding.register, Option.ite_none_left_eq_some, Option.map_eq_some_iff] at h
  obtain ⟨hnew, p, hp, rfl⟩ := h
  refine hs.insertPeer (fun k x hk => ?_) (fun q hq => ⟨?_, .inr (find?_insert_self ..)⟩)
    fun _ => find?_insert_self ..
  · refine find?_insert_eq_some.mpr (.inr ⟨?_, hk⟩)
    rintro rfl
    exact hnew (contains_iff.mpr ⟨x, hk⟩)
  · rw [hp] at hq
    cases hq
    exact fun _ h => h

theorem Sound.draw (h : s.draw socket id = some t) : t.Sound := by
  simp only [Forwarding.draw, Option.bind_eq_some_iff, Option.ite_none_left_eq_some, Option.some.injEq] at h
  obtain ⟨p, hp, -, rfl⟩ := h
  refine hs.insertPeer (fun _ _ h => h) (fun q hq => ?_) (hs.owned socket p hp)
  rw [hp] at hq
  cases hq
  exact ⟨fun _ h => mem_cons_of_mem _ h, .inl rfl⟩

theorem Sound.insert {g' : Forward} (hsame : ∀ g, s.forwards.find? f = some g → g.Same g')
    (hnew : s.forwards.find? f = none → g'.sentAs = none ∧ f ∉ s.resumed.map Prod.fst ∧
      ∃ p, s.peers.find? g'.target = some p ∧ s.issued.find? p.pks.connection.toNat = some g'.target) :
    { s with forwards := s.forwards.insert f g' }.Sound := by
  -- each forward after the step was there before with the same data, or is the new one
  have hback : ∀ x h, (s.forwards.insert f g').find? x = some h →
      (∃ g, s.forwards.find? x = some g ∧ g.Same h) ∨ (x = f ∧ h = g' ∧ s.forwards.find? f = none) := by
    intro x h hx
    obtain ⟨rfl, rfl⟩ | ⟨-, hx⟩ := find?_insert_eq_some.mp hx
    · cases hf : s.forwards.find? x with
      | none => exact .inr ⟨rfl, rfl, rfl⟩
      | some g => exact .inl ⟨g, rfl, hsame g hf⟩
    · exact .inl ⟨h, hx, rfl, rfl, rfl⟩
  have hto : ∀ x g, s.forwards.find? x = some g → ∃ h, (s.forwards.insert f g').find? x = some h ∧ g.Same h := by
    intro x g hg
    rw [find?_insert]
    split_ifs with heq
    · exact ⟨g', rfl, hsame g (heq ▸ hg)⟩
    · exact ⟨g, hg, rfl, rfl, rfl⟩
  constructor
  case kept =>
    intro k h hk
    obtain ⟨g, pk, id, hg, hsent, hkey, hreq, hpk⟩ := hs.kept k h hk
    obtain ⟨g₂, hg₂, hreq₂, -, hsent₂⟩ := hto _ g hg
    exact ⟨g₂, pk, id, hg₂, hsent₂.trans hsent, hkey, hreq.trans hreq₂.symm, hpk⟩
  case unresumed => exact hs.unresumed
  case awaited =>
    intro x h pk id hx hsent hres
    obtain ⟨g, hg, -, -, hsent'⟩ | ⟨-, rfl, hnone⟩ := hback x h hx
    · exact hs.awaited x g pk id hg (hsent'.symm.trans hsent) hres
    · simp [(hnew hnone).1] at hsent
  case unsent =>
    intro x h hx hsent
    obtain ⟨g, hg, -, -, hsent'⟩ | ⟨rfl, -, hnone⟩ := hback x h hx
    · exact hs.unsent x g hg (hsent'.symm.trans hsent)
    · exact (hnew hnone).2.1
  case nodup => exact hs.nodup
  case replied =>
    intro x r socket id hr hrep
    obtain ⟨g, pk, hg, htarget, hsent⟩ := hs.replied x r socket id hr hrep
    obtain ⟨h, hh, -, htarget', hsent'⟩ := hto x g hg
    exact ⟨h, pk, hh, htarget'.trans htarget, hsent'.trans hsent⟩
  case owned => exact hs.owned
  case found =>
    intro x h hx
    obtain ⟨g, hg, -, htarget, -⟩ | ⟨-, rfl, hnone⟩ := hback x h hx
    · rw [htarget]
      exact hs.found x g hg
    · exact (hnew hnone).2.2
  case drawn =>
    intro x h pk id hx hsent
    obtain ⟨g, hg, -, htarget, hsent'⟩ | ⟨-, rfl, hnone⟩ := hback x h hx
    · rw [htarget]
      exact hs.drawn x g pk id hg (hsent'.symm.trans hsent)
    · simp [(hnew hnone).1] at hsent

theorem Sound.failed (hf : ¬ s.forwards.contains f) (hres : f ∉ s.resumed.map Prod.fst) (what : String) :
    { s with resumed := s.resumed ++ [(f, Resumption.failed what)] }.Sound := by
  have hmem : ∀ x, x ∈ (s.resumed ++ [(f, Resumption.failed what)]).map Prod.fst ↔
      x ∈ s.resumed.map Prod.fst ∨ x = f := by
    intro x
    rw [map_append, mem_append, map_singleton, mem_singleton]
  have hne : ∀ x g, s.forwards.find? x = some g → x ≠ f := by
    rintro x g hx rfl
    exact hf (contains_iff.mpr ⟨g, hx⟩)
  refine { hs with unresumed := ?unresumed, awaited := ?awaited, unsent := ?unsent, nodup := ?nodup, replied := ?replied }
  case unresumed =>
    intro k h hk hin
    obtain ⟨g, -, -, hg, -⟩ := hs.kept k h hk
    exact ((hmem _).mp hin).elim (hs.unresumed k h hk) (hne _ g hg)
  case awaited =>
    intro x g pk id hg hsent hin
    exact hs.awaited x g pk id hg hsent fun h => hin ((hmem x).mpr (.inl h))
  case unsent =>
    intro x g hg hsent hin
    exact ((hmem x).mp hin).elim (hs.unsent x g hg hsent) (hne x g hg)
  case nodup =>
    rw [map_append]
    refine hs.nodup.append (nodup_singleton f) ?_
    intro x hx hin
    obtain rfl : x = f := mem_singleton.mp hin
    exact hres hx
  case replied =>
    intro x r socket id hr hrep
    rcases mem_append.mp hr with hr | hr
    · exact hs.replied x r socket id hr hrep
    · obtain ⟨-, rfl⟩ := Prod.mk.inj (mem_singleton.mp hr)
      cases hrep

omit hs

theorem serving_iff :
    s.serving app inst socket = true ↔ socket ∈ s.connected ∧ (s.pksOf socket).serves app inst = true := by
  simp [serving]

theorem connection_of_serves {pks : ConnectionPks} (h : pks.serves app inst = true) : pks.connection ≠ 0 := by
  simp only [ConnectionPks.serves, Bool.and_eq_true, decide_eq_true_eq] at h
  exact h.1.2

theorem peer_of_connection (h : (s.pksOf socket).connection ≠ 0) :
    ∃ p, s.peers.find? socket = some p ∧ p.pks = s.pksOf socket := by
  cases hp : s.peers.find? socket with
  | none => exact absurd (by simp [pksOf, hp]) h
  | some p => exact ⟨p, rfl, (pksOf_eq hp).symm⟩

theorem Sound.find (hs : s.Sound) {requester : SocketId} {target : Option SocketId}
    (h : s.find f requester app inst target = some t) : t.Sound := by
  cases target with
  | none =>
    simp only [Forwarding.find, Option.ite_none_left_eq_some, not_or, Option.some.injEq] at h
    obtain ⟨⟨hf, hres, -⟩, rfl⟩ := h
    exact hs.failed hf hres _
  | some target =>
    simp only [Forwarding.find, Option.ite_none_left_eq_some, not_or, not_not, Option.some.injEq] at h
    obtain ⟨⟨hf, hres, -, hserves⟩, rfl⟩ := h
    apply hs.insert
    · intro g hg
      exact absurd (contains_iff.mpr ⟨g, hg⟩) hf
    · intro _
      have hpk := connection_of_serves (serving_iff.mp hserves).2
      obtain ⟨p, hp, hpks⟩ := peer_of_connection hpk
      exact ⟨rfl, hres, p, hp, hs.owned target p hp (hpks ▸ hpk)⟩

theorem Sound.write (hs : s.Sound) (h : s.write f = some t) : t.Sound := by
  simp only [Forwarding.write, Option.bind_eq_some_iff, Option.ite_none_left_eq_some, Option.some.injEq] at h
  obtain ⟨g, hg, -, rfl⟩ := h
  apply hs.insert
  · intro g' hg'
    rw [hg] at hg'
    cases hg'
    exact ⟨rfl, rfl, rfl⟩
  · intro hnone
    simp [hg] at hnone

/-- The wait is registered: no wait stands under its key, since the target's counter gives an id once. -/
theorem Sound.wait (hs : s.Sound) (h : s.wait f id = some t) : t.Sound := by
  simp only [Forwarding.wait, Option.bind_eq_some_iff, Option.ite_none_left_eq_some, Option.map_eq_some_iff] at h
  obtain ⟨g, hg, hunsent, u, hdraw, rfl⟩ := h
  replace hunsent : g.sentAs = none := by simpa using hunsent
  have hu := hs.draw hdraw
  simp only [Forwarding.draw, Option.bind_eq_some_iff, Option.ite_none_left_eq_some, Option.some.injEq] at hdraw
  obtain ⟨p, hp, hfresh, rfl⟩ := hdraw
  have hpks : s.pksOf g.target = p.pks := pksOf_eq hp
  rw [hpks]
  obtain ⟨p', hp', hissued⟩ := hs.found f g hg
  rw [hp] at hp'
  cases hp'
  have hkey : s.messages.find? (forwardKey p.pks.connection id) = none := by
    refine Option.eq_none_iff_forall_ne_some.mpr fun h hh => ?_
    obtain ⟨g', pk', id', hg', hsent', heq, -⟩ := hs.kept _ h hh
    obtain ⟨rfl, rfl⟩ := forwardKey_inj heq
    obtain ⟨hissued', q, hq, hid⟩ := hs.drawn _ g' _ _ hg' hsent'
    rw [hissued] at hissued'
    rw [← Option.some.inj hissued', hp] at hq
    exact hfresh (Option.some.inj hq ▸ hid)
  have hfind : ∀ k h,
      (s.messages.emplace (forwardKey p.pks.connection id) ⟨g.requester, f, p.pks.connection⟩).find? k = some h ↔
      (k = forwardKey p.pks.connection id ∧ h = ⟨g.requester, f, p.pks.connection⟩) ∨
        (k ≠ forwardKey p.pks.connection id ∧ s.messages.find? k = some h) := by
    intro k h
    rw [find?_emplace, hkey]
    split_ifs with hk <;> simp [hk, eq_comm]
  have hother : ∀ k h, s.messages.find? k = some h → h.handle ≠ f := by
    rintro k h hk rfl
    obtain ⟨g', pk', id', hg', hsent', -⟩ := hs.kept k h hk
    rw [hg] at hg'
    cases hg'
    simp [hunsent] at hsent'
  constructor
  case kept =>
    intro k h hk
    rcases (hfind k h).mp hk with ⟨rfl, rfl⟩ | ⟨-, hk⟩
    · exact ⟨_, _, id, find?_insert_self .., rfl, rfl, rfl, rfl⟩
    · obtain ⟨g', hrest⟩ := hs.kept k h hk
      rw [← find?_insert_of_ne _ _ (hother k h hk)] at hrest
      exact ⟨g', hrest⟩
  case unresumed =>
    intro k h hk
    rcases (hfind k h).mp hk with ⟨rfl, rfl⟩ | ⟨-, hk⟩
    · exact hs.unsent f g hg hunsent
    · exact hs.unresumed k h hk
  case awaited =>
    intro x g' pk' id' hx hsent hres
    obtain ⟨rfl, rfl⟩ | ⟨-, hx⟩ := find?_insert_eq_some.mp hx
    · obtain ⟨rfl, rfl⟩ := Prod.mk.inj (Option.some.inj hsent)
      exact ⟨_, (hfind _ _).mpr (.inl ⟨rfl, rfl⟩), rfl⟩
    · obtain ⟨h, hh, hhandle⟩ := hs.awaited x g' pk' id' hx hsent hres
      refine ⟨h, (hfind _ _).mpr (.inr ⟨?_, hh⟩), hhandle⟩
      intro hk
      rw [hk, hkey] at hh
      cases hh
  case unsent =>
    intro x g' hx hsent
    obtain ⟨-, rfl⟩ | ⟨-, hx⟩ := find?_insert_eq_some.mp hx
    · cases hsent
    · exact hs.unsent x g' hx hsent
  case nodup => exact hs.nodup
  case replied =>
    intro x r socket id' hr hrep
    obtain ⟨g', pk', hg', hrest⟩ := hs.replied x r socket id' hr hrep
    have hne : x ≠ f := by
      rintro rfl
      exact hs.unsent x g hg hunsent (mem_map.mpr ⟨_, hr, rfl⟩)
    exact ⟨g', pk', by rwa [find?_insert_of_ne _ _ hne], hrest⟩
  case owned => exact hu.owned
  case found =>
    intro x g' hx
    obtain ⟨-, rfl⟩ | ⟨-, hx⟩ := find?_insert_eq_some.mp hx
    · exact hu.found f g hg
    · exact hu.found x g' hx
  case drawn =>
    intro x g' pk' id' hx hsent
    obtain ⟨-, rfl⟩ | ⟨-, hx⟩ := find?_insert_eq_some.mp hx
    · obtain ⟨rfl, rfl⟩ := Prod.mk.inj (Option.some.inj hsent)
      exact ⟨hissued, _, find?_insert_self .., mem_cons_self⟩
    · exact hu.drawn x g' pk' id' hx hsent

theorem Sound.step (hs : s.Sound) {e : ForwardEvent} (h : forwardStep s e = some t) : t.Sound := by
  cases e with
  | connect socket => exact hs.connect h
  | register socket pks => exact hs.register h
  | query socket id => exact hs.draw h
  | find f requester app inst target => exact hs.find h
  | wait f id => exact hs.wait h
  | write f => exact hs.write h
  | response socket id results =>
    obtain ⟨-, rfl⟩ := of_guard h
    exact hs.resume rfl
  | exception socket id what =>
    simp only [forwardStep, Option.ite_none_left_eq_some] at h
    obtain ⟨-, h⟩ := h
    split_ifs at h with hid
    · exact Option.some.inj h ▸ hs
    · exact Option.some.inj h ▸ hs.resume rfl
  | drop socket =>
    obtain ⟨-, rfl⟩ := of_guard h
    exact { hs with }
  | close socket =>
    obtain ⟨-, rfl⟩ := of_guard h
    apply Sound.onCloseConnection
    exact { hs with }

end Forwarding

end OpcHub.Sockets
