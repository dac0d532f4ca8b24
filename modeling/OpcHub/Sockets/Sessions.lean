import OpcHub.Sockets.Server
import OpcHub.Lib.OrdMap
import Mathlib.Data.Multiset.AddSub
import Mathlib.Data.Int.Basic

/-! The sessions of a server, and the authority it asks for ids it does not hold. A
request presents a session's id: it is served from the entry of the id, if the entry is
alive and was minted for the request's endpoint, and is asked of the authority
otherwise. The answer is merged into whatever entry is then under the id, and the merge
slides the entry's expiration without a look at the entry: it revives an expired one. -/

namespace OpcHub.Sockets

open Lib List Option

abbrev Endpoint := List Char

/-- The timeouts of rest and socket sessions, and which addresses are loopback ones. -/
structure Web where
  restTimeout : ℕ
  socketTimeout : ℕ
  loopback : Endpoint → Bool

/-- An IPv4 address mapped to IPv6 is the IPv4 address. -/
def normalizedAddress (s : Endpoint) : Endpoint :=
  if "::ffff:".toList.isPrefixOf s && s.contains '.' then s.drop 7 else s

def Web.sameEndpoint (w : Web) (a b : Endpoint) : Bool :=
  normalizedAddress a = normalizedAddress b || (w.loopback (normalizedAddress a) && w.loopback (normalizedAddress b))

structure SessionInfo where
  user : UserPK
  endpoint : Endpoint
  hasSocket : Bool
  expiration : ℤ
  /-- The endpoint the session was minted for, here or by the authority. -/
  minted : Endpoint
  /-- The expiration was moved once it had passed. -/
  revived : Bool := false
  deriving DecidableEq

/-- A run of UpsertAwait with a session's id. -/
structure Request where
  id : ℕ
  endpoint : Endpoint
  socket : Bool
  deriving DecidableEq

inductive Answer where
  | session (user : UserPK) (endpoint : Endpoint) (expiration : ℤ) (hasSocket : Bool)
  | notFound
  /-- The authority could not be asked. -/
  | failed
  deriving DecidableEq

/-- Where the session a run resumes with is from, at `now`. -/
inductive Source where
  | entry (expiration now : ℤ) (revived : Bool)
  | authority (expiration now : ℤ)
  deriving DecidableEq

structure Served where
  endpoint : Endpoint
  user : UserPK
  minted : Endpoint
  source : Source
  deriving DecidableEq

/-- A merge that extended the entry under an id. -/
structure Extended where
  notFound : Bool
  endpoint : Endpoint
  minted : Endpoint
  deriving DecidableEq

structure Sessions where
  now : ℤ := 0
  sessions : OrdMap ℕ SessionInfo := ∅
  lastTrim : ℤ := 0
  /-- The runs that wait for the authority. -/
  asking : Multiset Request := 0
  /-- The sessions runs resumed with, and the entries answers extended. -/
  served : List Served := []
  extended : List Extended := []

inductive SessionEvent where
  | advance (time : ℕ)
  | add (id : ℕ) (user : UserPK) (endpoint : Endpoint) (isSocket : Bool)
  | extend (id : ℕ)
  | remove (id : ℕ)
  | trim
  /-- A run looks its id up, and asks the authority, if there is one. -/
  | lookUp (request : Request) (authority : Bool)
  | answer (request : Request) (answer : Answer)
  deriving DecidableEq

namespace Sessions

variable (w : Web)

def newExpiration (s : Sessions) (hasSocket : Bool) : ℤ := s.now + if hasSocket then w.socketTimeout else w.restTimeout

/-- An entry is there already: it is extended, whether alive or not. -/
def upsert (s : Sessions) (request : Request) (info : SessionInfo) (notFound : Bool) : Sessions :=
  (s.sessions.find? request.id).elim { s with sessions := s.sessions.insert request.id info } fun existing =>
    { s with
      sessions := s.sessions.insert request.id
        { existing with
          hasSocket := existing.hasSocket || info.hasSocket
          expiration := newExpiration w s (existing.hasSocket || info.hasSocket)
          revived := existing.revived || existing.expiration ≤ s.now }
      extended := s.extended ++ [{ notFound := notFound, endpoint := request.endpoint, minted := existing.minted }] }

/-- `Add`, with an id that is not in use. -/
def add (s : Sessions) (id : ℕ) (user : UserPK) (endpoint : Endpoint) (isSocket : Bool) : Sessions :=
  { s with
    sessions := s.sessions.insert id
      { user := user, endpoint := endpoint, hasSocket := isSocket, expiration := newExpiration w s isSocket,
        minted := endpoint } }

def extend (s : Sessions) (id : ℕ) : Sessions :=
  { s with
    sessions := s.sessions.modify id fun info =>
      if s.now < info.expiration then { info with expiration := newExpiration w s info.hasSocket } else info }

def remove (s : Sessions) (id : ℕ) : Sessions := { s with sessions := s.sessions.erase id }

/-- UpdateExpiration's trim, once in a rest timeout. -/
def trim (s : Sessions) : Sessions :=
  if s.lastTrim < s.now - w.restTimeout then
    { s with sessions := s.sessions.filter fun _ info => ¬ info.expiration < s.now, lastTrim := s.now }
  else s

def resume (s : Sessions) (request : Request) (info : SessionInfo) (source : Source) : Sessions :=
  { s with
    served := s.served ++ [{ endpoint := request.endpoint, user := info.user, minted := info.minted, source := source }] }

/-- The entry UpdateExpiration finds: of the request's endpoint, and alive. -/
def found (s : Sessions) (request : Request) : Option SessionInfo :=
  (s.sessions.find? request.id).filter fun info => w.sameEndpoint info.endpoint request.endpoint && s.now < info.expiration

def updateExpiration (s : Sessions) (request : Request) (info : SessionInfo) : Sessions :=
  { s with
    sessions := s.sessions.insert request.id
      { info with
        hasSocket := info.hasSocket || request.socket
        expiration := newExpiration w s (info.hasSocket || request.socket) } }

def lookUp (s : Sessions) (request : Request) (authority : Bool) : Sessions :=
  (found w s request).elim (if authority then { s with asking := request ::ₘ s.asking } else s) fun info =>
    (updateExpiration w s request info).resume request info (.entry info.expiration s.now info.revived)

/-- The authority's answer; one for another endpoint is denied. -/
def answer (s : Sessions) (request : Request) : Answer → Sessions
  | .session user endpoint expiration _ =>
    if w.sameEndpoint endpoint request.endpoint then
      let info : SessionInfo :=
        { user := user, endpoint := request.endpoint, hasSocket := request.socket, expiration := expiration, minted := endpoint }
      (upsert w s request info false).resume request info (.authority expiration s.now)
    else s
  | .notFound =>
    let info : SessionInfo :=
      { user := 0, endpoint := request.endpoint, hasSocket := request.socket, expiration := s.now + w.restTimeout,
        minted := request.endpoint }
    (upsert w s request info true).resume request info (.authority info.expiration s.now)
  | .failed => s

def step (s : Sessions) : SessionEvent → Option Sessions
  | .advance time => some { s with now := s.now + time }
  | .add id user endpoint isSocket => if s.sessions.contains id then none else some (add w s id user endpoint isSocket)
  | .extend id => some (extend w s id)
  | .remove id => some (s.remove id)
  | .trim => some (trim w s)
  | .lookUp request authority => some (lookUp w s request authority)
  | .answer request ans =>
    if request ∈ s.asking then some (answer w { s with asking := s.asking.erase request } request ans) else none

end Sessions

/-- An entry that is alive and was never revived, or an answer that is alive. -/
def Source.Alive : Source → Prop
  | .entry expiration now revived => now < expiration ∧ revived = false
  | .authority expiration now => now < expiration

/-- A user's session is served to its endpoint, and alive. -/
def Served.Lawful (w : Web) (x : Served) : Prop := x.user ≠ 0 → w.sameEndpoint x.endpoint x.minted = true ∧ x.source.Alive

/-- An answer extends an entry that is there only as the authority has it, and to the entry's endpoint. -/
def Extended.Lawful (w : Web) (x : Extended) : Prop := x.notFound = false ∧ w.sameEndpoint x.endpoint x.minted = true

/-- The entry's endpoint is the one it was minted for, and a user's entry was never moved once it had expired. -/
def SessionInfo.Sound (w : Web) (info : SessionInfo) : Prop :=
  w.sameEndpoint info.endpoint info.minted = true ∧ (info.user ≠ 0 → info.revived = false)

section Endpoints

variable {w : Web} {a b c : Endpoint}

theorem sameEndpoint_iff : w.sameEndpoint a b = true ↔ normalizedAddress a = normalizedAddress b ∨
    w.loopback (normalizedAddress a) = true ∧ w.loopback (normalizedAddress b) = true := by
  simp [Web.sameEndpoint]

theorem sameEndpoint_refl (w : Web) (a : Endpoint) : w.sameEndpoint a a = true := sameEndpoint_iff.mpr (.inl rfl)

theorem sameEndpoint_symm (h : w.sameEndpoint a b = true) : w.sameEndpoint b a = true :=
  sameEndpoint_iff.mpr ((sameEndpoint_iff.mp h).imp Eq.symm And.symm)

theorem sameEndpoint_trans (h : w.sameEndpoint a b = true) (h' : w.sameEndpoint b c = true) : w.sameEndpoint a c = true := by
  rw [sameEndpoint_iff] at *
  rcases h with h | h <;> rcases h' with h' | h'
  · exact .inl (h.trans h')
  · exact .inr ⟨h ▸ h'.1, h'.2⟩
  · exact .inr ⟨h.1, h' ▸ h.2⟩
  · exact .inr ⟨h.1, h'.2⟩

end Endpoints

namespace Sessions

variable {w : Web} {s t : Sessions} {id : ℕ} {info : SessionInfo} {request : Request}

/-- What was served and extended keeps to the law. -/
structure Lawful (w : Web) (s : Sessions) : Prop where
  served : ∀ x ∈ s.served, x.Lawful w
  extended : ∀ x ∈ s.extended, x.Lawful w

/-- What an answer must not do: extend an entry by a NotFound, from another endpoint or once a user's has expired, or
name a user with an expiration passed. -/
def Keeps (w : Web) (s : Sessions) : SessionEvent → Prop
  | .answer request (.session user endpoint expiration _) => w.sameEndpoint endpoint request.endpoint = true →
      (user ≠ 0 → s.now < expiration) ∧ ∀ existing ∈ s.sessions.find? request.id,
        w.sameEndpoint request.endpoint existing.minted = true ∧ (existing.user ≠ 0 → s.now < existing.expiration)
  | .answer request .notFound => s.sessions.find? request.id = none
  | _ => True

structure Sound (w : Web) (s : Sessions) : Prop extends Lawful w s where
  entries : ∀ id info, s.sessions.find? id = some info → info.Sound w

theorem Sound.insert (h : Sound w s) (id : ℕ) (hi : info.Sound w) : Sound w { s with sessions := s.sessions.insert id info } := by
  refine ⟨⟨h.served, h.extended⟩, fun id' info' hf => ?_⟩
  rw [OrdMap.find?_insert] at hf
  split_ifs at hf
  · exact some.inj hf ▸ hi
  · exact h.entries id' info' hf

theorem lawful_resume {source : Source} : Lawful w (s.resume request info source) ↔ Lawful w s ∧
    Served.Lawful w { endpoint := request.endpoint, user := info.user, minted := info.minted, source := source } := by
  constructor
  · intro h
    obtain ⟨hserved, hnew⟩ := forall_mem_append.mp h.served
    exact ⟨⟨hserved, h.extended⟩, hnew _ (mem_singleton_self _)⟩
  · rintro ⟨h, hnew⟩
    exact ⟨forall_mem_append.mpr ⟨h.served, forall_mem_singleton.mpr hnew⟩, h.extended⟩

/-- A merge is lawful if it extends nothing, or as the authority has it from the entry's endpoint. -/
theorem lawful_upsert {notFound : Bool} : Lawful w (upsert w s request info notFound) ↔ Lawful w s ∧
    ∀ existing ∈ s.sessions.find? request.id, notFound = false ∧ w.sameEndpoint request.endpoint existing.minted = true := by
  unfold upsert
  cases hf : s.sessions.find? request.id with
  | none => exact ⟨fun h => ⟨⟨h.served, h.extended⟩, by simp⟩, fun h => ⟨h.1.served, h.1.extended⟩⟩
  | some existing =>
    simp only [Option.elim, Option.mem_some, forall_eq']
    constructor
    · intro h
      obtain ⟨hextended, hnew⟩ := forall_mem_append.mp h.extended
      exact ⟨⟨h.served, hextended⟩, hnew _ (mem_singleton_self _)⟩
    · rintro ⟨h, hnew⟩
      exact ⟨h.served, forall_mem_append.mpr ⟨h.extended, forall_mem_singleton.mpr hnew⟩⟩

/-- A merge into an entry that is alive and of the request's endpoint moves no expiration that has passed. -/
theorem Sound.upsert (h : Sound w s) (request : Request) (notFound : Bool) (hi : info.Sound w)
    (hexisting : ∀ existing ∈ s.sessions.find? request.id, notFound = false ∧
      w.sameEndpoint request.endpoint existing.minted = true ∧ (existing.user ≠ 0 → s.now < existing.expiration)) :
    Sound w (upsert w s request info notFound) := by
  refine ⟨lawful_upsert.mpr ⟨h.toLawful, fun x hx => ⟨(hexisting x hx).1, (hexisting x hx).2.1⟩⟩, ?_⟩
  unfold Sessions.upsert
  cases hf : s.sessions.find? request.id with
  | none => exact (h.insert request.id hi).entries
  | some existing =>
    obtain ⟨hminted, hrevived⟩ := h.entries _ existing hf
    have hextended : SessionInfo.Sound w { existing with
        hasSocket := existing.hasSocket || info.hasSocket
        expiration := newExpiration w s (existing.hasSocket || info.hasSocket)
        revived := existing.revived || existing.expiration ≤ s.now } :=
      ⟨hminted, fun huser => by simp [hrevived huser, (hexisting existing hf).2.2 huser]⟩
    exact (h.insert request.id hextended).entries

theorem found_eq_some : found w s request = some info ↔ s.sessions.find? request.id = some info ∧
    w.sameEndpoint info.endpoint request.endpoint = true ∧ s.now < info.expiration := by
  simp [found, filter_eq_some_iff]

/-- A look-up serves what no answer has revived. -/
theorem Sound.lookUp (h : Sound w s) (request : Request) (authority : Bool) :
    Sound w (lookUp w s request authority) := by
  unfold Sessions.lookUp
  cases hf : found w s request with
  | none =>
    dsimp only [Option.elim]
    split_ifs
    · exact ⟨⟨h.served, h.extended⟩, h.entries⟩
    · exact h
  | some info =>
    obtain ⟨hfind, hsame, halive⟩ := found_eq_some.mp hf
    have hinfo := h.entries request.id info hfind
    have hupdate : Sound w (updateExpiration w s request info) := h.insert request.id hinfo
    refine ⟨lawful_resume.mpr ⟨hupdate.toLawful, fun huser => ?_⟩, hupdate.entries⟩
    exact ⟨sameEndpoint_trans (sameEndpoint_symm hsame) hinfo.1, halive, hinfo.2 huser⟩

theorem Sound.answer {ans : Answer} (h : Sound w s) (hk : Keeps w s (.answer request ans)) :
    Sound w (answer w s request ans) := by
  cases ans with
  | session user endpoint expiration hasSocket =>
    unfold Sessions.answer
    dsimp only
    split_ifs with hsame
    · obtain ⟨halive, hexisting⟩ := hk hsame
      have hinfo : SessionInfo.Sound w ⟨user, request.endpoint, request.socket, expiration, endpoint, false⟩ :=
        ⟨sameEndpoint_symm hsame, fun _ => rfl⟩
      have hmerged := h.upsert request false hinfo fun x hx => ⟨rfl, hexisting x hx⟩
      refine ⟨lawful_resume.mpr ⟨hmerged.toLawful, fun huser => ?_⟩, hmerged.entries⟩
      exact ⟨sameEndpoint_symm hsame, halive huser⟩
    · exact h
  | notFound =>
    have hnone : s.sessions.find? request.id = none := hk
    have hinfo : SessionInfo.Sound w
        ⟨0, request.endpoint, request.socket, s.now + w.restTimeout, request.endpoint, false⟩ :=
      ⟨sameEndpoint_refl w _, fun _ => rfl⟩
    have hmerged := h.upsert request true hinfo (by simp [hnone])
    exact ⟨lawful_resume.mpr ⟨hmerged.toLawful, fun huser => absurd rfl huser⟩, hmerged.entries⟩
  | failed => exact h

/-- No event but an answer can revive an entry, and no answer that keeps to its condition does. -/
theorem Sound.step {event : SessionEvent} (h : Sound w s) (hk : Keeps w s event) (hstep : step w s event = some t) :
    Sound w t := by
  cases event with
  | advance time =>
    cases hstep
    exact ⟨⟨h.served, h.extended⟩, h.entries⟩
  | add id user endpoint isSocket =>
    obtain ⟨-, rfl⟩ := of_unless hstep
    exact h.insert id ⟨sameEndpoint_refl w endpoint, fun _ => rfl⟩
  | extend id =>
    cases hstep
    refine ⟨⟨h.served, h.extended⟩, fun id' info hf => ?_⟩
    simp only [extend, OrdMap.find?_modify] at hf
    split_ifs at hf
    · obtain ⟨old, hold, rfl⟩ := map_eq_some_iff.mp hf
      split_ifs <;> exact h.entries id' old hold
    · exact h.entries id' info hf
  | remove id =>
    cases hstep
    refine ⟨⟨h.served, h.extended⟩, fun id' info hf => ?_⟩
    exact h.entries id' info (OrdMap.find?_erase_eq_some.mp hf).2
  | trim =>
    cases hstep
    unfold trim
    split_ifs
    · exact ⟨⟨h.served, h.extended⟩, fun id' info hf => h.entries id' info (OrdMap.find?_filter_eq_some.mp hf).1⟩
    · exact h
  | lookUp request authority =>
    cases hstep
    exact h.lookUp request authority
  | answer request ans =>
    obtain ⟨-, rfl⟩ := of_guard hstep
    have herased : Sound w { s with asking := s.asking.erase request } := ⟨⟨h.served, h.extended⟩, h.entries⟩
    refine herased.answer ?_
    cases ans <;> exact hk

section Necessary

variable (hrest : 0 < w.restTimeout) (hsocket : 0 < w.socketTimeout)

include hrest hsocket

end Necessary

instance (w : Web) (s : Sessions) : DecidablePred (Keeps w s)
  | .answer _ (.session _ _ _ _) => inferInstanceAs (Decidable (_ → _ ∧ ∀ existing ∈ _, _ ∧ _))
  | .answer _ .notFound => inferInstanceAs (Decidable (_ = none))
  | .answer _ .failed | .advance _ | .add _ _ _ _ | .extend _ | .remove _ | .trim | .lookUp _ _ => isTrue trivial

end Sessions

end OpcHub.Sockets
