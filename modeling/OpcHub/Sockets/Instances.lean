import OpcHub.Sockets.Forward

/-! The names instances register under. A registration claims its name, awaits, and
publishes what it claimed; a claim is refused where another socket, registering or
registered, has the name with another resource schema. The claims are kept by socket,
one for each, and end with the run that made them. A second run of a socket leaves the
first one's claim standing, or takes it away, and then registers a name that nobody
sees it claim; and an evicted socket is out of sight before it is closed. -/

namespace OpcHub.Sockets

open Lib OrdMap

/-- `Proto::FromClient::Instance`, with what names and tells apart. -/
structure Instance where
  application : String := ""
  instanceName : String := ""
  authResource : String := ""
  host : String := ""
  pid : UInt32 := 0
  webPort : UInt32 := 0
  deriving DecidableEq

/-- Of one name, with another schema, and neither one process nor a restart. -/
def Instance.conflicts (x other : Instance) : Bool :=
  let sameProcess := other.host = x.host && other.pid = x.pid
  let restart := x.webPort ≠ 0 && other.host = x.host && other.webPort = x.webPort
  other.application = x.application && other.instanceName = x.instanceName && other.authResource ≠ x.authResource &&
    !sameProcess && !restart

/-- `ServerSocketSession`, with the instance it published last. -/
structure Registrant where
  inst : Instance := {}
  published : Bool := false
  isOpen : Bool := true
  deriving DecidableEq

structure Registering where
  registrants : OrdMap SocketId Registrant := ∅
  /-- `_sessions`. -/
  sessions : List SocketId := []
  /-- `_claims`. -/
  claims : OrdMap SocketId Instance := ∅
  /-- The runs of AddInstance that hold an InstanceClaim. -/
  running : List (SocketId × Instance) := []
  deriving DecidableEq

inductive RegisterEvent where
  | connect (socket : SocketId)
  /-- A run of AddInstance, adopted, up to its wait for the hosts. -/
  | claim (socket : SocketId) (x : Instance)
  /-- From there to its end. -/
  | publish (socket : SocketId) (x : Instance)
  /-- Its end by an exception, which may come after RemoveExisting. -/
  | fail (socket : SocketId) (x : Instance) (evicts : Bool)
  | close (socket : SocketId)
  deriving DecidableEq

namespace Registering

variable (s : Registering)

/-- Those evicted are closed later, on their strands. -/
def removeExisting (host : String) (port : UInt32) : Registering :=
  if port = 0 then s
  else { s with
    sessions := s.sessions.filter fun id =>
      !(s.registrants.find? id).any fun existing => existing.inst.host = host && existing.inst.webPort = port }

/-- None where it throws. A claim that stands is not replaced. -/
def claimInstance (socket : SocketId) (x : Instance) : Option Registering :=
  if (s.claims.entries.any fun e => e.1 ≠ socket && x.conflicts e.2) ||
    s.sessions.any fun id => id ≠ socket && (s.registrants.find? id).any fun other => other.isOpen && x.conflicts other.inst
  then none
  else some { s with claims := s.claims.emplace socket x, running := (socket, x) :: s.running }

/-- The end of a run: `~InstanceClaim` takes a socket 0 for none. -/
def release (socket : SocketId) (x : Instance) : Registering :=
  { s with running := s.running.erase (socket, x), claims := if socket = 0 then s.claims else s.claims.erase socket }

/-- The instance is published under its socket's lock. -/
def publish (socket : SocketId) (x : Instance) : Registering :=
  { s with registrants := s.registrants.modify socket fun r => { r with inst := x, published := true } }

end Registering

/-- One event; none where it cannot happen, or throws and changes nothing. -/
def registerStep (s : Registering) : RegisterEvent → Option Registering
  | .connect socket =>
    if s.registrants.contains socket then none
    else some { s with registrants := s.registrants.insert socket {}, sessions := socket :: s.sessions }
  | .claim socket x => if s.registrants.contains socket then s.claimInstance socket x else none
  | .publish socket x =>
    if (socket, x) ∈ s.running then some (((s.removeExisting x.host x.webPort).publish socket x).release socket x) else none
  | .fail socket x evicts =>
    if (socket, x) ∈ s.running then some ((if evicts then s.removeExisting x.host x.webPort else s).release socket x) else none
  | .close socket =>
    if (s.registrants.find? socket).any Registrant.isOpen then
      some { s with
        registrants := s.registrants.modify socket fun r => { r with isOpen := false }
        sessions := s.sessions.filter (· ≠ socket) }
    else none

/-- Instances of one name have one schema, or are of one process or one endpoint. -/
def Instance.Agrees (x y : Instance) : Prop :=
  x.application = y.application → x.instanceName = y.instanceName → x.authResource = y.authResource ∨
    x.host = y.host ∧ x.pid = y.pid ∨ x.host = y.host ∧ x.webPort = y.webPort ∧ x.webPort ≠ 0

theorem Instance.agrees_of_not_conflicts {x y : Instance} (h : x.conflicts y = false) : x.Agrees y := by
  intro happ hname
  by_contra hnot
  simp only [not_or] at hnot
  simp only [conflicts, happ, hname] at h
  grind

theorem Instance.Agrees.symm {x y : Instance} (h : x.Agrees y) : y.Agrees x := by
  intro happ hname
  rcases h happ.symm hname.symm with hschema | ⟨hhost, hpid⟩ | ⟨hhost, hport, hne⟩
  · exact .inl hschema.symm
  · exact .inr (.inl ⟨hhost.symm, hpid.symm⟩)
  · exact .inr (.inr ⟨hhost.symm, hport.symm, hport ▸ hne⟩)

namespace Registering

/-- The socket is open and the instance is what it published last. -/
def Live (s : Registering) (socket : SocketId) (x : Instance) : Prop :=
  ∃ r, s.registrants.find? socket = some r ∧ r.isOpen = true ∧ r.published = true ∧ r.inst = x

/-- What different open sockets have published agrees. -/
def OneSchema (s : Registering) : Prop := ∀ a b x y, a ≠ b → s.Live a x → s.Live b y → x.Agrees y

/-- A claim comes when its socket has none standing, and every open socket that is registered is in `_sessions`. -/
def Orderly (s : Registering) : RegisterEvent → Prop
  | .claim socket _ => s.claims.contains socket = false ∧
      ∀ e ∈ s.registrants.entries, e.2.isOpen = true → e.2.published = true → e.1 ∈ s.sessions
  | _ => True

instance : ∀ (s : Registering) e, Decidable (s.Orderly e)
  | s, .claim socket _ => inferInstanceAs (Decidable (s.claims.contains socket = false ∧
      ∀ e ∈ s.registrants.entries, e.2.isOpen = true → e.2.published = true → e.1 ∈ s.sessions))
  | _, .connect _ | _, .publish _ _ | _, .fail _ _ _ | _, .close _ => isTrue trivial

/-- What a socket has claimed or published. -/
def Named (s : Registering) (socket : SocketId) (x : Instance) : Prop :=
  s.claims.find? socket = some x ∨ s.Live socket x

structure Sound (s : Registering) : Prop where
  single : (s.running.map Prod.fst).Nodup
  held : ∀ e ∈ s.running, s.claims.find? e.1 = some e.2
  apart : ∀ a b x y, a ≠ b → s.Named a x → s.Named b y → x.Agrees y

variable {s t : Registering} {socket : SocketId} {x : Instance}

theorem removeExisting_eq (host : String) (port : UInt32) :
    ∃ sessions, s.removeExisting host port = { s with sessions } := by
  unfold removeExisting
  split_ifs
  · exact ⟨s.sessions, rfl⟩
  · exact ⟨_, rfl⟩

variable (hs : s.Sound)
include hs

variable {sessions : List SocketId}

/-- Registrants change, but for no new instance of an open socket that is not claimed. -/
theorem Sound.registrants {registrants : OrdMap SocketId Registrant}
    (h : ∀ a y, Live { s with registrants } a y → s.Named a y) : Sound { s with registrants, sessions } where
  single := hs.single
  held := hs.held
  apart a b y z hne hy hz := by
    have hsub : ∀ a y, Named { s with registrants, sessions } a y → s.Named a y := fun a y hy => hy.elim .inl (h a y)
    exact hs.apart a b y z hne (hsub a y hy) (hsub b z hz)

theorem Sound.modify {f : Registrant → Registrant}
    (h : ∀ r, (f r).isOpen = true → (f r).published = true → s.registrants.find? socket = some r →
      s.Named socket (f r).inst) : Sound { s with registrants := s.registrants.modify socket f, sessions } := by
  refine hs.registrants ?_
  rintro a _ ⟨r, hr, hopen, hpublished, rfl⟩
  dsimp only at hr
  rw [find?_modify] at hr
  split_ifs at hr with ha
  · subst ha
    obtain ⟨old, hold, rfl⟩ := Option.map_eq_some_iff.mp hr
    exact h old hopen hpublished hold
  · exact .inr ⟨r, hr, hopen, hpublished, rfl⟩

/-- A run that ends takes its own claim with it: no other run is of its socket. -/
theorem Sound.release (hrun : (socket, x) ∈ s.running) : (s.release socket x).Sound where
  single := hs.single.sublist (List.erase_sublist.map _)
  held e he := by
    have hsingle := ((List.perm_cons_erase hrun).map Prod.fst).nodup_iff.mp hs.single
    have hne : e.1 ≠ socket := fun heq => (List.nodup_cons.mp hsingle).1 (List.mem_map.mpr ⟨e, he, heq⟩)
    have hheld := hs.held e (List.mem_of_mem_erase he)
    unfold Registering.release
    split_ifs
    · exact hheld
    · exact find?_erase_eq_some.mpr ⟨hne, hheld⟩
  apart a b y z hne hy hz := by
    have hsub : ∀ a y, (s.release socket x).Named a y → s.Named a y := by
      rintro a y (hclaim | hlive)
      · unfold Registering.release at hclaim
        split_ifs at hclaim
        · exact .inl hclaim
        · exact .inl (find?_erase_eq_some.mp hclaim).2
      · exact .inr hlive
    exact hs.apart a b y z hne (hsub a y hy) (hsub b z hz)

/-- A claim that is granted is of a name nobody else has with another schema. -/
theorem Sound.claim (hord : s.Orderly (.claim socket x)) (h : s.claimInstance socket x = some t) : t.Sound := by
  obtain ⟨hnone, hseen⟩ := hord
  obtain ⟨hfree, rfl⟩ := of_unless h
  have hnone : s.claims.find? socket = none := by simpa [contains] using hnone
  simp only [Bool.or_eq_true, List.any_eq_true, Bool.and_eq_true, not_or, not_exists, not_and, decide_eq_true_eq,
    Option.any_eq_true] at hfree
  have hother : ∀ b y, b ≠ socket → s.Named b y → x.Agrees y := by
    rintro b y hb (hclaim | ⟨r, hr, hopen, hpublished, rfl⟩)
    · exact Instance.agrees_of_not_conflicts (by simpa using hfree.1 (b, y) (mem_entries_iff.mpr hclaim) hb)
    · have hin := hseen (b, r) (mem_entries_iff.mpr hr) hopen hpublished
      exact Instance.agrees_of_not_conflicts (by simpa using hfree.2 b hin hb r hr hopen)
  have hfind : ∀ a, (s.claims.emplace socket x).find? a = if a = socket then some x else s.claims.find? a := by
    intro a
    rw [find?_emplace, hnone]
    rfl
  refine ⟨List.nodup_cons.mpr ⟨fun hmem => ?_, hs.single⟩, fun e he => ?_, fun a b y z hne hy hz => ?_⟩
  · obtain ⟨e, he, rfl⟩ := List.mem_map.mp hmem
    cases hnone.symm.trans (hs.held e he)
  · dsimp only
    rw [hfind]
    rcases List.mem_cons.mp he with rfl | he
    · exact if_pos rfl
    · rw [if_neg fun heq => ?_, hs.held e he]
      cases (heq ▸ hnone).symm.trans (hs.held e he)
  · have hsub : ∀ a y, Named { s with claims := s.claims.emplace socket x, running := (socket, x) :: s.running } a y →
        a = socket ∧ y = x ∨ s.Named a y := by
      rintro a y (hclaim | hlive)
      · dsimp only at hclaim
        rw [hfind] at hclaim
        split_ifs at hclaim with ha
        · exact .inl ⟨ha, (Option.some.inj hclaim).symm⟩
        · exact .inr (.inl hclaim)
      · exact .inr (.inr hlive)
    rcases hsub a y hy with ⟨rfl, rfl⟩ | hold
    · rcases hsub b z hz with ⟨rfl, -⟩ | hold
      · exact absurd rfl hne
      · exact hother b z hne.symm hold
    · rcases hsub b z hz with ⟨rfl, rfl⟩ | hold'
      · exact (hother a y hne hold).symm
      · exact hs.apart a b y z hne hold hold'

theorem Sound.step {e : RegisterEvent} (hord : s.Orderly e) (hstep : registerStep s e = some t) : t.Sound := by
  cases e with
  | connect socket =>
    obtain ⟨-, rfl⟩ := of_unless hstep
    refine hs.registrants ?_
    rintro a y ⟨r, hr, hopen, hpublished, rfl⟩
    obtain ⟨-, rfl⟩ | ⟨-, hr⟩ := find?_insert_eq_some.mp hr
    · cases hpublished
    · exact .inr ⟨r, hr, hopen, hpublished, rfl⟩
  | claim socket x => exact hs.claim hord (Option.ite_none_right_eq_some.mp hstep).2
  | publish socket x =>
    obtain ⟨hrun, rfl⟩ := of_guard hstep
    obtain ⟨sessions, heq⟩ := s.removeExisting_eq x.host x.webPort
    rw [heq]
    refine Sound.release (s := publish { s with sessions } socket x) ?_ hrun
    exact hs.modify fun _ _ _ _ => .inl (hs.held _ hrun)
  | fail socket x evicts =>
    obtain ⟨hrun, rfl⟩ := of_guard hstep
    cases evicts with
    | false => exact hs.release hrun
    | true =>
      obtain ⟨sessions, heq⟩ := s.removeExisting_eq x.host x.webPort
      rw [if_pos rfl, heq]
      exact Sound.release (s := { s with sessions }) { hs with } hrun
  | close socket =>
    obtain ⟨-, rfl⟩ := of_guard hstep
    exact hs.modify nofun

omit hs

/-- In every run whose claims are orderly, whatever else fails, evicts or disconnects, one name has one schema. -/
theorem oneSchema_of_orderly {es : List RegisterEvent} (hrun : exec registerStep {} es = some s)
    (hord : Along registerStep Orderly {} es) : s.OneSchema := by
  have hempty : Sound {} := ⟨.nil, nofun, fun _ _ _ _ _ h => by obtain h | ⟨_, h, -⟩ := h <;> cases h⟩
  have hsound := hord.exec_induction (fun hs hP hstep => hs.step hP hstep) hempty hrun
  exact fun a b x y hne hx hy => hsound.apart a b x y hne (.inr hx) (.inr hy)

/-- An instance of the program `hub` on its own host. -/
def hubInstance (name schema host : String) : Instance :=
  { application := "hub", instanceName := name, authResource := schema, host := host, pid := 7 }

/-- A restart of the program evicts the socket of its endpoint and fails to register once; another registers beside it. -/
def restarted : List RegisterEvent :=
  let x := { hubInstance "one" "a" "x" with webPort := 80 }
  [.connect 1, .claim 1 x, .connect 2, .publish 1 x, .connect 3, .claim 3 { x with pid := 8 },
    .fail 3 { x with pid := 8 } true, .close 1, .claim 3 { x with pid := 8 }, .publish 3 { x with pid := 8 },
    .claim 2 (hubInstance "one" "a" "y"), .publish 2 (hubInstance "one" "a" "y")]

/-- Two sockets stay registered under the name. -/
theorem restarted_oneSchema : ∃ s, exec registerStep {} restarted = some s ∧ s.OneSchema ∧
    (s.registrants.entries.filter fun e => e.2.isOpen && e.2.published).map Prod.fst = [2, 3] := by
  have hrun : exec registerStep {} restarted = some _ := rfl
  exact ⟨_, hrun, oneSchema_of_orderly hrun (by decide +kernel), by decide +kernel⟩

/-- A socket claims a second name before the first is published; the second is not kept, and another socket has it. -/
def claimedTwice : List RegisterEvent :=
  [.connect 1, .connect 2, .claim 1 (hubInstance "one" "a" "x"), .claim 1 (hubInstance "two" "a" "x"),
    .claim 2 (hubInstance "two" "b" "y"), .publish 1 (hubInstance "two" "a" "x"), .publish 2 (hubInstance "two" "b" "y")]

theorem claimedTwice_conflicts : ∃ s, exec registerStep {} claimedTwice = some s ∧ ¬ s.OneSchema := by
  refine ⟨_, rfl, fun h => ?_⟩
  have hagrees := h 1 2 (hubInstance "two" "a" "x") (hubInstance "two" "b" "y") (by decide) ⟨_, rfl, rfl, rfl, rfl⟩
    ⟨_, rfl, rfl, rfl, rfl⟩
  exact absurd (hagrees rfl rfl) (by decide)

end Registering

end OpcHub.Sockets
