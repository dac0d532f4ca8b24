import OpcHub.Sockets.Forward

/-! When every forward is answered. Replies are matched by the connection and the id
a forward was sent with, in every run; that a disconnect fails every wait of its
socket needs the wait to be registered before the disconnect is handled, and under the
connection the socket still has then. -/

namespace OpcHub.Sockets

open Lib OrdMap List Option Forwarding Prod

namespace Forwarding

variable {s t : Forwarding}

/-- The socket is connected, or its disconnect still has waits to fail. -/
def Here (s : Forwarding) (socket : SocketId) : Prop := socket ∈ s.connected ∨ socket ∈ s.closing

instance (s : Forwarding) (socket : SocketId) : Decidable (s.Here socket) := instDecidableOr

/-- No forward is between its steps and no disconnect is being handled. -/
def Quiet (s : Forwarding) : Prop := s.closing = [] ∧ ∀ g ∈ s.forwards.values, g.written = true

instance (s : Forwarding) : Decidable s.Quiet := instDecidableAnd

/-- Each forward is resumed at most once; with a reply only by the session it was sent to, under the id it was sent
with; and one that waits while the server is quiet has both its ends connected. -/
structure AnsweredOnce (s : Forwarding) : Prop where
  once : (s.resumed.map Prod.fst).Nodup
  own : ∀ f r socket id, (f, r) ∈ s.resumed → r.reply = some (socket, id) →
    ∃ g pk, s.forwards.find? f = some g ∧ g.target = socket ∧ g.sentAs = some (pk, id)
  connected : s.Quiet → ∀ f g, s.forwards.find? f = some g → g.sentAs.isSome → f ∉ s.resumed.map Prod.fst →
    g.requester ∈ s.connected ∧ g.target ∈ s.connected

/-- A wait is registered before the disconnects of its two ends are handled, and a session registers once. -/
def Timely (s : Forwarding) : ForwardEvent → Prop
  | .register socket _ => (s.pksOf socket).connection = 0
  | .wait forward _ => ∀ g ∈ s.forwards.find? forward, s.Here g.requester ∧ s.Here g.target
  | _ => True

instance (s : Forwarding) (e : ForwardEvent) : Decidable (s.Timely e) := by
  cases e <;> unfold Timely <;> infer_instance

/-! What holds of the two ends of a wait, in the runs that are timely. -/

structure Attended (s : Forwarding) : Prop where
  here : ∀ f g, s.forwards.find? f = some g → g.sentAs.isSome → f ∉ s.resumed.map Prod.fst →
    s.Here g.requester ∧ s.Here g.target
  /-- The target still has the connection that it was found and sent to with. -/
  steady : ∀ f g, s.forwards.find? f = some g →
    (s.pksOf g.target).connection ≠ 0 ∧ ∀ a, g.sentAs = some a → a.1 = (s.pksOf g.target).connection

theorem attended_empty : Attended {} where
  here _ _ h := by cases h
  steady _ _ h := by cases h

/-- A step that changes neither the connections nor the forwards, drops no socket and undoes no resumption. -/
theorem Attended.mono (hs : s.Attended) (hforwards : t.forwards = s.forwards)
    (hresumed : ∀ f ∈ s.resumed.map fst, f ∈ t.resumed.map fst)
    (hhere : ∀ socket, s.Here socket → t.Here socket)
    (hpks : ∀ f g, s.forwards.find? f = some g → (t.pksOf g.target).connection = (s.pksOf g.target).connection) :
    t.Attended := by
  constructor
  case here =>
    intro f g hg hsent hres
    rw [hforwards] at hg
    obtain ⟨hreq, htarget⟩ := hs.here f g hg hsent fun h => hres (hresumed f h)
    exact ⟨hhere _ hreq, hhere _ htarget⟩
  case steady =>
    intro f g hg
    rw [hforwards] at hg
    rw [hpks f g hg]
    exact hs.steady f g hg

theorem pksOf_insert (s : Forwarding) (socket x : SocketId) (p : Peer) :
    { s with peers := s.peers.insert socket p }.pksOf x = if x = socket then p.pks else s.pksOf x := by
  simp only [pksOf, find?_insert]
  split_ifs <;> rfl

variable {socket : SocketId} {id : UInt32} {f : ForwardId}

theorem pksOf_draw (h : s.draw socket id = some t) (x : SocketId) : t.pksOf x = s.pksOf x := by
  simp only [draw, bind_eq_some_iff, ite_none_left_eq_some, some.injEq] at h
  obtain ⟨p, hp, -, rfl⟩ := h
  rw [pksOf_insert]
  split_ifs with hx
  · rw [hx, pksOf_eq hp]
  · rfl

theorem draw_eq (h : s.draw socket id = some t) : t = { s with peers := t.peers } := by
  simp only [draw, bind_eq_some_iff, ite_none_left_eq_some, some.injEq] at h
  obtain ⟨p, -, -, rfl⟩ := h
  rfl

theorem Attended.wait (hs : s.Attended) (h : s.wait f id = some t)
    (hends : ∀ g ∈ s.forwards.find? f, s.Here g.requester ∧ s.Here g.target) : t.Attended := by
  simp only [Forwarding.wait, bind_eq_some_iff, ite_none_left_eq_some, map_eq_some_iff] at h
  obtain ⟨g, hg, -, u, hdraw, rfl⟩ := h
  have hpks := pksOf_draw hdraw
  rw [draw_eq hdraw] at hpks ⊢
  constructor
  case here =>
    intro x g' hx hsent hres
    rw [find?_insert] at hx
    split_ifs at hx with heq
    · cases hx
      exact hends g hg
    · exact hs.here x g' hx hsent hres
  case steady =>
    intro x g' hx
    change ({ s with peers := u.peers }.pksOf g'.target).connection ≠ 0 ∧
      ∀ a, g'.sentAs = some a → a.1 = ({ s with peers := u.peers }.pksOf g'.target).connection
    rw [hpks]
    rw [find?_insert] at hx
    split_ifs at hx with heq
    · cases hx
      refine ⟨(hs.steady f g hg).1, ?_⟩
      rintro a ha
      rw [← some.inj ha]
    · exact hs.steady x g' hx

theorem mem_resumed_resume {r : Resumption} {pk : UInt32} (h : f ∈ s.resumed.map fst) :
    f ∈ (s.resume r id pk).resumed.map fst := by
  unfold resume
  split_ifs
  · exact h
  · cases s.messages.find? (forwardKey pk id) with
    | none => exact h
    | some m =>
      rw [elim_some, map_append]
      exact mem_append_left _ h

theorem resume_eq (r : Resumption) (id pk : UInt32) :
    s.resume r id pk = { s with messages := (s.resume r id pk).messages, resumed := (s.resume r id pk).resumed } := by
  unfold resume
  split_ifs
  · rfl
  · cases s.messages.find? (forwardKey pk id) <;> rfl

theorem Attended.resume (hs : s.Attended) (r : Resumption) (id pk : UInt32) : (s.resume r id pk).Attended := by
  apply hs.mono
  · rw [resume_eq]
  · exact fun _ => mem_resumed_resume
  · intro socket h
    rw [resume_eq]
    exact h
  · intro f g _
    rw [resume_eq]
    rfl

/-- The waits of the socket that goes are failed: those it asked for, and those that its connection was to answer. -/
theorem Attended.close (hs : s.Attended) (hsound : s.Sound) :
    ({ s with closing := s.closing.filter (· ≠ socket) }.onCloseConnection socket
      (s.pksOf socket).connection).Attended := by
  constructor
  case here =>
    intro f g hg hsent hres
    obtain ⟨⟨pk, id⟩, ha⟩ := isSome_iff_exists.mp hsent
    have hres' : f ∉ s.resumed.map fst := by
      intro h
      apply hres
      rw [onCloseConnection, map_append]
      exact mem_append_left _ h
    obtain ⟨h, hfind, rfl⟩ := hsound.awaited f g pk id hg ha hres'
    obtain ⟨g', pk', id', hg', ha', -, hrequester, hpk⟩ := hsound.kept _ h hfind
    have hgg : g' = g := some.inj (hg'.symm.trans hg)
    subst hgg
    obtain ⟨rfl, rfl⟩ := Prod.mk.inj (some.inj (ha.symm.trans ha'))
    have hclose : h.onClose socket (s.pksOf socket).connection = none := by
      refine eq_none_iff_forall_ne_some.mpr fun what hwhat => hres ?_
      rw [onCloseConnection, map_append]
      apply mem_append_right
      refine mem_map.mpr ⟨(h.handle, .failed what), mem_filterMap.mpr ⟨h, ?_, ?_⟩, rfl⟩
      · exact mem_values.mpr ⟨_, hfind⟩
      · rw [hwhat, map_some]
    simp only [SessionHandle.onClose] at hclose
    split_ifs at hclose with htarget hreq
    have hstay : ∀ x, s.Here x → x ≠ socket →
        ({ s with closing := s.closing.filter (· ≠ socket) }.onCloseConnection socket
          (s.pksOf socket).connection).Here x := by
      rintro x (hx | hx) hne
      · exact .inl hx
      · exact .inr (mem_filter.mpr ⟨hx, by simpa using hne⟩)
    obtain ⟨hr, ht⟩ := hs.here _ g' hg hsent hres'
    obtain ⟨hpos, hsteady⟩ := hs.steady _ g' hg
    refine ⟨hstay _ hr ?_, hstay _ ht ?_⟩
    · rw [← hrequester]
      exact hreq
    · intro heq
      rw [heq] at hpos hsteady
      exact htarget ⟨hpos, hpk.trans (hsteady _ ha)⟩
  case steady => exact hs.steady

/-- A new socket is none that a forward is for. -/
theorem Attended.connect (hs : s.Attended) (hsound : s.Sound) {socket : SocketId}
    (h : forwardStep s (.connect socket) = some t) : t.Attended := by
  simp only [forwardStep, Forwarding.connect, ite_none_left_eq_some, some.injEq] at h
  obtain ⟨hnew, rfl⟩ := h
  refine hs.mono rfl (fun _ h => h) (fun x hx => hx.imp_left (mem_cons_of_mem _)) ?_
  intro f g hg
  obtain ⟨p, hp, -⟩ := hsound.found f g hg
  have hne : g.target ≠ socket := by
    rintro heq
    exact hnew (contains_iff.mpr ⟨p, heq ▸ hp⟩)
  simp [pksOf, find?_insert, hne]

/-- A socket that registers has no connection yet, and a forward's target has. -/
theorem Attended.register (hs : s.Attended) {socket : SocketId} {pks : ConnectionPks} (hP : s.Timely (.register socket pks))
    (h : forwardStep s (.register socket pks) = some t) : t.Attended := by
  simp only [forwardStep, Forwarding.register, ite_none_left_eq_some, map_eq_some_iff] at h
  obtain ⟨-, p, hp, rfl⟩ := h
  refine hs.mono rfl (fun _ h => h) (fun _ h => h) ?_
  intro f g hg
  have hne : g.target ≠ socket := by
    intro heq
    exact (hs.steady f g hg).1 (heq ▸ hP)
  simp [pksOf, find?_insert, hne]

/-- A forward that is found, or written, is one more of which nothing was sent, or the same one. -/
theorem Attended.insert (hs : s.Attended) {f : ForwardId} {g : Forward}
    (hhere : g.sentAs.isSome → f ∉ s.resumed.map fst → s.Here g.requester ∧ s.Here g.target)
    (hsteady : (s.pksOf g.target).connection ≠ 0 ∧ ∀ a, g.sentAs = some a → a.1 = (s.pksOf g.target).connection) :
    { s with forwards := s.forwards.insert f g }.Attended := by
  constructor
  case here =>
    intro x g' hx
    rw [find?_insert] at hx
    split_ifs at hx with heq
    · cases hx
      exact heq ▸ hhere
    · exact hs.here x g' hx
  case steady =>
    intro x g' hx
    rw [find?_insert] at hx
    split_ifs at hx with heq
    · cases hx
      exact hsteady
    · exact hs.steady x g' hx

theorem Attended.find {f : ForwardId} {requester : SocketId} {app inst : UInt32} {target : Option SocketId}
    (hs : s.Attended) (h : forwardStep s (.find f requester app inst target) = some t) : t.Attended := by
  cases target with
  | none =>
    simp only [forwardStep, Forwarding.find, ite_none_left_eq_some, some.injEq] at h
    obtain ⟨-, rfl⟩ := h
    refine hs.mono rfl ?_ (fun _ h => h) fun _ _ _ => rfl
    intro x hx
    rw [map_append]
    exact mem_append_left _ hx
  | some target =>
    simp only [forwardStep, Forwarding.find, ite_none_left_eq_some, not_or, not_not, some.injEq] at h
    obtain ⟨⟨-, -, -, hserves⟩, rfl⟩ := h
    refine hs.insert (fun hsent => by cases hsent) ⟨?_, fun a ha => by cases ha⟩
    exact connection_of_serves (serving_iff.mp hserves).2

theorem Attended.write (hs : s.Attended) {f : ForwardId} (h : forwardStep s (.write f) = some t) : t.Attended := by
  simp only [forwardStep, Forwarding.write, bind_eq_some_iff, ite_none_left_eq_some, some.injEq] at h
  obtain ⟨g, hg, -, rfl⟩ := h
  exact hs.insert (hs.here f g hg) (hs.steady f g hg)

/-- A socket that is lost is still here until it is closed. -/
theorem Attended.drop (hs : s.Attended) {socket : SocketId} (h : forwardStep s (.drop socket) = some t) :
    t.Attended := by
  obtain ⟨-, rfl⟩ := of_guard h
  refine hs.mono rfl (fun _ h => h) ?_ fun _ _ _ => rfl
  rintro x (hx | hx)
  · by_cases hxs : x = socket
    · exact .inr (hxs ▸ mem_cons_self)
    · exact .inl (mem_filter.mpr ⟨hx, by simpa using hxs⟩)
  · exact .inr (mem_cons_of_mem _ hx)

theorem Attended.step (hs : s.Attended) (hsound : s.Sound) {e : ForwardEvent} (hP : s.Timely e)
    (h : forwardStep s e = some t) : t.Attended := by
  cases e with
  | connect socket => exact hs.connect hsound h
  | register socket pks => exact hs.register hP h
  | query socket id =>
    have hpks := pksOf_draw h
    rw [draw_eq h] at hpks ⊢
    refine hs.mono rfl (fun _ h => h) (fun _ h => h) ?_
    intro f g _
    rw [hpks]
  | find f requester app inst target => exact hs.find h
  | wait f id => exact hs.wait h hP
  | write f => exact hs.write h
  | response socket id results =>
    obtain ⟨-, rfl⟩ := of_guard h
    exact hs.resume ..
  | exception socket id what =>
    simp only [forwardStep, ite_none_left_eq_some] at h
    obtain ⟨-, h⟩ := h
    split_ifs at h with hid
    · exact some.inj h ▸ hs
    · exact some.inj h ▸ hs.resume ..
  | drop socket => exact hs.drop h
  | close socket =>
    obtain ⟨-, rfl⟩ := of_guard h
    exact hs.close hsound

/-- A quiet server's waits have both their ends in the map of connected sockets. -/
theorem Attended.connected (hs : s.Attended) (hquiet : s.Quiet) {g : Forward}
    (hg : s.forwards.find? f = some g) (hsent : g.sentAs.isSome) (hres : f ∉ s.resumed.map fst) :
    g.requester ∈ s.connected ∧ g.target ∈ s.connected := by
  have hconnected : ∀ x, s.Here x → x ∈ s.connected := by
    rintro x (hx | hx)
    · exact hx
    · simp [hquiet.1] at hx
  obtain ⟨hr, ht⟩ := hs.here f g hg hsent hres
  exact ⟨hconnected _ hr, hconnected _ ht⟩

/-- In every run in which waits are registered before the disconnects of their ends are handled, and sessions register
once, each forward is answered once and by the instance it was sent to. -/
theorem forwards_answered_once {es : List ForwardEvent} (hrun : exec forwardStep {} es = some s)
    (htimely : Along forwardStep Timely {} es) : s.AnsweredOnce := by
  have hinv : s.Sound ∧ s.Attended :=
    Along.exec_induction (I := fun s => s.Sound ∧ s.Attended)
      (fun h hP hstep => ⟨h.1.step hstep, h.2.step h.1 hP hstep⟩) ⟨sound_empty, attended_empty⟩ htimely hrun
  exact ⟨hinv.1.nodup, hinv.1.replied, fun hquiet _ _ hg hsent hres => hinv.2.connected hquiet hg hsent hres⟩

/-- An instance on socket 2 answers one forward of socket 1 and goes while a second waits. -/
def answeredRun : List ForwardEvent :=
  [.connect 1, .connect 2, .register 2 ⟨7, 1, 9⟩, .find 0 1 7 0 (some 2), .wait 0 1, .write 0, .response 2 1 "done",
    .find 1 1 7 1 (some 2), .wait 1 2, .drop 2, .write 1, .close 2]

theorem answeredRun_answered_once : ∃ s, exec forwardStep {} answeredRun = some s ∧ s.AnsweredOnce ∧
    s.resumed = [(0, .result 2 1 "done"), (1, .failed "Forward target disconnected.")] := by
  have hrun : exec forwardStep {} answeredRun = some _ := rfl
  exact ⟨_, hrun, forwards_answered_once hrun (by decide +kernel), rfl⟩

/-- The instance goes, and its disconnect is handled, between the look-up and the wait. -/
def lostRun : List ForwardEvent :=
  [.connect 1, .connect 2, .register 2 ⟨7, 1, 9⟩, .find 0 1 7 0 (some 2), .drop 2, .close 2, .wait 0 1, .write 0]

/-- The wait stays with nobody left to end it: the server is quiet and its target not connected. -/
theorem lostRun_waits : ∃ s, exec forwardStep {} lostRun = some s ∧ ¬ s.AnsweredOnce := by
  have hrun : exec forwardStep {} lostRun = some _ := rfl
  refine ⟨_, hrun, fun h => ?_⟩
  have hends := h.connected (by decide +kernel) 0 ⟨1, 2, some (9, 1), true⟩ rfl rfl (by decide)
  exact absurd hends.2 (by decide)

/-- In every run, timely or not, no forward is resumed twice, a reply resumes the forward it answers, and one that was
sent and is not resumed has its wait under its key. -/
theorem waits_kept {es : List ForwardEvent} (hrun : exec forwardStep {} es = some s) :
    (s.resumed.map fst).Nodup ∧
      (∀ f r socket id, (f, r) ∈ s.resumed → r.reply = some (socket, id) →
        ∃ g pk, s.forwards.find? f = some g ∧ g.target = socket ∧ g.sentAs = some (pk, id)) ∧
      ∀ f g pk id, s.forwards.find? f = some g → g.sentAs = some (pk, id) → f ∉ s.resumed.map fst →
        ∃ h, s.messages.find? (forwardKey pk id) = some h ∧ h.handle = f := by
  have hsound : s.Sound := exec_induction (fun h hstep => h.step hstep) sound_empty hrun
  exact ⟨hsound.nodup, hsound.replied, hsound.awaited⟩

theorem lostRun_kept : ∃ s, exec forwardStep {} lostRun = some s ∧
    ∃ h, s.messages.find? (forwardKey 9 1) = some h ∧ h.handle = 0 := by
  have hrun : exec forwardStep {} lostRun = some _ := rfl
  exact ⟨_, hrun, (waits_kept hrun).2.2 0 ⟨1, 2, some (9, 1), true⟩ 9 1 rfl rfl (by decide)⟩

end Forwarding

end OpcHub.Sockets
