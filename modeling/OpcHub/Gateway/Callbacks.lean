import OpcHub.Gateway.Closing

/-! What the client is told of a connection. An event changes nothing it sees but what
is read, and the delivery of an event tells it of the next chunk: so the callbacks are
always a beginning of one story, which the CLOSING ends. -/

namespace OpcHub.Gateway.Connection

variable {c : Connection}

/-- The callbacks of a connection: those of its opening and its data, and the last. -/
def story (established : Bool) (chunks : List Bytes) (closed : Bool) : List Callback :=
  .opening :: ((if established then .established :: chunks.map .data else []) ++ if closed then [.closing] else [])

/-- The client was told of `chunks`, and not of the `rest` of what was read. -/
structure Told (c : Connection) (established : Bool) (chunks rest : List Bytes) : Prop where
  callbacks : c.callbacks = story established chunks c.closingDelivered
  received : c.received = chunks ++ rest
  first : established = false → chunks = []
  opening : c.opening ≠ 0 ∨ c.pending = some .established → established = false ∧ c.received = []
  reading : c.reading ≠ 0 ∨ c.pending = some .data → c.closeCalled = false → established = true
  taken : c.reading ≠ 0 → c.closeCalled = false → rest = []
  pending : c.pending = some .data → c.closeCalled = false → rest = [c.rx]
  read : [] ∉ c.received

/-- A step the client does not see: nothing is read, and no stage begun that none led to. -/
structure Quiet (c d : Connection) : Prop where
  callbacks : d.callbacks = c.callbacks
  received : d.received = c.received
  rx : d.rx = c.rx
  closeCalled : d.closeCalled = c.closeCalled
  closingDelivered : d.closingDelivered = c.closingDelivered
  opening : d.opening ≠ 0 ∨ d.pending = some .established → c.opening ≠ 0 ∨ c.pending = some .established
  reading : d.reading ≠ 0 → c.reading ≠ 0
  data : d.pending = some .data → c.pending = some .data

variable {d : Connection}

theorem Told.of_quiet {established : Bool} {chunks rest : List Bytes} (h : Told c established chunks rest)
    (hq : Quiet c d) : Told d established chunks rest where
  callbacks := by rw [hq.callbacks, hq.closingDelivered, h.callbacks]
  received := hq.received.trans h.received
  first := h.first
  opening := fun ho => by
    rw [hq.received]
    exact h.opening (hq.opening ho)
  reading := fun hr hc => h.reading (hr.imp hq.reading hq.data) (hq.closeCalled ▸ hc)
  taken := fun hr hc => h.taken (hq.reading hr) (hq.closeCalled ▸ hc)
  pending := fun hp hc => by
    rw [hq.rx]
    exact h.pending (hq.data hp) (hq.closeCalled ▸ hc)
  read := hq.received ▸ h.read

namespace Quiet

theorem refl (c : Connection) : Quiet c c := ⟨rfl, rfl, rfl, rfl, rfl, id, id, id⟩

theorem trans {d e : Connection} (h : Quiet c d) (h' : Quiet d e) : Quiet c e where
  callbacks := h'.callbacks.trans h.callbacks
  received := h'.received.trans h.received
  rx := h'.rx.trans h.rx
  closeCalled := h'.closeCalled.trans h.closeCalled
  closingDelivered := h'.closingDelivered.trans h.closingDelivered
  opening := h.opening ∘ h'.opening
  reading := h.reading ∘ h'.reading
  data := h.data ∘ h'.data

section

variable (c : Connection)

theorem maybeRaiseClosing : Quiet c c.maybeRaiseClosing := by
  unfold Connection.maybeRaiseClosing raise
  split_ifs
  · exact refl c
  · exact refl c
  · exact ⟨rfl, rfl, rfl, rfl, rfl, fun ho => .inl (ho.resolve_right nofun), id, nofun⟩

theorem finishClose : Quiet c c.finishClose := by
  unfold Connection.finishClose
  split_ifs
  · exact refl c
  · refine trans ?_ (maybeRaiseClosing _)
    exact ⟨rfl, rfl, rfl, rfl, rfl, id, id, id⟩

theorem fail (ok : Bool) : Quiet c (c.fail ok) := by
  unfold Connection.fail
  split_ifs
  · exact refl c
  · refine trans ?_ (maybeRaiseClosing _)
    exact ⟨rfl, rfl, rfl, rfl, rfl, id, id, id⟩

theorem closeSocket : Quiet c c.closeSocket := by
  unfold Connection.closeSocket
  split_ifs
  · exact ⟨rfl, rfl, rfl, rfl, rfl, id, id, id⟩
  · exact finishClose c
  · exact refl c

theorem requestClose : Quiet c c.requestClose := by
  unfold Connection.requestClose
  split_ifs
  · exact refl c
  · refine trans (trans ?_ (closeSocket _)) (maybeRaiseClosing _)
    exact ⟨rfl, rfl, rfl, rfl, rfl, id, id, id⟩

theorem enqueue (buf : Bytes) : Quiet c (c.enqueue buf) := by
  unfold Connection.enqueue
  split_ifs <;> exact ⟨rfl, rfl, rfl, rfl, rfl, id, id, id⟩

theorem wrote (ok : Bool) : Quiet c (c.wrote ok) := by
  unfold Connection.wrote
  have hpop : Quiet c (c.pop ok) := ⟨rfl, rfl, rfl, rfl, rfl, id, id, id⟩
  split_ifs
  · exact trans hpop (fail _ ok)
  · exact ⟨rfl, rfl, rfl, rfl, rfl, id, id, id⟩
  · exact trans hpop (finishClose _)
  · exact hpop

end

/-- The chain moves on among the stages before the ESTABLISHED, or among those after it. -/
theorem of_counts {s : EState} {i oS st rs cn oA ar rd : ℕ} (ho : oS + st + rs + cn ≤ c.opening)
    (hr : oA + ar + rd ≤ c.reading) :
    Quiet c { c with
      state := s, inflight := i, owedStarts := oS, starts := st, resolves := rs, connects := cn, owedArms := oA, arms := ar,
      reads := rd } where
  callbacks := rfl
  received := rfl
  rx := rfl
  closeCalled := rfl
  closingDelivered := rfl
  opening := fun h => h.imp_left fun hn => by simp only [Connection.opening] at *; omega
  reading := fun hn => by simp only [Connection.reading] at *; omega
  data := id

theorem start (hn : c.starts ≠ 0) : Quiet c (start { c with starts := c.starts - 1 }) := by
  unfold Connection.start
  split_ifs
  all_goals exact of_counts (by simp only [Connection.opening]; omega) (by simp [Connection.reading])

theorem resolved {ok : Bool} (hn : c.resolves ≠ 0) :
    Quiet c (resolved { c with inflight := c.inflight - 1, resolves := c.resolves - 1 } ok) := by
  unfold Connection.resolved
  split_ifs
  · exact trans (of_counts (by simp only [Connection.opening]; omega) (by simp [Connection.reading])) (fail _ ok)
  · exact of_counts (by simp only [Connection.opening]; omega) (by simp [Connection.reading])

theorem connected {ok : Bool} (hn : c.connects ≠ 0) :
    Quiet c (connected { c with inflight := c.inflight - 1, connects := c.connects - 1 } ok) := by
  unfold Connection.connected
  split_ifs
  · exact trans (of_counts (by simp only [Connection.opening]; omega) (by simp [Connection.reading])) (fail _ ok)
  · exact ⟨rfl, rfl, rfl, rfl, rfl, fun _ => .inl (by simp only [Connection.opening]; omega), id, by simp [raise]⟩

theorem armRead (hn : c.arms ≠ 0) : Quiet c (armRead { c with arms := c.arms - 1 }) := by
  have htaken : Quiet c { c with arms := c.arms - 1 } :=
    of_counts (by simp [Connection.opening]) (by simp only [Connection.reading]; omega)
  unfold Connection.armRead
  split_ifs
  · exact htaken
  · exact trans htaken (finishClose _)
  · exact htaken
  · exact of_counts (by simp [Connection.opening]) (by simp only [Connection.reading]; omega)

theorem failed_read : Quiet c (Connection.fail { c with inflight := c.inflight - 1, reads := c.reads - 1 } false) := by
  refine trans ?_ (fail _ false)
  exact of_counts (by simp [Connection.opening]) (by simp only [Connection.reading]; omega)

end Quiet

/-- A chunk is read, which ends the chain until the client is told of it. -/
structure Reads (c d : Connection) (bytes : Bytes) : Prop where
  callbacks : d.callbacks = c.callbacks
  received : d.received = c.received ++ [bytes]
  closeCalled : d.closeCalled = c.closeCalled
  closingDelivered : d.closingDelivered = c.closingDelivered
  opening : d.opening = 0 ∧ d.pending ≠ some .established
  reading : d.reading = 0
  data : d.pending = some .data → d.rx = bytes

theorem Reads.of_read {bytes : Bytes} (h : Core c) (hn : c.reads ≠ 0) :
    Reads c (read { c with inflight := c.inflight - 1, reads := c.reads - 1 } (some bytes)) bytes := by
  have hi := h.inflight
  obtain ⟨-, hidle⟩ := h.taken (d := { c with inflight := c.inflight - 1, reads := c.reads - 1 }) rfl
    (by simp only; omega) (by simp only [Connection.opening, Connection.reading]; omega) (by simp)
  obtain ⟨hchain, hpending⟩ := hidle fun hs => by
    have hclosed := (h.closed hs).1
    omega
  obtain ⟨ho, hr⟩ := Nat.add_eq_zero_iff.mp hchain
  have hpending : c.pending = none := hpending
  unfold read
  dsimp only [Option.elim]
  split_ifs
  · have hq := Quiet.fail { c with inflight := c.inflight - 1, reads := c.reads - 1, received := c.received ++ [bytes] } true
    have hopening := mt hq.opening (not_or.mpr ⟨not_not.mpr ho, by simp [hpending]⟩)
    obtain ⟨ho', hp'⟩ := not_or.mp hopening
    exact ⟨hq.callbacks, hq.received, hq.closeCalled, hq.closingDelivered, ⟨not_not.mp ho', hp'⟩,
      not_not.mp (mt hq.reading (not_not.mpr hr)), fun hp => absurd (hq.data hp) (by simp [hpending])⟩
  · exact ⟨rfl, rfl, rfl, rfl, ⟨ho, by simp [raise]⟩, hr, fun _ => rfl⟩

variable {event : ConnectionEvent}

/-- The client sees of an event at most that a chunk is read. -/
theorem Core.quiet_or_reads (h : Core c) (hstep : c.step event = some d) :
    Quiet c d ∨ ∃ bytes, c.reads ≠ 0 ∧ bytes ≠ [] ∧ Reads c d bytes := by
  apply of_step hstep
  case postStart => exact fun hn => .inl (Quiet.of_counts (by simp only [opening]; omega) (by simp [reading]))
  case postArm => exact fun hn => .inl (Quiet.of_counts (by simp [opening]) (by simp only [reading]; omega))
  case start => exact fun hn => .inl (Quiet.start hn)
  case requestClose =>
    intro _
    refine .inl (Quiet.trans ?_ (Quiet.requestClose _))
    exact ⟨rfl, rfl, rfl, rfl, rfl, id, id, id⟩
  case armRead => exact fun hn => .inl (Quiet.armRead hn)
  case enqueue =>
    intro buf _
    refine .inl (Quiet.trans ?_ (Quiet.enqueue _ buf))
    exact ⟨rfl, rfl, rfl, rfl, rfl, id, id, id⟩
  case resolved => exact fun _ hn => .inl (Quiet.resolved hn)
  case connected => exact fun _ hn => .inl (Quiet.connected hn)
  case read =>
    intro chunk hn hchunk
    cases chunk with
    | none => exact .inl Quiet.failed_read
    | some bytes => exact .inr ⟨bytes, hn, fun hb => hchunk (by rw [hb]), Reads.of_read h hn⟩
  case wrote =>
    intro ok _
    refine .inl (Quiet.trans ?_ (Quiet.wrote _ ok))
    exact ⟨rfl, rfl, rfl, rfl, rfl, id, id, id⟩

theorem Told.of_reads {bytes : Bytes} {established : Bool} {chunks rest : List Bytes}
    (h : Told c established chunks rest) (hn : c.reads ≠ 0) (hbytes : bytes ≠ []) (hr : Reads c d bytes) :
    Told d established chunks (rest ++ [bytes]) where
  callbacks := by rw [hr.callbacks, hr.closingDelivered, h.callbacks]
  received := by rw [hr.received, h.received, List.append_assoc]
  first := h.first
  opening := fun ho => ho.elim (absurd hr.opening.1) fun hp => absurd hp hr.opening.2
  reading := fun _ hc => h.reading (.inl (by simp only [Connection.reading]; omega)) (hr.closeCalled ▸ hc)
  taken := fun hne => absurd hr.reading hne
  pending := fun hp hc => by
    rw [h.taken (by simp only [Connection.reading]; omega) (hr.closeCalled ▸ hc), hr.data hp]
    rfl
  read := by
    rw [hr.received]
    simpa [h.read] using hbytes.symm

/-- The client has been told a story that what was read bears out. -/
def Logged (c : Connection) : Prop := ∃ established chunks rest, Told c established chunks rest

theorem Core.undelivered {event : EEvent} (h : Core c) (he : c.pending = some event) : c.closingDelivered = false := by
  by_contra hd
  rcases (h.closed (h.delivered (by simpa using hd))).2 with hp | hp
  · exact hd hp.2
  · simp [hp.1] at he

namespace Told

variable {established : Bool} {chunks rest : List Bytes}

variable (h : Told c established chunks rest)
include h

/-- The client is told of the connection, and only then of what is read. -/
theorem deliver_established (hcore : Core c) (he : c.pending = some .established) :
    Logged (c.deliver .established) := by
  obtain ⟨rfl, hreceived⟩ := h.opening (.inr he)
  obtain ⟨ho, hr⟩ := Nat.add_eq_zero_iff.mp (hcore.raised (.inl he))
  have hdelivered := hcore.undelivered he
  have hcallbacks := h.callbacks
  rw [hdelivered, h.first rfl] at hcallbacks
  have hnone : ∀ {P : Prop}, c.opening ≠ 0 ∨ (none : Option EEvent) = some .established → P :=
    fun h => h.elim (absurd ho) (absurd · (Option.some_ne_none _).symm)
  by_cases hc : c.closeCalled = true
  · refine ⟨false, [], [], ?_⟩
    exact {
      h with
      callbacks := by simp [deliver, call, hc, hdelivered, hcallbacks]
      received := hreceived
      first := fun _ => rfl
      opening := hnone
      reading := fun _ hc' => absurd (hc'.symm.trans hc) Bool.false_ne_true
      taken := fun _ _ => rfl
      pending := by simp [deliver] }
  · refine ⟨true, [], [], ?_⟩
    exact {
      h with
      callbacks := by simp [deliver, call, hc, hdelivered, hcallbacks, story]
      received := hreceived
      first := by simp
      opening := hnone
      reading := fun _ _ => rfl
      taken := fun _ _ => rfl
      pending := by simp [deliver] }

theorem deliver_data (hcore : Core c) (he : c.pending = some .data) :
    Logged (c.deliver .data) := by
  obtain ⟨ho, hr⟩ := Nat.add_eq_zero_iff.mp (hcore.raised (.inr he))
  have hdelivered := hcore.undelivered he
  have hcallbacks := h.callbacks
  have hnone : ∀ {P : Prop}, c.opening ≠ 0 ∨ (none : Option EEvent) = some .established → P :=
    fun h => h.elim (absurd ho) (absurd · (Option.some_ne_none _).symm)
  by_cases hc : c.closeCalled = true
  · refine ⟨established, chunks, rest, ?_⟩
    exact {
      h with
      callbacks := by simp [deliver, call, hc, hdelivered, hcallbacks]
      opening := hnone
      reading := fun _ hc' => absurd (hc'.symm.trans hc) Bool.false_ne_true
      taken := fun _ hc' => absurd (hc'.symm.trans hc) Bool.false_ne_true
      pending := by simp [deliver] }
  · have hopen : c.closeCalled = false := by simpa using hc
    have htold := h.reading (.inr he) hopen
    have hrest := h.pending he hopen
    refine ⟨true, chunks ++ [c.rx], [], ?_⟩
    exact {
      h with
      callbacks := by simp [deliver, call, hc, hdelivered, hcallbacks, story, htold]
      received := by simpa [deliver, hrest] using h.received
      first := by simp
      opening := hnone
      reading := fun _ _ => rfl
      taken := fun _ _ => rfl
      pending := by simp [deliver] }

theorem deliver_closing (hcore : Core c) (he : c.pending = some .closing) :
    Told (c.deliver .closing) established chunks rest := by
  have hdelivered := hcore.undelivered he
  exact {
    h with
    callbacks := by simp [deliver, h.callbacks, hdelivered, story]
    opening := fun ho => h.opening (ho.imp_right nofun)
    reading := fun hr => h.reading (hr.imp_right nofun)
    pending := nofun }

end Told

namespace Logged

theorem step {d : Connection} (hcore : Core c) (h : Logged c) (hstep : c.step event = some d) :
    Logged d := by
  obtain ⟨established, chunks, rest, h⟩ := h
  rcases hcore.quiet_or_reads hstep with hq | ⟨bytes, hn, hbytes, hr⟩
  · exact ⟨established, chunks, rest, h.of_quiet hq⟩
  · exact ⟨established, chunks, rest ++ [bytes], h.of_reads hn hbytes hr⟩

theorem deliver {event : EEvent} (hcore : Core c) (h : Logged c) (he : c.pending = some event) : Logged (c.deliver event) := by
  obtain ⟨established, chunks, rest, h⟩ := h
  cases event with
  | established => exact h.deliver_established hcore he
  | data => exact h.deliver_data hcore he
  | closing => exact ⟨established, chunks, rest, h.deliver_closing hcore he⟩

theorem close (h : Logged c) : Logged c.close := by
  obtain ⟨established, chunks, rest, h⟩ := h
  exact ⟨established, chunks, rest, { h with reading := nofun, taken := nofun, pending := nofun }⟩

end Logged

/-- Whatever happens to a connection, on either thread. -/
inductive Moves (c : Connection) : Connection → Prop where
  | rest : Moves c c
  | event {event : ConnectionEvent} {d : Connection} (hstep : c.step event = some d) : Moves c d
  | deliver {event : EEvent} (he : c.pending = some event) : Moves c (c.deliver event)
  | close : Moves c c.close
  | send (buf : Bytes) : Moves c (c.send buf)

structure Sound (c : Connection) : Prop where
  core : Core c
  live : Live c
  logged : Logged c

theorem Sound.opened (address : Bool) : Sound (opened address) where
  core := Core.opened address
  live := ⟨nofun, nofun⟩
  logged := ⟨false, [], [], rfl, rfl, fun _ => rfl, fun _ => ⟨rfl, rfl⟩, by simp [Connection.opened, reading],
    by simp [Connection.opened, reading], nofun, List.not_mem_nil⟩

theorem Sound.moves (h : Sound c) (hm : Moves c d) : Sound d := by
  obtain ⟨hcore, hlive, hlogged⟩ := h
  cases hm with
  | rest => exact ⟨hcore, hlive, hlogged⟩
  | event hstep => exact ⟨hcore.step hstep, hlive.step hstep, hlogged.step hcore hstep⟩
  | deliver he => exact ⟨hcore.deliver he, hlive.deliver hcore he, hlogged.deliver hcore he⟩
  | close => exact ⟨{ hcore with }, ⟨hlive.waiting, fun _ => .inl (Nat.succ_ne_zero _)⟩, hlogged.close⟩
  | send buf =>
    obtain ⟨established, chunks, rest, h⟩ := hlogged
    exact ⟨{ hcore with }, ⟨hlive.waiting, hlive.called⟩, established, chunks, rest, { h with }⟩

/-- Nothing is posted, outstanding or pending any more. -/
def Settled (c : Connection) : Prop :=
  c.owedStarts + c.owedArms = 0 ∧ c.starts + c.closes + c.arms = 0 ∧ c.sends = 0 ∧
    c.resolves + c.connects + c.reads + c.writes = 0 ∧ c.pending = none

instance : DecidablePred Settled := fun c => by unfold Settled; infer_instance

/-- A connection closed or failed does not settle before its CLOSING. -/
theorem Sound.closingDelivered (h : Sound c) (hs : Settled c) (hc : c.closeCalled = true ∨ c.failed = true) :
    c.closingDelivered = true := by
  obtain ⟨howed, hposted, -, hops, hpending⟩ := hs
  have hi := h.core.inflight
  have hwriting : c.writing ≠ true := fun hw => by
    have hone := (h.core.inUse hw).1
    omega
  have hstate : c.state = .closed := by
    by_contra hopen
    have hclosing : c.state ≠ .closing := fun hs => by
      rcases h.live.waiting hs with hn | hn | hn
      · omega
      · simp [hpending] at hn
      · omega
    have hshut : c.shut ≠ true := fun hs => (h.core.shut_iff.mp hs).elim hclosing hopen
    have hcalled := h.live.called (hc.resolve_right fun hf => hshut (h.core.failed hf))
    have hrequested := (hcalled.resolve_left (by omega)).resolve_right hopen
    cases hs : c.state with
    | resolving => simp [(h.core.early (.inl hs)).2] at hrequested
    | connecting => simp [(h.core.early (.inr hs)).2] at hrequested
    | established => exact hwriting (h.core.requested hrequested hs)
    | closing => exact hclosing hs
    | closed => exact hopen hs
  rcases (h.core.closed hstate).2 with hp | hp
  · simp [hpending] at hp
  · exact hp.2

/-- What was accepted of a socket that did not fail was written before it was closed. -/
theorem Core.written_eq (h : Core c) (hs : c.shut = true) (hf : c.failed = false) : c.written = c.accepted := by
  rw [h.kept hf, h.emptied hs hf, List.append_nil]

/-- The client is through with the connection: it closed it, or had its CLOSING. -/
def Through (c : Connection) : Prop := c.closeCalled = true ∨ c.closingDelivered = true

/-- `d` comes after `c`, of which only the CLOSING was still to be told. -/
structure Follows (c d : Connection) : Prop where
  through : Through d
  callbacks : d.callbacks = c.callbacks ∨ d.callbacks = c.callbacks ++ [.closing] ∧ d.closingDelivered = true

theorem Core.step_eq (h : Core c) (hstep : c.step event = some d) :
    d.callbacks = c.callbacks ∧ d.closeCalled = c.closeCalled ∧ d.closingDelivered = c.closingDelivered := by
  rcases h.quiet_or_reads hstep with hq | ⟨bytes, -, -, hr⟩
  · exact ⟨hq.callbacks, hq.closeCalled, hq.closingDelivered⟩
  · exact ⟨hr.callbacks, hr.closeCalled, hr.closingDelivered⟩

theorem Follows.refl (h : Through c) : Follows c c := ⟨h, .inl rfl⟩

theorem Follows.moves {e : Connection} (h : Follows c d) (hcore : Core d) (hm : Moves d e) : Follows c e := by
  obtain ⟨hthrough, hcallbacks⟩ := h
  cases hm with
  | rest | send => exact ⟨hthrough, hcallbacks⟩
  | event hstep =>
    obtain ⟨hc, hcalled, hdelivered⟩ := hcore.step_eq hstep
    exact ⟨by rwa [Through, hcalled, hdelivered], by rwa [hc, hdelivered]⟩
  | @deliver event he =>
    -- an event is still pending, so this is not the end of the story
    have hopen : d.closingDelivered ≠ true := by simp [hcore.undelivered he]
    have hcalled := hthrough.resolve_right hopen
    have hsame := hcallbacks.resolve_right fun h => hopen h.2
    cases event with
    | established | data => exact ⟨.inl hcalled, .inl (by simp [deliver, call, hcalled, hsame])⟩
    | closing => exact ⟨.inl hcalled, .inr ⟨by simp [deliver, hsame], rfl⟩⟩
  | close => exact ⟨.inl rfl, hcallbacks⟩

end OpcHub.Gateway.Connection
