import OpcHub.Gateway.Connection

/-! How a connection closes. Its Start, lookup, connect, reads and the re-arms between
them are one chain of work, which hands over one event at a time: so an event never
finds another pending, and the last one is the CLOSING, raised by whichever comes last
of the operations and the re-arm once the connection is closing. -/

namespace OpcHub.Gateway.Connection

variable {c : Connection}

/-- The chain's stages outstanding, up to the ESTABLISHED and from it. -/
def opening (c : Connection) : ℕ := c.owedStarts + c.starts + c.resolves + c.connects

def reading (c : Connection) : ℕ := c.owedArms + c.arms + c.reads

variable {event : ConnectionEvent} {d : Connection}

/-- What holds of every connection an event can leave. -/
theorem of_step {P : Connection → Prop} (hstep : c.step event = some d)
    (postStart : c.owedStarts ≠ 0 → P { c with owedStarts := c.owedStarts - 1, starts := c.starts + 1 })
    (postArm : c.owedArms ≠ 0 → P { c with owedArms := c.owedArms - 1, arms := c.arms + 1 })
    (start : c.starts ≠ 0 → P (start { c with starts := c.starts - 1 }))
    (requestClose : c.closes ≠ 0 → P (requestClose { c with closes := c.closes - 1 }))
    (armRead : c.arms ≠ 0 → P (armRead { c with arms := c.arms - 1 }))
    (enqueue : ∀ buf, buf ∈ c.sends → P (enqueue { c with sends := c.sends.erase buf } buf))
    (resolved : ∀ ok, c.resolves ≠ 0 →
      P (resolved { c with inflight := c.inflight - 1, resolves := c.resolves - 1 } ok))
    (connected : ∀ ok, c.connects ≠ 0 →
      P (connected { c with inflight := c.inflight - 1, connects := c.connects - 1 } ok))
    (read : ∀ chunk, c.reads ≠ 0 → chunk ≠ some [] →
      P (read { c with inflight := c.inflight - 1, reads := c.reads - 1 } chunk))
    (wrote : ∀ ok, c.writes ≠ 0 → P (wrote { c with inflight := c.inflight - 1, writes := c.writes - 1 } ok)) : P d := by
  cases event <;>
    simp only [step, Option.ite_none_left_eq_some, Option.ite_none_right_eq_some, Option.some.injEq, not_or] at hstep <;>
    obtain ⟨hn, rfl⟩ := hstep
  case postStart => exact postStart hn
  case postArm => exact postArm hn
  case start => exact start hn
  case requestClose => exact requestClose hn
  case armRead => exact armRead hn
  case enqueue buf => exact enqueue buf hn
  case resolved ok => exact resolved ok hn
  case connected ok => exact connected ok hn
  case read chunk => exact read chunk hn.1 hn.2
  case wrote ok => exact wrote ok hn

/-- What is queued, in flight and pending go together. -/
structure Core (c : Connection) : Prop where
  inflight : c.inflight = c.resolves + c.connects + c.reads + c.writes
  writes : c.writes = if c.writing then 1 else 0
  chain : c.opening + c.reading ≤ 1
  raised : c.pending = some .established ∨ c.pending = some .data → c.opening + c.reading = 0
  last : c.pending = some .closing → c.state = .closed
  closed : c.state = .closed → c.inflight = 0 ∧ (c.pending = some .closing ∧ c.closingDelivered = false ∨
    c.pending = none ∧ c.closingDelivered = true)
  delivered : c.closingDelivered = true → c.state = .closed
  clashed : c.clashed = false
  resolving : c.owedStarts + c.starts + c.resolves ≠ 0 → c.state = .resolving ∨ c.shut = true
  connecting : c.connects ≠ 0 → c.state = .connecting ∨ c.shut = true
  established : c.reads + c.writes ≠ 0 → c.state = .established ∨ c.shut = true
  shut_iff : c.shut = true ↔ c.state = .closing ∨ c.state = .closed
  queue : c.writing = true → c.tx ≠ []
  queued : c.state = .established → c.tx ≠ [] → c.writing = true
  early : c.state = .resolving ∨ c.state = .connecting → c.tx = [] ∧ c.closeRequested = false
  requested : c.closeRequested = true → c.state = .established → c.writing = true
  failed : c.failed = true → c.shut = true
  kept : c.failed = false → c.accepted = c.written ++ c.tx
  emptied : c.shut = true → c.failed = false → c.tx = []

namespace Core

theorem opened (address : Bool) : Core (opened address) := by
  constructor <;> simp [Connection.opened, opening, reading]

theorem pending_eq_none (h : Core c) (hchain : c.opening + c.reading ≠ 0) (hs : c.state ≠ .closed) : c.pending = none := by
  cases hp : c.pending with
  | none => rfl
  | some event =>
    cases event with
    | established => exact absurd (h.raised (.inl hp)) hchain
    | data => exact absurd (h.raised (.inr hp)) hchain
    | closing => exact absurd (h.last hp) hs

theorem shut_eq_false (h : Core c) (hs : c.state = .established) : c.shut = false := by simpa [hs] using h.shut_iff

/-- The chain moves on, by no more than one stage. -/
theorem of_counts (h : Core c) {i oS st rs cn oA ar rd : ℕ} (hi : i = rs + cn + rd + c.writes)
    (hchain : oS + st + rs + cn + (oA + ar + rd) ≤ c.opening + c.reading) (hclosed : c.state = .closed → i = 0)
    (hrs : oS + st + rs ≠ 0 → c.state = .resolving ∨ c.shut = true)
    (hcn : cn ≠ 0 → c.state = .connecting ∨ c.shut = true)
    (hrd : rd ≠ 0 → c.state = .established ∨ c.shut = true) :
    Core { c with
      inflight := i, owedStarts := oS, starts := st, resolves := rs, connects := cn, owedArms := oA, arms := ar, reads := rd } where
  __ := h
  inflight := hi
  chain := hchain.trans h.chain
  raised := fun hp => Nat.le_zero.mp (hchain.trans (h.raised hp).le)
  closed := fun hs => ⟨hclosed hs, (h.closed hs).2⟩
  resolving := hrs
  connecting := hcn
  established := fun hn => by
    by_cases hr : rd = 0
    · exact h.established (by simp only at hn; omega)
    · exact hrd hr

/-- The socket is closed: with what is queued gone, or an operation failed. -/
theorem shutting (h : Core c) {w r f : Bool} (hs : c.state ≠ .closed) (hf : f = false → c.failed = false ∧ c.tx = []) :
    Core { c with state := .closing, shut := true, writable := w, closeRequested := r, failed := f } where
  __ := h
  last := fun hp => absurd (h.last hp) hs
  closed := nofun
  delivered := fun hd => absurd (h.delivered hd) hs
  resolving := fun _ => .inr rfl
  connecting := fun _ => .inr rfl
  established := fun _ => .inr rfl
  shut_iff := by simp
  queued := nofun
  early := by simp
  requested := nofun
  failed := fun _ => rfl
  kept := fun hf' => h.kept (hf hf').1
  emptied := fun _ hf' => (hf hf').2

theorem maybeRaiseClosing (h : Core c) (hs : c.shut = true ∨ c.inflight ≠ 0) : Core c.maybeRaiseClosing := by
  unfold Connection.maybeRaiseClosing
  split_ifs with h1 h2
  · exact h
  · exact h
  obtain ⟨hi, hc⟩ := not_or.mp h1
  have hshut := hs.resolve_right hi
  have hpending : c.pending = none := by simpa using h2
  exact {
    h with
    raised := by simp [raise]
    last := fun _ => rfl
    closed := fun _ => ⟨not_not.mp hi, .inl ⟨rfl, Bool.eq_false_iff.mpr fun hd => hc (h.delivered hd)⟩⟩
    delivered := fun _ => rfl
    clashed := by simp [raise, hpending, h.clashed]
    resolving := fun _ => .inr hshut
    connecting := fun _ => .inr hshut
    established := fun _ => .inr hshut
    shut_iff := by simp [raise, hshut]
    queued := nofun
    early := by simp [raise]
    requested := nofun }

@[simp] theorem maybeRaiseClosing_shut (c : Connection) : c.maybeRaiseClosing.shut = c.shut := by
  unfold Connection.maybeRaiseClosing raise
  split_ifs <;> rfl

variable (h : Core c)
include h

theorem finishClose (hs : c.failed = false → c.tx = []) : Core c.finishClose := by
  unfold Connection.finishClose
  split_ifs with hc
  · exact h
  · exact (h.shutting hc fun hf => ⟨hf, hs hf⟩).maybeRaiseClosing (.inl rfl)

variable {ok : Bool}

theorem fail (hs : ok = false ∨ c.shut = true) : Core (c.fail ok) := by
  unfold Connection.fail
  split_ifs with hc
  · exact h
  · refine (h.shutting hc fun hf => ?_).maybeRaiseClosing (.inl rfl)
    obtain ⟨hf, hok⟩ := Bool.or_eq_false_iff.mp hf
    refine ⟨hf, h.emptied ?_ hf⟩
    rcases hs with rfl | hs
    · simpa using hok
    · exact hs

/-- The handler running holds the chain. -/
def Idle (c : Connection) : Prop := c.opening + c.reading = 0 ∧ c.pending = none

theorem connect (hidle : Idle c) (hs : c.state = .resolving) : Core c.connect := by
  obtain ⟨hchain, hpending⟩ := hidle
  simp only [opening, reading] at hchain
  obtain ⟨htx, hcr⟩ := h.early (.inl hs)
  have hi := h.inflight
  have hshut : c.shut = false := by simpa [hs] using h.shut_iff
  have hwrites : c.writes = 0 := by
    by_contra hw
    simpa [hs, hshut] using h.established (by omega)
  exact {
    h with
    inflight := by simp only [Connection.connect]; omega
    chain := by simp only [Connection.connect, opening, reading]; omega
    raised := by simp [Connection.connect, hpending]
    last := by simp [Connection.connect, hpending]
    closed := nofun
    delivered := fun hd => by simpa [hs] using h.delivered hd
    resolving := fun hn => absurd hn (by simp only [Connection.connect]; omega)
    connecting := fun _ => .inl rfl
    established := fun hn => absurd hn (by simp only [Connection.connect]; omega)
    shut_iff := by simp [Connection.connect, hshut]
    queued := nofun
    early := fun _ => ⟨htx, hcr⟩
    requested := nofun }

theorem resolve (hidle : Idle c) (hs : c.state = .resolving) :
    Core { c with inflight := c.inflight + 1, resolves := c.resolves + 1 } := by
  have hi := h.inflight
  obtain ⟨hchain, hpending⟩ := hidle
  exact {
    h with
    inflight := by simp only; omega
    chain := by simp only [opening, reading] at *; omega
    raised := by simp [hpending]
    closed := by simp [hs]
    resolving := fun _ => .inl hs }

theorem arm (hidle : Idle c) (hs : c.state = .established) :
    Core { c with inflight := c.inflight + 1, reads := c.reads + 1 } := by
  have hi := h.inflight
  obtain ⟨hchain, hpending⟩ := hidle
  exact {
    h with
    inflight := by simp only; omega
    chain := by simp only [opening, reading] at *; omega
    raised := by simp [hpending]
    closed := by simp [hs]
    established := fun _ => .inl hs }

theorem establish (hidle : Idle c) (hs : c.state = .connecting) :
    Core (raise { c with state := .established, writable := true } .established) := by
  obtain ⟨hchain, hpending⟩ := hidle
  obtain ⟨htx, hcr⟩ := h.early (.inr hs)
  have hshut : c.shut = false := by simpa [hs] using h.shut_iff
  have hzero : c.opening = 0 := by omega
  simp only [opening] at hzero
  exact {
    h with
    raised := fun _ => hchain
    last := nofun
    closed := nofun
    delivered := fun hd => by simpa [hs] using h.delivered hd
    clashed := by simp [raise, hpending, h.clashed]
    resolving := fun hn => absurd hn (by simp only [raise]; omega)
    connecting := fun hn => absurd hn (by simp only [raise]; omega)
    established := fun _ => .inl rfl
    shut_iff := by simp [raise, hshut]
    queued := fun _ hne => absurd htx hne
    early := by simp [raise]
    requested := fun hr => absurd hr (by simp [raise, hcr]) }

theorem data {bytes : Bytes} {received : List Bytes} (hidle : Idle c) (hs : c.state = .established) :
    Core (raise { c with rx := bytes, received := received } .data) := by
  obtain ⟨hchain, hpending⟩ := hidle
  exact {
    h with
    raised := fun _ => hchain
    last := nofun
    closed := by simp [raise, hs]
    clashed := by simp [raise, hpending, h.clashed] }

/-- A stage of the chain is begun: its handler has what was outstanding of the chain. -/
theorem taken (hd : d = { c with
      inflight := d.inflight, starts := d.starts, resolves := d.resolves, connects := d.connects, arms := d.arms,
      reads := d.reads })
    (hinflight : d.inflight = d.resolves + d.connects + d.reads + c.writes)
    (hchain : d.opening + d.reading + 1 = c.opening + c.reading)
    (hle : d.starts ≤ c.starts ∧ d.resolves ≤ c.resolves ∧ d.connects ≤ c.connects ∧ d.reads ≤ c.reads) :
    Core d ∧ (c.state ≠ .closed → Idle d) := by
  have hi := h.inflight
  have hone := h.chain
  rw [hd] at hchain ⊢
  refine ⟨h.of_counts hinflight (by simp only [opening, reading] at *; omega) (fun hs => ?_)
    (fun hn => h.resolving (by omega)) (fun hn => h.connecting (by omega)) fun hn => h.established (by omega),
    fun hs => ⟨by omega, h.pending_eq_none (by omega) hs⟩⟩
  have hclosed := (h.closed hs).1
  omega

theorem start (hn : c.starts ≠ 0) : Core (start { c with starts := c.starts - 1 }) := by
  obtain ⟨htaken, hidle⟩ := h.taken (d := { c with starts := c.starts - 1 }) rfl h.inflight
    (by simp only [opening, reading]; omega) (by simp)
  unfold Connection.start
  dsimp only
  split_ifs with hs ha
  · exact htaken
  · have hr := not_not.mp hs
    exact htaken.connect (hidle (by simp [hr])) hr
  · have hr := not_not.mp hs
    exact htaken.resolve (hidle (by simp [hr])) hr

theorem resolved (hn : c.resolves ≠ 0) :
    Core (resolved { c with inflight := c.inflight - 1, resolves := c.resolves - 1 } ok) := by
  have hi := h.inflight
  obtain ⟨htaken, hidle⟩ := h.taken (d := { c with inflight := c.inflight - 1, resolves := c.resolves - 1 }) rfl
    (by simp only; omega) (by simp only [opening, reading]; omega) (by simp)
  unfold Connection.resolved
  dsimp only
  split_ifs with hs
  · exact htaken.fail (hs.symm.imp_right fun hs => (h.resolving (by omega)).resolve_left hs)
  · have hr := not_not.mp (not_or.mp hs).1
    exact htaken.connect (hidle (by simp [hr])) hr

theorem connected (hn : c.connects ≠ 0) :
    Core (connected { c with inflight := c.inflight - 1, connects := c.connects - 1 } ok) := by
  have hi := h.inflight
  obtain ⟨htaken, hidle⟩ := h.taken (d := { c with inflight := c.inflight - 1, connects := c.connects - 1 }) rfl
    (by simp only; omega) (by simp only [opening, reading]; omega) (by simp)
  unfold Connection.connected
  dsimp only
  split_ifs with hs
  · exact htaken.fail (hs.symm.imp_right fun hs => (h.connecting (by omega)).resolve_left hs)
  · have hr := not_not.mp (not_or.mp hs).1
    exact htaken.establish (hidle (by simp [hr])) hr

theorem armRead (hn : c.arms ≠ 0) : Core (armRead { c with arms := c.arms - 1 }) := by
  obtain ⟨htaken, hidle⟩ := h.taken (d := { c with arms := c.arms - 1 }) rfl h.inflight
    (by simp only [opening, reading]; omega) (by simp)
  unfold Connection.armRead
  dsimp only
  split_ifs with hs hw hc
  · exact htaken
  · refine htaken.finishClose fun hf => ?_
    cases hstate : c.state with
    | resolving => exact (h.early (.inl hstate)).1
    | connecting => exact (h.early (.inr hstate)).1
    | established => exact not_not.mp (not_or.mp fun hq => hw ⟨hstate, hq⟩).2
    | closing => exact h.emptied (h.shut_iff.mpr (.inl hstate)) hf
    | closed => exact absurd hstate hc
  · exact htaken
  · have hr := not_not.mp (not_or.mp hs).1
    exact htaken.arm (hidle (by simp [hr])) hr

theorem read {chunk : Option Bytes} (hn : c.reads ≠ 0) :
    Core (read { c with inflight := c.inflight - 1, reads := c.reads - 1 } chunk) := by
  have hi := h.inflight
  obtain ⟨htaken, hidle⟩ := h.taken (d := { c with inflight := c.inflight - 1, reads := c.reads - 1 }) rfl
    (by simp only; omega) (by simp only [opening, reading]; omega) (by simp)
  unfold Connection.read
  cases chunk with
  | none => exact htaken.fail (.inl rfl)
  | some bytes =>
    dsimp only [Option.elim]
    split_ifs with hs
    · have hshut := (h.established (by omega)).resolve_left hs
      refine Core.fail ?_ (.inr hshut)
      exact { htaken with }
    · have hr := not_not.mp hs
      exact htaken.data (hidle (by simp [hr])) hr

theorem enqueue {buf : Bytes} {sends : Multiset Bytes} : Core (enqueue { c with sends := sends } buf) := by
  unfold Connection.enqueue
  dsimp only
  split_ifs with hs hw
  · exact { h with }
  all_goals
    obtain ⟨hs, hcr⟩ := not_or.mp hs
    have hs := not_not.mp hs
    have hkept : c.failed = false → c.accepted ++ [buf] = c.written ++ (c.tx ++ [buf]) := fun hf => by
      rw [h.kept hf, List.append_assoc]
  · exact {
      h with
      queue := fun _ => by simp
      queued := fun _ _ => hw
      early := by simp [hs]
      kept := hkept
      emptied := fun hshut => absurd hshut (by simp [h.shut_eq_false hs]) }
  · have hi := h.inflight
    have hwrites : c.writes = 0 := by rw [h.writes, if_neg hw]
    exact {
      h with
      inflight := by simp only [writeNext]; omega
      writes := by simp [writeNext, hwrites]
      closed := by simp [writeNext, hs]
      established := fun _ => .inl hs
      queue := fun _ => by simp [writeNext]
      queued := fun _ _ => rfl
      early := by simp [writeNext, hs]
      requested := fun _ _ => rfl
      kept := hkept
      emptied := fun hshut => absurd hshut (by simp [writeNext, h.shut_eq_false hs]) }

/-- A write in flight is one write, of a connection not yet closed. -/
theorem inUse (hw : c.writing = true) : c.writes = 1 ∧ c.state ≠ .closed := by
  have hi := h.inflight
  have hwrites : c.writes = 1 := by rw [h.writes, if_pos hw]
  refine ⟨hwrites, fun hs => ?_⟩
  have hclosed := (h.closed hs).1
  omega

/-- The write out ends with the socket: what is left in the queue was failed, or there is none. -/
theorem letGo {tx written : List Bytes} {f : Bool} (hw : c.writing = true)
    (hf : f = false → c.accepted = written ++ tx ∧ tx = []) :
    Core { c with
      inflight := c.inflight - 1, writes := c.writes - 1, writing := false, tx := tx, written := written,
      state := .closing, writable := false, shut := true, failed := f } := by
  have hi := h.inflight
  obtain ⟨hwrites, hopen⟩ := h.inUse hw
  exact {
    h with
    inflight := by simp only; omega
    writes := by simp [hwrites]
    last := fun hp => absurd (h.last hp) hopen
    closed := nofun
    delivered := fun hd => absurd (h.delivered hd) hopen
    resolving := fun _ => .inr rfl
    connecting := fun _ => .inr rfl
    established := fun _ => .inr rfl
    shut_iff := by simp
    queue := nofun
    queued := nofun
    early := by simp
    requested := nofun
    failed := fun _ => rfl
    kept := fun hf' => (hf hf').1
    emptied := fun _ hf' => (hf hf').2 }

theorem wrote (hn : c.writes ≠ 0) :
    Core (wrote { c with inflight := c.inflight - 1, writes := c.writes - 1 } ok) := by
  have hi := h.inflight
  have hw : c.writing = true := by
    by_contra hw
    exact hn (by rw [h.writes, if_neg hw])
  obtain ⟨hwrites, hopen⟩ := h.inUse hw
  obtain ⟨buf, tx, htx⟩ := List.exists_cons_of_ne_nil (h.queue hw)
  have hlost : c.shut = true → c.failed = true := fun hshut => by
    by_contra hf
    exact h.queue hw (h.emptied hshut (Bool.not_eq_true _ ▸ hf))
  unfold Connection.wrote
  split_ifs with hs hnext hcr
  · -- without a failure before it, this one is the failure
    have hfailed : (c.failed || (!ok && !c.shut)) = true := by
      cases hshut : c.shut with
      | true => rw [hlost hshut]; rfl
      | false =>
        have hstate := (h.established (by omega)).resolve_right (by simp [hshut])
        have hok := hs.resolve_right (not_not.mpr hstate)
        simp [hok]
    simp only [Connection.fail, pop, if_neg hopen]
    exact (h.letGo hw fun hf => absurd hfailed (by rw [hf]; decide)).maybeRaiseClosing (.inl rfl)
  all_goals
    obtain ⟨hok, hs⟩ := not_or.mp hs
    have hs := not_not.mp hs
    have hfailed : c.failed = false := by
      by_contra hf
      exact absurd (h.failed (by simpa using hf)) (by simp [h.shut_eq_false hs])
    have hkept : c.accepted = (c.written ++ [buf]) ++ tx := by rw [h.kept hfailed, htx, List.append_assoc]; rfl
  · exact {
      h with
      inflight := by simp only [writeNext, pop]; omega
      writes := by simp [writeNext, pop, hwrites]
      closed := by simp [writeNext, pop, hs]
      established := fun _ => .inl hs
      queue := fun _ => by simpa [writeNext, pop, htx] using hnext
      queued := fun _ _ => rfl
      early := by simp [writeNext, pop, hs]
      requested := fun _ _ => rfl
      kept := fun _ => by simpa [writeNext, pop, htx, hok] using hkept
      emptied := fun hshut => absurd hshut (by simp [writeNext, pop, h.shut_eq_false hs]) }
  · simp only [Connection.finishClose, pop, if_neg hopen]
    have hnil : c.tx.tail = [] := not_not.mp hnext
    refine (h.letGo hw fun _ => ⟨?_, hnil⟩).maybeRaiseClosing (.inl rfl)
    simpa [htx, hok] using hkept
  · have hnil : c.tx.tail = [] := not_not.mp hnext
    exact {
      h with
      inflight := by simp only [pop]; omega
      writes := by simp [pop, hwrites]
      closed := by simp [pop, hs]
      established := fun _ => .inl hs
      queue := nofun
      queued := fun _ hne => absurd hnil hne
      early := by simp [pop, hs]
      requested := fun hr => absurd hr hcr
      kept := fun _ => by simpa [pop, htx, hok] using hkept
      emptied := fun _ _ => hnil }

theorem requestClose {closes : ℕ} : Core (requestClose { c with closes := closes }) := by
  unfold Connection.requestClose closeSocket
  split_ifs with hc he hq
  · exact { h with }
  all_goals obtain ⟨hc, hcr⟩ := not_or.mp hc
  · refine Core.maybeRaiseClosing ?_ (.inl rfl)
    exact { h.shutting (w := false) (r := true) hc fun hf => ⟨hf, (h.early he).1⟩ with }
  · simp only [Connection.finishClose, if_neg hc]
    have hshut : Core { c with closes := closes, closeRequested := true, writable := false, state := .closing, shut := true } :=
      { h.shutting (w := false) (r := true) hc fun hf => ⟨hf, hq.1⟩ with }
    exact (hshut.maybeRaiseClosing (.inl rfl)).maybeRaiseClosing (.inl (by rw [maybeRaiseClosing_shut]))
  · -- what is queued still goes out: the write in flight holds the CLOSING back
    have hwriting : c.state = .established → c.writing = true := fun hs => by
      by_cases htx : c.tx = []
      · simpa using fun hw => hq ⟨htx, hw⟩
      · exact h.queued hs htx
    refine Core.maybeRaiseClosing { h with early := fun hs => absurd hs he, requested := fun _ => hwriting } ?_
    cases hs : c.state with
    | resolving => exact absurd (.inl hs) he
    | connecting => exact absurd (.inr hs) he
    | established =>
      have hi := h.inflight
      have hone := (h.inUse (hwriting hs)).1
      exact .inr (by simp only; omega)
    | closing => exact .inl (h.shut_iff.mpr (.inl hs))
    | closed => exact absurd hs hc

/-- The event before the last is taken, and the chain goes on with the re-arm owed. -/
theorem rearm {callbacks : List Callback} (he : c.pending = some .established ∨ c.pending = some .data) :
    Core { c with pending := none, callbacks := callbacks, owedArms := c.owedArms + 1 } := by
  have hchain := h.raised he
  exact {
    h with
    chain := by simp only [opening, reading] at *; omega
    raised := by simp
    last := nofun
    closed := fun hs => by rcases (h.closed hs).2 with hp | hp <;> simp [hp.1] at he }

theorem deliver {event : EEvent} (he : c.pending = some event) : Core (c.deliver event) := by
  cases event with
  | established => exact h.rearm (.inl he)
  | data => exact h.rearm (.inr he)
  | closing =>
    have hclosed := h.last he
    exact {
      h with
      raised := by simp [Connection.deliver]
      last := nofun
      closed := fun hs => ⟨(h.closed hs).1, .inr ⟨rfl, rfl⟩⟩
      delivered := fun _ => hclosed }

theorem step (hstep : c.step event = some d) : Core d := by
  have hclosed := fun hs => (h.closed hs).1
  have hreads := fun hr : c.reads ≠ 0 => h.established (by omega)
  refine of_step hstep (fun hn => ?_) (fun hn => ?_) h.start (fun _ => h.requestClose) h.armRead (fun _ _ => h.enqueue)
    (fun _ hn => h.resolved hn) (fun _ hn => h.connected hn) (fun _ hn _ => h.read hn) fun _ hn => h.wrote hn
  · exact h.of_counts h.inflight (by simp only [opening, reading]; omega) hclosed
      (fun _ => h.resolving (by omega)) h.connecting hreads
  · exact h.of_counts h.inflight (by simp only [opening, reading]; omega) hclosed h.resolving
      h.connecting hreads

end Core

/-- A close that is asked for, and one under way, is still to go on. -/
structure Live (c : Connection) : Prop where
  waiting : c.state = .closing → c.inflight ≠ 0 ∨ c.pending.isSome = true ∨ c.owedArms + c.arms ≠ 0
  called : c.closeCalled = true → c.closes ≠ 0 ∨ c.closeRequested = true ∨ c.state = .closed

namespace Live

theorem maybeRaiseClosing (hcalled : c.closeCalled = true → c.closes ≠ 0 ∨ c.closeRequested = true ∨ c.state = .closed) :
    Live c.maybeRaiseClosing := by
  unfold Connection.maybeRaiseClosing
  split_ifs with h1 h2
  · exact ⟨fun hs => .inl (h1.resolve_right (by simp [hs])), hcalled⟩
  · exact ⟨fun _ => .inr (.inl h2), hcalled⟩
  · exact ⟨nofun, fun _ => .inr (.inr rfl)⟩

theorem finishClose (hcalled : c.closeCalled = true → c.closes ≠ 0 ∨ c.closeRequested = true ∨ c.state = .closed) :
    Live c.finishClose := by
  unfold Connection.finishClose
  split_ifs with hc
  · exact ⟨by simp [hc], hcalled⟩
  · exact maybeRaiseClosing fun h => (hcalled h).imp_right fun h => .inl (h.resolve_right hc)

theorem fail {ok : Bool} (hcalled : c.closeCalled = true → c.closes ≠ 0 ∨ c.closeRequested = true ∨ c.state = .closed) :
    Live (c.fail ok) := by
  unfold Connection.fail
  split_ifs with hc
  · exact ⟨by simp [hc], hcalled⟩
  · exact maybeRaiseClosing fun h => (hcalled h).imp_right fun h => .inl (h.resolve_right hc)

theorem step (h : Live c) (hstep : c.step event = some d) : Live d := by
  obtain ⟨hwaiting, hcalled⟩ := h
  apply of_step hstep
  case postStart => exact fun _ => ⟨hwaiting, hcalled⟩
  case postArm => exact fun _ => ⟨by grind, hcalled⟩
  case start =>
    intro _
    unfold Connection.start connect
    split_ifs
    all_goals constructor <;> grind
  case requestClose =>
    intro _
    unfold Connection.requestClose
    split_ifs with hc
    · exact ⟨hwaiting, fun _ => .inr hc.symm⟩
    · refine maybeRaiseClosing fun _ => .inr (.inl ?_)
      unfold closeSocket Connection.finishClose Connection.maybeRaiseClosing raise
      grind
  case armRead =>
    intro _
    unfold Connection.armRead
    split_ifs
    · constructor <;> grind
    · exact finishClose hcalled
    · constructor <;> grind
    · constructor <;> grind
  case enqueue =>
    intro _ _
    unfold Connection.enqueue writeNext
    split_ifs
    all_goals constructor <;> grind
  case resolved =>
    intro _ _
    unfold Connection.resolved connect
    split_ifs
    · exact fail hcalled
    · constructor <;> grind
  case connected =>
    intro _ _
    unfold Connection.connected raise
    split_ifs
    · exact fail hcalled
    · constructor <;> grind
  case read =>
    intro chunk _ _
    unfold Connection.read raise
    cases chunk with
    | none => exact fail hcalled
    | some bytes =>
      split_ifs
      · exact fail hcalled
      · constructor <;> grind
  case wrote =>
    intro _ _
    unfold Connection.wrote writeNext
    split_ifs
    · exact fail hcalled
    · constructor <;> grind [pop]
    · exact finishClose hcalled
    · constructor <;> grind [pop]

theorem deliver {event : EEvent} (hc : Core c) (h : Live c) (he : c.pending = some event) : Live (c.deliver event) := by
  have hcalled := h.called
  cases event with
  | established | data => exact ⟨fun _ => .inr (.inr (by simp only [Connection.deliver]; omega)), hcalled⟩
  | closing =>
    have hclosed := hc.last he
    exact ⟨fun hs => absurd (hs.symm.trans hclosed) (by decide), hcalled⟩

end Live

end OpcHub.Gateway.Connection
