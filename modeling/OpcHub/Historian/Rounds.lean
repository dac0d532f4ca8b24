import OpcHub.Lib.Runs
import OpcHub.Lib.Tickets

/-! A group's flushes and those who wait for them. Every step here is one hold of
the group's lock, or one await resumed outside it: the requests of the clock, of
a Flush, a Settled or an Edit, the group's close and its stop, and the passes of
its Flushing coroutine. What the buffer and the files hold is left to chance. -/

namespace OpcHub.Historian

open Lib List Option

variable {A : Type*}

/-- What an await waits for. -/
inductive WaitKind where
  /-- A flush that begins after it. -/
  | flush
  /-- The flush under way, and those it goes round for. -/
  | settled
  | edit
  deriving DecidableEq

/-- A Flushing coroutine, between two of its steps. -/
inductive Coroutine (A : Type*) where
  /-- Started or posted, or going round: its next pass is still to take. -/
  | begins
  /-- Its pass has taken, with the awaits it answers at its end. -/
  | writes (waiters edits : List A)
  /-- Its pass has ended, with the awaits still to resume. -/
  | answers (again : Bool) (left : List A)
  deriving DecidableEq

/-- Whether it still writes: what is left of one that goes round no more is to resume its awaits. -/
def Coroutine.runs : Coroutine A → Bool
  | .begins => true
  | .writes _ _ => true
  | .answers again _ => again

/-- The awaits it has in hand. -/
def Coroutine.left : Coroutine A → List A
  | .begins => []
  | .writes waiters edits => waiters ++ edits
  | .answers _ left => left

/-- A group, as its flushes are requested and answered. -/
structure Rounds (A : Type*) where
  flushing : Bool := false
  again : Bool := false
  /-- Close's flush is still to take. -/
  pending : Bool := false
  ended : Bool := false
  closed : Bool := false
  stopped : Bool := false
  archived : Bool := false
  /-- Whether the buffer holds a record. -/
  buffered : Bool := false
  waiters : List A := []
  settling : List A := []
  edits : List A := []
  flushes : List (Coroutine A) := []
  /-- The awaits that found something to wait for and are not yet suspended. -/
  suspending : List (WaitKind × A) := []
  /-- The awaits whose request found nothing to wait for, or was refused. -/
  refused : List A := []
  /-- The edits the group's end took out of the queue. -/
  failing : List A := []
  issued : List A := []
  log : List (TicketEvent A) := []
  deriving DecidableEq

namespace Rounds

/-- A removed group that has nothing more to write. -/
def written (s : Rounds A) : Bool := s.closed && s.archived && !s.buffered && s.edits.isEmpty

/-- Whether an await has something to wait for. -/
def waits (s : Rounds A) : WaitKind → Bool
  | .flush => !s.ended
  | .settled => !s.ended && (s.flushing || (s.pending && !s.written))
  | .edit => true

/-- Starts a flush, unless one is under way. -/
def start (s : Rounds A) : Rounds A :=
  if s.flushing then s else { s with flushing := true, flushes := s.flushes ++ [.begins] }

/-- An await's own request, once it is suspended. -/
def ask (s : Rounds A) (id : A) : WaitKind → Rounds A
  | .flush =>
    if s.waits .flush then start { s with waiters := s.waiters ++ [id], log := s.log ++ [.queued true id] }
    else { s with refused := id :: s.refused }
  | .settled =>
    -- a flush may have ended since it was ready
    if s.waits .settled then start { s with settling := s.settling ++ [id], log := s.log ++ [.queued false id] }
    else { s with refused := id :: s.refused }
  | .edit =>
    if s.closed || s.stopped || s.ended then { s with refused := id :: s.refused }
    else start { s with edits := s.edits ++ [id], log := s.log ++ [.queued false id] }

/-- The clock's request, a full buffer's or midnight's. -/
def request (s : Rounds A) : Rounds A :=
  if s.ended || (s.closed && s.written) then s else start { s with again := true }

def close (s : Rounds A) (buffered : Bool) : Rounds A :=
  { s with closed := true, pending := true, buffered := buffered }

/-- The historian's end begins; `running`: the executor still runs. -/
def stopping (s : Rounds A) (running buffered : Bool) : Rounds A :=
  let s := { s with stopped := true, buffered := buffered }
  if running then if s.flushing then { s with again := true } else s.start else s

/-- The historian's end, once no flush is under way or when it gives up on one. -/
def endGroup (s : Rounds A) : Rounds A :=
  { s with ended := true, failing := s.failing ++ s.edits, edits := [] }

def endIfWritten (s : Rounds A) : Option (Rounds A) :=
  if !s.written || s.flushing then none else some { s with ended := true }

/-- A pass takes what is buffered and queued. -/
def take (s : Rounds A) (i : ℕ) (buffered : Bool) : Rounds A :=
  { s with
    flushes := s.flushes.set i (.writes s.waiters s.edits)
    waiters := [], edits := [], again := false, pending := false, buffered := buffered
    log := s.log ++ [.round] }

/-- A pass ends, with `waiters` and `edits` to answer: the coroutine goes round again, or no flush is
under way. -/
def endPass (s : Rounds A) (i : ℕ) (waiters edits : List A) : Rounds A :=
  if s.again || !s.waiters.isEmpty || !s.edits.isEmpty then
    { s with flushes := s.flushes.set i (.answers true (waiters ++ edits)) }
  else
    { s with
      flushes := s.flushes.set i (.answers false (waiters ++ s.settling ++ edits))
      flushing := false, settling := [] }

inductive Move (A : Type*) where
  | ready (kind : WaitKind) (id : A)
  | suspend (kind : WaitKind) (id : A)
  /-- An await is resumed by its own request. -/
  | dismiss (id : A)
  | request
  | close (buffered : Bool)
  | stopping (running buffered : Bool)
  | stopped (giveUp : Bool)
  /-- An edit the group's end took is resumed with its failure. -/
  | fail (id : A)
  | endIfWritten
  /-- Records arrive, go back to the buffer or are dropped from it. -/
  | buffer (buffered : Bool)
  | take (i : ℕ) (buffered : Bool)
  /-- A pass asks for another: what it returned fills the buffers. -/
  | goAround
  | archive (archived : Bool)
  | endPass (i : ℕ)
  /-- The coroutine resumes an await. -/
  | resume (i : ℕ)
  /-- The coroutine has answered its pass. -/
  | leave (i : ℕ)
  deriving DecidableEq

section Steps

variable [DecidableEq A]

def step (s : Rounds A) : Move A → Option (Rounds A)
  | .ready kind id =>
    if id ∈ s.issued then none
    else if s.waits kind then
      some { s with suspending := (kind, id) :: s.suspending, issued := id :: s.issued }
    else some s
  | .suspend kind id =>
    if (kind, id) ∈ s.suspending then
      some ({ s with suspending := s.suspending.erase (kind, id) }.ask id kind)
    else none
  | .dismiss id =>
    if id ∈ s.refused then some { s with refused := s.refused.erase id, log := s.log ++ [.answered id] } else none
  | .request => some s.request
  | .close buffered => some (s.close buffered)
  | .stopping running buffered => some (s.stopping running buffered)
  | .stopped giveUp => if !s.flushing || giveUp then some s.endGroup else none
  | .fail id =>
    if id ∈ s.failing then some { s with failing := s.failing.erase id, log := s.log ++ [.answered id] } else none
  | .endIfWritten => s.endIfWritten
  | .buffer buffered => some { s with buffered := buffered }
  | .take i buffered => if s.flushes[i]? = some .begins then some (s.take i buffered) else none
  | .goAround => if s.flushing then some { s with again := true } else none
  | .archive archived => if s.flushing then some { s with archived := archived } else none
  | .endPass i =>
    match s.flushes[i]? with
    | some (.writes waiters edits) => some (s.endPass i waiters edits)
    | _ => none
  | .resume i =>
    match s.flushes[i]? with
    | some (.answers again (id :: left)) =>
      some { s with flushes := s.flushes.set i (.answers again left), log := s.log ++ [.answered id] }
    | _ => none
  | .leave i =>
    match s.flushes[i]? with
    | some (.answers true []) => some { s with flushes := s.flushes.set i .begins }
    | some (.answers false []) => some { s with flushes := s.flushes.eraseIdx i }
    | _ => none

def run : Rounds A → List (Move A) → Option (Rounds A)
  | s, [] => some s
  | s, m :: ms => (s.step m).bind fun s => s.run ms

end Steps

/-- The awaits as tickets: a Flush needs a round, which a pass's take is. -/
def tickets (s : Rounds A) : Tickets A where
  issued := s.issued
  asking := s.suspending.map Prod.snd
  refused := s.refused
  awaiting := s.waiters
  owed := s.settling ++ s.edits ++ s.flushes.flatMap Coroutine.left ++ s.failing
  log := s.log

variable {s s' : Rounds A}

open Coroutine

@[simp] theorem tickets_start (s : Rounds A) : s.start.tickets = s.tickets := by
  unfold start
  split
  · rfl
  · simp [tickets, left]

variable {l : List (Coroutine A)} {i : ℕ} {c : Coroutine A}

/-- The coroutines are one of them and the rest, and a step of it leaves the rest. -/
theorem perm_eraseIdx (h : l[i]? = some c) (c' : Coroutine A) :
    l.Perm (c :: l.eraseIdx i) ∧ (l.set i c').Perm (c' :: l.eraseIdx i) := by
  obtain ⟨hi, rfl⟩ := List.getElem?_eq_some_iff.mp h
  exact ⟨(getElem_cons_eraseIdx_perm hi).symm, set_perm_cons_eraseIdx hi c'⟩

theorem perm_flatMap_set (h : l[i]? = some c) (c' : Coroutine A) :
    (c.left ++ (l.set i c').flatMap left).Perm (c'.left ++ l.flatMap left) := by
  obtain ⟨hl, hset⟩ := perm_eraseIdx h c'
  have hset := (hset.flatMap_right left).append_left c.left
  have hl := (hl.flatMap_right left).append_left c'.left
  exact hset.trans ((perm_append_comm_assoc ..).trans hl.symm)

/-- A coroutine that has answered its pass has nothing in hand. -/
theorem flatMap_eraseIdx (h : l[i]? = some c) (hc : c.left = []) :
    (l.eraseIdx i).flatMap left = l.flatMap left := by
  induction l generalizing i with
  | nil => simp at h
  | cons d l ih =>
    cases i with
    | zero =>
      obtain rfl : d = c := by simpa using h
      simp [hc]
    | succ i => simp [ih (by simpa using h)]

/-- One flush at a time: `flushing` says whether a coroutine writes, and none waits where none does. -/
structure Single (s : Rounds A) : Prop where
  one : s.flushes.countP Coroutine.runs = s.flushing.toNat
  idle : s.flushing = false → s.waiters = [] ∧ s.settling = [] ∧ s.edits = []

theorem countP_set (h : l[i]? = some c) (c' : Coroutine A) :
    (l.set i c').countP runs + c.runs.toNat = l.countP runs + c'.runs.toNat := by
  obtain ⟨hl, hset⟩ := perm_eraseIdx h c'
  rw [hset.countP_eq, hl.countP_eq, countP_cons, countP_cons]
  cases c.runs <;> cases c'.runs <;> simp

theorem countP_eraseIdx (h : l[i]? = some c) :
    (l.eraseIdx i).countP runs + c.runs.toNat = l.countP runs := by
  rw [(perm_eraseIdx h c).1.countP_eq, countP_cons]
  cases c.runs <;> rfl

theorem Single.flushing_of_runs (h : s.Single) (hi : s.flushes[i]? = some c)
    (hc : c.runs = true) : s.flushing = true := by
  have hpos : 0 < s.flushes.countP runs :=
    countP_pos_iff.mpr ⟨c, mem_of_getElem? hi, hc⟩
  by_contra hnot
  rw [h.one, (Bool.not_eq_true _).mp hnot] at hpos
  exact Nat.lt_irrefl _ hpos

theorem start_single (hone : s.flushes.countP runs = s.flushing.toNat) : s.start.Single := by
  unfold start
  split
  · rename_i hflushing
    exact ⟨hone, fun h => absurd (h.symm.trans hflushing) Bool.false_ne_true⟩
  · rename_i hflushing
    refine ⟨?_, fun h => absurd h.symm Bool.false_ne_true⟩
    rw [(Bool.not_eq_true _).mp hflushing] at hone
    simp [hone, runs]

/-- A step that changes neither the flushes nor those who wait for them. -/
theorem Single.of_eq (h : s.Single) (hflushes : s'.flushes = s.flushes) (hflushing : s'.flushing = s.flushing)
    (hwaiters : s'.waiters = s.waiters) (hsettling : s'.settling = s.settling) (hedits : s'.edits = s.edits) :
    s'.Single := by
  refine ⟨?_, fun hidle => ?_⟩
  · rw [hflushes, hflushing, h.one]
  · rw [hwaiters, hsettling, hedits]
    exact h.idle (hflushing ▸ hidle)

theorem Single.one_set (h : s.Single) (hi : s.flushes[i]? = some c) (c' : Coroutine A)
    (hc : c'.runs = c.runs) : (s.flushes.set i c').countP runs = s.flushing.toNat := by
  have hcount := countP_set hi c'
  rw [hc, h.one] at hcount
  exact Nat.add_right_cancel hcount

theorem endPass_single (h : s.Single) {waiters edits : List A}
    (hi : s.flushes[i]? = some (.writes waiters edits)) : (s.endPass i waiters edits).Single := by
  have hflushing := h.flushing_of_runs hi rfl
  unfold Rounds.endPass
  split
  · exact ⟨h.one_set hi _ rfl, fun hidle => absurd (hidle.symm.trans hflushing) Bool.false_ne_true⟩
  · rename_i hagain
    have hcount := countP_set hi (.answers false (waiters ++ s.settling ++ edits))
    rw [h.one, hflushing] at hcount
    simp only [Bool.or_eq_true, not_or, Bool.not_eq_true, Bool.not_eq_false', List.isEmpty_iff] at hagain
    exact ⟨by simpa [runs] using hcount, fun _ => ⟨hagain.1.2, rfl, hagain.2⟩⟩

theorem ask_single (h : s.Single) (id : A) (kind : WaitKind) : (s.ask id kind).Single := by
  cases kind with
  | flush | settled =>
    simp only [ask]
    split
    · exact start_single h.one
    · exact h.of_eq rfl rfl rfl rfl rfl
  | edit =>
    simp only [ask]
    split
    · exact h.of_eq rfl rfl rfl rfl rfl
    · exact start_single h.one

section Runs

variable [DecidableEq A] {m : Move A}

theorem ask_tickets {kind : WaitKind} {id : A} (h : (kind, id) ∈ s.suspending) :
    s.tickets.Step ({ s with suspending := s.suspending.erase (kind, id) }.ask id kind).tickets := by
  have hasking : (s.suspending.map Prod.snd).Perm (id :: (s.suspending.erase (kind, id)).map Prod.snd) :=
    (perm_cons_erase h).map Prod.snd
  have hrefuse : s.tickets.Step
      { s with suspending := s.suspending.erase (kind, id), refused := id :: s.refused }.tickets := .refuse hasking
  cases kind with
  | flush =>
    simp only [ask]
    split
    · rw [tickets_start]
      exact .await hasking (perm_append_singleton ..)
    · exact hrefuse
  | settled =>
    simp only [ask]
    split
    · rw [tickets_start]
      refine .queue hasking ?_
      simp only [tickets]
      grind
    · exact hrefuse
  | edit =>
    simp only [ask]
    split
    · exact hrefuse
    · rw [tickets_start]
      refine .queue hasking ?_
      simp only [tickets]
      grind

theorem take_tickets (hi : s.flushes[i]? = some .begins) (buffered : Bool) :
    s.tickets.Step (s.take i buffered).tickets := by
  refine .round (perm_iff_count.mpr fun x => ?_)
  have hset := (perm_flatMap_set hi (.writes s.waiters s.edits)).count_eq x
  simp only [take, tickets, left, count_append, count_nil] at hset ⊢
  omega

theorem endPass_tickets {waiters edits : List A} (hi : s.flushes[i]? = some (.writes waiters edits)) :
    s.tickets.Step (s.endPass i waiters edits).tickets := by
  unfold Rounds.endPass
  split
  · refine .reorder (perm_iff_count.mpr fun x => ?_)
    have hset := (perm_flatMap_set hi (.answers true (waiters ++ edits))).count_eq x
    simp only [tickets, left, count_append] at hset ⊢
    omega
  · refine .reorder (perm_iff_count.mpr fun x => ?_)
    have hset := (perm_flatMap_set hi (.answers false (waiters ++ s.settling ++ edits))).count_eq x
    simp only [tickets, left, count_append, count_nil] at hset ⊢
    omega

theorem resume_tickets {again : Bool} {id : A} {left : List A}
    (hi : s.flushes[i]? = some (.answers again (id :: left))) : s.tickets.Step
      { s with flushes := s.flushes.set i (.answers again left), log := s.log ++ [TicketEvent.answered id] }.tickets := by
  refine .answer (perm_iff_count.mpr fun x => ?_)
  have hset := (perm_flatMap_set hi (.answers again left)).count_eq x
  simp only [tickets, Coroutine.left, count_append, count_cons] at hset ⊢
  omega

omit [DecidableEq A] in
theorem stopping_tickets (running buffered : Bool) : (s.stopping running buffered).tickets = s.tickets := by
  unfold stopping
  dsimp only
  split_ifs
  · rfl
  · exact tickets_start _
  · rfl

/-- Every step is one of the tickets' own, or moves them about. -/
theorem step_tickets (h : s.step m = some s') : s.tickets.Step s'.tickets := by
  have hstay : s.tickets.Step s.tickets := .reorder (List.Perm.refl _)
  cases m with
  | ready kind id =>
    simp only [step] at h
    split_ifs at h with hid hwaits
    · cases h
      exact .issue hid
    · cases h
      exact hstay
  | suspend kind id =>
    obtain ⟨hid, rfl⟩ := of_guard h
    exact ask_tickets hid
  | dismiss id =>
    obtain ⟨hid, rfl⟩ := of_guard h
    exact .dismiss (perm_cons_erase hid)
  | request =>
    cases h
    unfold request
    split
    · exact hstay
    · rw [tickets_start]
      exact hstay
  | close | buffer => exact some.inj h ▸ hstay
  | stopping running buffered =>
    cases h
    rw [stopping_tickets]
    exact hstay
  | stopped giveUp =>
    obtain ⟨-, rfl⟩ := of_guard h
    refine .reorder ?_
    simp only [endGroup, tickets]
    grind
  | fail id =>
    obtain ⟨hid, rfl⟩ := of_guard h
    refine .answer ?_
    exact ((perm_cons_erase hid).append_left _).trans perm_middle
  | endIfWritten =>
    simp only [step, Rounds.endIfWritten] at h
    split_ifs at h
    exact some.inj h ▸ hstay
  | take i buffered =>
    obtain ⟨hi, rfl⟩ := of_guard h
    exact take_tickets hi buffered
  | goAround | archive =>
    obtain ⟨-, rfl⟩ := of_guard h
    exact hstay
  | endPass i =>
    simp only [step] at h
    split at h
    · rename_i waiters edits hi
      exact some.inj h ▸ endPass_tickets hi
    · cases h
  | resume i =>
    simp only [step] at h
    split at h
    · rename_i again id left hi
      exact some.inj h ▸ resume_tickets hi
    · cases h
  | leave i =>
    simp only [step] at h
    split at h
    · rename_i hi
      cases h
      exact .reorder (((perm_flatMap_set hi .begins).append_left _).append_right _)
    · rename_i hi
      cases h
      refine .reorder (.of_eq ?_)
      simp only [tickets]
      rw [flatMap_eraseIdx hi rfl]
    · cases h

theorem step_single (h : s.Single) (hstep : s.step m = some s') : s'.Single := by
  cases m with
  | ready kind id =>
    simp only [step] at hstep
    split_ifs at hstep
    · exact some.inj hstep ▸ h.of_eq rfl rfl rfl rfl rfl
    · exact some.inj hstep ▸ h
  | suspend kind id =>
    obtain ⟨-, rfl⟩ := of_guard hstep
    refine ask_single ?_ id kind
    exact h.of_eq rfl rfl rfl rfl rfl
  | dismiss | fail | goAround | archive =>
    obtain ⟨-, rfl⟩ := of_guard hstep
    exact h.of_eq rfl rfl rfl rfl rfl
  | request =>
    cases hstep
    unfold request
    split
    · exact h
    · exact start_single h.one
  | close | buffer => exact some.inj hstep ▸ h.of_eq rfl rfl rfl rfl rfl
  | stopping running buffered =>
    cases hstep
    unfold stopping
    dsimp only
    split_ifs
    · exact h.of_eq rfl rfl rfl rfl rfl
    · exact start_single h.one
    · exact h.of_eq rfl rfl rfl rfl rfl
  | stopped giveUp =>
    obtain ⟨-, rfl⟩ := of_guard hstep
    exact ⟨h.one, fun hidle => ⟨(h.idle hidle).1, (h.idle hidle).2.1, rfl⟩⟩
  | endIfWritten =>
    simp only [step, Rounds.endIfWritten] at hstep
    split_ifs at hstep
    exact some.inj hstep ▸ h.of_eq rfl rfl rfl rfl rfl
  | take i buffered =>
    obtain ⟨hi, rfl⟩ := of_guard hstep
    have hflushing := h.flushing_of_runs hi rfl
    exact ⟨h.one_set hi _ rfl, fun hidle => absurd (hidle.symm.trans hflushing) Bool.false_ne_true⟩
  | endPass i =>
    simp only [step] at hstep
    split at hstep
    · rename_i waiters edits hi
      exact some.inj hstep ▸ endPass_single h hi
    · cases hstep
  | resume i =>
    simp only [step] at hstep
    split at hstep
    · rename_i again id left hi
      cases hstep
      exact ⟨h.one_set hi _ rfl, h.idle⟩
    · cases hstep
  | leave i =>
    simp only [step] at hstep
    split at hstep
    · rename_i hi
      cases hstep
      exact ⟨h.one_set hi _ rfl, h.idle⟩
    · rename_i hi
      cases hstep
      have hcount := countP_eraseIdx hi
      exact ⟨hcount.trans h.one, h.idle⟩
    · cases hstep

/-- A group as its historian starts it. -/
def fresh (archived buffered : Bool) : Rounds A := { archived := archived, buffered := buffered }

omit [DecidableEq A] in
theorem fresh_sound (archived buffered : Bool) : (fresh archived buffered : Rounds A).tickets.Sound where
  nodup := nodup_nil
  balance := List.Perm.refl _
  queued _ _ h := absurd h not_mem_nil
  awaits _ h := absurd h not_mem_nil
  served _ _ _ _ h := absurd h not_mem_nil

omit [DecidableEq A] in
theorem fresh_single (archived buffered : Bool) : (fresh archived buffered : Rounds A).Single :=
  ⟨rfl, fun _ => ⟨rfl, rfl, rfl⟩⟩

theorem run_sound {ms : List (Move A)} (h : s.Single) (ht : s.tickets.Sound) (hrun : s.run ms = some s') :
    s'.Single ∧ s'.tickets.Sound := by
  induction ms generalizing s with
  | nil => exact some.inj hrun ▸ ⟨h, ht⟩
  | cons m ms ih =>
    obtain ⟨mid, hstep, hrun⟩ := bind_eq_some_iff.mp hrun
    exact ih (step_single h hstep) (ht.step (step_tickets hstep)) hrun

end Runs

/-- What holds of a group's flushes and awaits between any two steps. -/
structure Orderly (s : Rounds A) : Prop where
  /-- At most one coroutine writes, or is to. -/
  one_flush : s.flushes.countP Coroutine.runs ≤ 1
  /-- No await is resumed twice. -/
  resumed_once : (answeredIn s.log).Nodup
  /-- With no coroutine left nothing is queued, and every await that was has been resumed, or is an edit
  the group's end is about to fail. -/
  none_lost : s.flushes = [] → s.flushing = false ∧ s.waiters = [] ∧ s.settling = [] ∧ s.edits = [] ∧
    ∀ round id, .queued round id ∈ s.log → .answered id ∈ s.log ∨ id ∈ s.failing
  /-- A Flush that was queued is resumed only after a pass that took after it was. -/
  flushed : ∀ before id after, s.log = before ++ .answered id :: after → .queued true id ∈ s.log → Served before id

theorem Single.orderly {s : Rounds A} (h : s.Single) (ht : s.tickets.Sound) : s.Orderly where
  one_flush := h.one ▸ Bool.toNat_le _
  resumed_once := ht.answered_nodup
  none_lost hflushes := by
    have hone := h.one
    rw [hflushes, countP_nil] at hone
    have hflushing : s.flushing = false := by
      by_contra hnot
      rw [(Bool.not_eq_false _).mp hnot] at hone
      exact absurd hone Nat.zero_ne_one
    obtain ⟨hwaiters, hsettling, hedits⟩ := h.idle hflushing
    refine ⟨hflushing, hwaiters, hsettling, hedits, fun round id hid => ?_⟩
    have hqueued := ht.queued round id hid
    simp only [tickets, hwaiters, hsettling, hedits, hflushes, flatMap_nil, nil_append, mem_append,
      mem_answeredIn] at hqueued
    exact hqueued.symm
  flushed := ht.served

/-- Whatever the interleaving, one flush at a time writes, no await is resumed twice or lost, and a
queued Flush is resumed after a pass that took after it. -/
theorem run_orderly [DecidableEq A] {archived buffered : Bool} {ms : List (Move A)} {s : Rounds A}
    (hrun : (fresh archived buffered).run ms = some s) : s.Orderly := by
  obtain ⟨hsingle, hsound⟩ := run_sound (fresh_single _ _) (fresh_sound _ _) hrun
  exact hsingle.orderly hsound

end Rounds

open Rounds

/-- A Flush and an edit, the edit asked for while the Flush's pass writes. -/
def editedAmidFlush : List (Move ℕ) :=
  [.ready .flush 1, .suspend .flush 1, .take 0 false, .ready .edit 2, .suspend .edit 2, .endPass 0, .resume 0,
    .leave 0, .take 0 false, .endPass 0, .resume 0, .leave 0]

theorem editedAmidFlush_orderly : ∃ s, (fresh true false).run editedAmidFlush = some s ∧ s.flushes = [] ∧
    answeredIn s.log = [1, 2] ∧ s.Orderly := by
  have hrun : ((fresh true false).run editedAmidFlush).map (fun s => (s.flushes, answeredIn s.log)) =
      some ([], [1, 2]) := by decide
  obtain ⟨s, hs, h⟩ := Option.map_eq_some_iff.mp hrun
  obtain ⟨hflushes, hanswered⟩ := Prod.mk.inj h
  exact ⟨s, hs, hflushes, hanswered, run_orderly hs⟩

/-- A Flush that finds something to wait for, on a group that ends before it is suspended. -/
def endedAmidReady : List (Move ℕ) := [.ready .flush 1, .stopped false, .suspend .flush 1, .dismiss 1]

/-- A request while the last pass's awaits are still to be resumed. -/
def requestedAmidAnswers : List (Move ℕ) :=
  [.ready .flush 1, .suspend .flush 1, .take 0 false, .endPass 0, .request]

/-- An edit queued on a group that gives up on its flush, which then returns. -/
def gaveUpOnEdit : List (Move ℕ) :=
  [.ready .edit 1, .suspend .edit 1, .stopped true, .take 0 false, .endPass 0, .leave 0]

/-- A Flush is resumed with no pass after it, a coroutine begins while one has not returned, and with none left an
edit that was queued is still to be resumed. -/
theorem resumed_without_pass :
    (∃ s, (fresh true false).run endedAmidReady = some s ∧ .answered 1 ∈ s.log ∧ .round ∉ s.log) ∧
      (∃ s, (fresh true false).run requestedAmidAnswers = some s ∧ s.flushes = [.answers false [1], .begins]) ∧
      ∃ s, (fresh true false).run gaveUpOnEdit = some s ∧ s.flushes = [] ∧ .queued false 1 ∈ s.log ∧
        .answered 1 ∉ s.log ∧ s.failing = [1] :=
  ⟨⟨_, rfl, by decide, by decide⟩, ⟨_, rfl, rfl⟩, ⟨_, rfl, rfl, by decide, by decide, rfl⟩⟩

end OpcHub.Historian
