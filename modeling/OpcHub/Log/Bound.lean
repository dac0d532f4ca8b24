import OpcHub.Log.ProtoLog

/-! The bound below which nothing is local: a query that ends at or before it does not
read the daily log. Writers lower it, and the round that took the daily file away raises
it to the end of time, but by then has given the file's lock up: a flush that has put
its batch in the new file meanwhile is in neither the buffer nor flight, and its entries
are behind the bound. -/

namespace OpcHub.Log

open Lib List

variable {c : Config}

/-- The records a task holds that may be in no file yet. -/
def Task.records : Task → List Rec
  | .flush _ batch .waiting => batch
  | .flush _ batch (.writing run) => batch ++ recordsOf run.frames
  | .flush _ _ .flushed => []
  | .flush _ _ (.draining pending) => pending
  | .flush _ _ (.drainWriting pending run) => pending ++ recordsOf run.frames
  | .round _ => []
  | .load => []

namespace ProtoLog

variable {s t u : ProtoLog} {r : Rec} {task : Task} {rest : List Task} {batch pending : List Rec} {id now : ℕ} {run : Pending}

/-- The records of the local log: the buffer, the batches on their way, what is salvaged, and what is in the daily file. -/
def locals (s : ProtoLog) : List Rec :=
  s.toSave ++ s.inFlight.values.flatten ++ s.queue.flatMap Task.records ++ s.file.salvaged ++ recordsOf (s.disk.getD [])

theorem mem_locals : r ∈ s.locals ↔ r ∈ s.toSave ∨ (∃ batch ∈ s.inFlight.values, r ∈ batch) ∨
    (∃ task ∈ s.queue, r ∈ task.records) ∨ r ∈ s.file.salvaged ∨ r ∈ recordsOf (s.disk.getD []) := by
  simp only [locals, mem_append, mem_flatten, mem_flatMap, or_assoc]

theorem locals_of_toSave (h : r ∈ s.toSave) : r ∈ s.locals := mem_locals.mpr (.inl h)

theorem locals_of_flight (hb : batch ∈ s.inFlight.values) (h : r ∈ batch) : r ∈ s.locals :=
  mem_locals.mpr (.inr (.inl ⟨batch, hb, h⟩))

theorem locals_of_task (ht : task ∈ s.queue) (h : r ∈ task.records) : r ∈ s.locals :=
  mem_locals.mpr (.inr (.inr (.inl ⟨task, ht, h⟩)))

theorem locals_of_salvaged (h : r ∈ s.file.salvaged) : r ∈ s.locals := mem_locals.mpr (.inr (.inr (.inr (.inl h))))

theorem locals_of_disk (h : r ∈ recordsOf (s.disk.getD [])) : r ∈ s.locals := mem_locals.mpr (.inr (.inr (.inr (.inr h))))

/-- Records change their places only, and the bound stays. -/
structure Moves (s t : ProtoLog) : Prop where
  start : t.dailyFileStart = s.dailyFileStart
  toSave : ∀ r ∈ t.toSave, r ∈ s.locals
  flight : ∀ batch ∈ t.inFlight.values, ∀ r ∈ batch, r ∈ s.locals
  task : ∀ task ∈ t.queue, ∀ r ∈ task.records, r ∈ s.locals
  salvaged : ∀ r ∈ t.file.salvaged, r ∈ s.locals
  disk : ∀ r ∈ recordsOf (t.disk.getD []), r ∈ s.locals

namespace Moves

theorem locals (h : Moves s t) : ∀ r ∈ t.locals, r ∈ s.locals := by
  intro r hr
  rcases mem_locals.mp hr with h' | ⟨b, hb, h'⟩ | ⟨task, ht, h'⟩ | h' | h'
  · exact h.toSave r h'
  · exact h.flight b hb r h'
  · exact h.task task ht r h'
  · exact h.salvaged r h'
  · exact h.disk r h'

theorem refl (s : ProtoLog) : Moves s s where
  start := rfl
  toSave _ hr := locals_of_toSave hr
  flight _ hb _ hr := locals_of_flight hb hr
  task _ ht _ hr := locals_of_task ht hr
  salvaged _ hr := locals_of_salvaged hr
  disk _ hr := locals_of_disk hr

theorem trans (h : Moves s t) (h' : Moves t u) : Moves s u where
  start := h'.start.trans h.start
  toSave r hr := h.locals r (h'.toSave r hr)
  flight b hb r hr := h.locals r (h'.flight b hb r hr)
  task x hx r hr := h.locals r (h'.task x hx r hr)
  salvaged r hr := h.locals r (h'.salvaged r hr)
  disk r hr := h.locals r (h'.disk r hr)

theorem cap (s : ProtoLog) : Moves s (s.cap c) := by
  unfold ProtoLog.cap
  split_ifs
  · exact refl s
  · exact { refl s with toSave := fun r hr => locals_of_toSave ((dropTo_suffix _ _).subset hr) }

theorem rest_mem (hqueue : s.queue = task :: rest) : ∀ x ∈ rest, ∀ r ∈ x.records, r ∈ s.locals := fun _ hx _ hr =>
  locals_of_task (hqueue ▸ mem_cons_of_mem task hx) hr

theorem head_mem (hqueue : s.queue = task :: rest) : ∀ r ∈ task.records, r ∈ s.locals := fun _ hr =>
  locals_of_task (hqueue ▸ mem_cons_self) hr

theorem pop (hqueue : s.queue = task :: rest) : Moves s { s with queue := rest } :=
  { refl s with task := rest_mem hqueue }

theorem push {next : Task} (hqueue : s.queue = task :: rest) (hnext : ∀ r ∈ next.records, r ∈ s.locals) :
    Moves s { s with queue := next :: rest } :=
  { refl s with task := forall_mem_cons.mpr ⟨hnext, rest_mem hqueue⟩ }

theorem beginRound (hqueue : s.queue = task :: rest) : Moves s (s.beginRound rest) :=
  { refl s with
    task := forall_mem_append.mpr ⟨rest_mem hqueue, forall_mem_singleton.mpr nofun⟩ }

theorem fail (hqueue : s.queue = task :: rest) (hbatch : ∀ r ∈ batch, r ∈ task.records) : Moves s (s.fail c id batch rest) := by
  have hback : Moves s (ProtoLog.giveBack { s with inFlight := s.inFlight.erase id, queue := rest } batch) :=
    { refl s with
      toSave := forall_mem_append.mpr ⟨fun r hr => head_mem hqueue r (hbatch r hr), fun _ hr => locals_of_toSave hr⟩
      flight := fun _ hb _ hr => locals_of_flight (OrdMap.mem_values_of_erase hb) hr
      task := rest_mem hqueue }
  exact trans hback (cap _)

theorem failDrain (hqueue : s.queue = task :: rest) (hpending : ∀ r ∈ pending, r ∈ task.records) :
    Moves s (s.failDrain pending rest) :=
  { refl s with
    toSave := forall_mem_append.mpr ⟨fun r hr => head_mem hqueue r (hpending r hr), fun _ hr => locals_of_toSave hr⟩
    task := rest_mem hqueue }

theorem failRound (hqueue : s.queue = task :: rest) : Moves s (s.failRound rest) :=
  { refl s with task := rest_mem hqueue }

theorem openFile (s : ProtoLog) : Moves s (s.openFile c) :=
  { refl s with salvaged := fun _ hr => (DailyFile.mem_current_salvaged hr).elim locals_of_salvaged locals_of_disk }

/-- An append is prepared of records its task holds, and the task goes on with it. -/
theorem prepareWith {records : List Rec} {next : Pending → Task} {failed : ProtoLog → ProtoLog}
    (hqueue : s.queue = task :: rest) (hrecords : ∀ r ∈ records, r ∈ task.records)
    (hnext : ∀ run, (next run).records = records ++ recordsOf run.frames)
    (hfailed : ∀ {u : ProtoLog}, u.queue = s.queue → Moves u (failed u)) :
    Moves s (s.prepareWith c records now (fun run u => { u with queue := next run :: rest }) failed) := by
  have hp := DailyFile.prepare_prepared (c := c) s.file s.disk records now
  unfold ProtoLog.prepareWith
  dsimp only
  generalize s.file.prepare c s.disk records now = p at hp
  have hmoves : Moves s { s with file := p.1, disk := p.2.1 } :=
    { refl s with
      salvaged := fun _ hr => locals_of_salvaged (hp.salvaged ▸ hr)
      disk := fun _ hr => locals_of_disk (hp.disk.subset hr) }
  cases hrun : p.2.2 with
  | none => exact trans hmoves (hfailed rfl)
  | some run =>
    refine { hmoves with task := forall_mem_cons.mpr ⟨?_, rest_mem hqueue⟩ }
    rw [hnext]
    refine forall_mem_append.mpr ⟨fun r hr => head_mem hqueue r (hrecords r hr), fun r hr => ?_⟩
    rcases hp.run run hrun r hr with hr | hr
    · exact locals_of_salvaged hr
    · exact head_mem hqueue r (hrecords r hr)

theorem wroteTo {outcome : Outcome} (hqueue : s.queue = task :: rest) (hrun : ∀ r ∈ recordsOf run.frames, r ∈ task.records) :
    Moves s (s.wroteTo c run outcome) := by
  have hcut : ∀ r ∈ recordsOf (resize c run.offset (s.disk.getD [])), r ∈ s.locals := fun _ hr =>
    locals_of_disk ((recordsOf_resize_sublist _ _).subset hr)
  refine { refl s with disk := ?_ }
  cases outcome with
  | written =>
    simp only [ProtoLog.wroteTo, Pending.write, Option.getD_some, recordsOf_append]
    exact forall_mem_append.mpr ⟨hcut, fun r hr => head_mem hqueue r (hrun r hr)⟩
  | untouched => exact (refl s).disk
  | left n =>
    simp only [ProtoLog.wroteTo, Pending.write, Option.getD_some, recordsOf_append]
    refine forall_mem_append.mpr ⟨hcut, fun r hr => head_mem hqueue r (hrun r ?_)⟩
    exact (recordsOf_takeBytes_sublist _ _).subset hr

theorem of_prepare {opens : Bool} (hqueue : s.queue = task :: rest) (hstep : s.prepare c opens now task rest = some t) :
    Moves s t := by
  cases task with
  | flush id batch stage =>
    cases stage with
    | waiting =>
      cases hstep
      split_ifs
      · have hopen : (s.openFile c).queue = .flush id batch .waiting :: rest := hqueue
        refine trans (openFile s) (prepareWith hopen (fun _ hr => hr) (fun _ => rfl) ?_)
        exact fun hu => fail (hu.trans hqueue) fun _ hr => hr
      · exact fail hqueue fun _ hr => hr
    | draining pending =>
      cases hstep
      refine prepareWith hqueue (fun _ hr => hr) (fun _ => rfl) ?_
      exact fun hu => failDrain (hu.trans hqueue) fun _ hr => hr
    | writing | flushed | drainWriting => cases hstep
  | round | load => cases hstep

theorem of_wrote {outcome : Outcome} (hqueue : s.queue = task :: rest) (hstep : s.wrote c outcome task rest = some t) :
    Moves s t := by
  cases task with
  | flush id batch stage =>
    cases stage with
    | writing run =>
      have hwrote : Moves s (s.wroteTo c run outcome) := wroteTo hqueue fun _ hr => mem_append_right _ hr
      cases hstep
      replace hqueue : (s.wroteTo c run outcome).queue = _ := hqueue
      generalize s.wroteTo c run outcome = u at hwrote hqueue
      split_ifs
      · refine trans hwrote { refl u with
          salvaged := nofun
          flight := fun _ hb _ hr => locals_of_flight (OrdMap.mem_values_of_erase hb) hr
          task := forall_mem_cons.mpr ⟨nofun, rest_mem hqueue⟩ }
      · exact trans hwrote (fail hqueue fun _ hr => mem_append_left _ hr)
    | drainWriting pending run =>
      have hwrote : Moves s (s.wroteTo c run outcome) := wroteTo hqueue fun _ hr => mem_append_right _ hr
      cases hstep
      replace hqueue : (s.wroteTo c run outcome).queue = _ := hqueue
      split_ifs
      · exact trans hwrote { beginRound hqueue with salvaged := nofun }
      · exact trans hwrote (failDrain hqueue fun _ hr => mem_append_left _ hr)
    | waiting | flushed | draining => cases hstep
  | round | load => cases hstep

theorem of_drain {due : Bool} (hqueue : s.queue = task :: rest) (hstep : s.drain due task rest = some t) : Moves s t := by
  cases task with
  | flush id batch stage =>
    cases stage with
    | flushed =>
      cases hstep
      split_ifs
      · exact { beginRound hqueue with toSave := nofun }
      · have hpush : Moves s { s with queue := .flush id batch (.draining s.toSave) :: rest } :=
          push hqueue fun _ hr => locals_of_toSave hr
        exact { hpush with
          toSave := nofun }
      · exact pop hqueue
    | waiting | writing | draining | drainWriting => cases hstep
  | round | load => cases hstep

theorem of_take {opens reads : Bool} (hqueue : s.queue = task :: rest) (hstep : s.take c opens reads task rest = some t) :
    Moves s t := by
  cases task with
  | round snapshot =>
    cases snapshot with
    | none =>
      cases hstep
      dsimp only
      split_ifs
      · exact trans (openFile s) (push hqueue nofun)
      · exact trans (openFile s) (failRound hqueue)
      · exact failRound hqueue
    | some snapshot => cases hstep
  | flush | load => cases hstep

theorem of_rewrite {end_ : Rewrite} (hqueue : s.queue = task :: rest) (hstep : s.rewrite end_ task rest = some t) :
    Moves s t := by
  cases task with
  | round snapshot =>
    cases snapshot with
    | none => cases hstep
    | some snapshot =>
      obtain ⟨day, -, rfl⟩ := Option.map_eq_some_iff.mp hstep
      have hnext : Moves s (s.nextDay snapshot rest) := push hqueue nofun
      split_ifs
      · exact hnext
      · cases end_ with
        | replaced | unreadable => exact { hnext with }
        | failed => exact failRound hqueue
  | flush | load => cases hstep

theorem of_remove {done : Bool} (hqueue : s.queue = task :: rest) (hstep : s.remove done task rest = some t) : Moves s t := by
  cases task with
  | round snapshot =>
    cases snapshot with
    | none => cases hstep
    | some snapshot =>
      obtain ⟨-, rfl⟩ := of_guard hstep
      split_ifs
      · exact { pop hqueue with disk := nofun }
      · exact failRound hqueue
  | flush | load => cases hstep

theorem of_load {opens reads : Bool} (hqueue : s.queue = task :: rest) (hstep : s.load c opens reads task rest = some t) :
    Moves s t := by
  cases task with
  | load =>
    cases hstep
    have hopen : Moves s { s.openFile c with queue := rest } := trans (openFile s) (pop hqueue)
    dsimp only
    split_ifs
    · exact { hopen with }
    · exact { hopen with }
    · exact { hopen with }
    · exact { pop hqueue with }
  | flush | round => cases hstep

theorem of_held {f : Task → List Task → Option ProtoLog}
    (hf : ∀ {task rest}, s.queue = task :: rest → f task rest = some t → Moves s t) (hstep : s.held f = some t) :
    Moves s t := by
  obtain ⟨task, rest, hqueue, hstep⟩ := held_eq_some.mp hstep
  exact hf hqueue hstep

end Moves

open Moves

/-- Every step but a write, and those that move the bound, only moves records. -/
theorem moves_of_step {event : Event} (hstep : s.step c event = some t) :
    (∃ e, event = .write e) ∨ event = .parked ∨ event = .backedOff ∨ (∃ today, event = .crash today) ∨ Moves s t := by
  cases event with
  | write e => exact .inl ⟨e, rfl⟩
  | parked => exact .inr (.inl rfl)
  | backedOff => exact .inr (.inr (.inl rfl))
  | crash today => exact .inr (.inr (.inr (.inl ⟨today, rfl⟩)))
  | save =>
    obtain ⟨-, rfl⟩ := of_unless hstep
    refine .inr (.inr (.inr (.inr ?_)))
    refine { refl s with toSave := nofun, flight := fun b hb r hr => ?_, task := ?_ }
    · rcases OrdMap.mem_values_of_insert hb with rfl | hb
      · exact locals_of_toSave hr
      · exact locals_of_flight hb hr
    · refine forall_mem_append.mpr ⟨fun _ ht _ hr => locals_of_task ht hr, forall_mem_singleton.mpr ?_⟩
      exact fun _ hr => locals_of_toSave hr
  | prepare opens now => exact .inr (.inr (.inr (.inr (.of_held of_prepare hstep))))
  | wrote outcome => exact .inr (.inr (.inr (.inr (.of_held of_wrote hstep))))
  | drain due => exact .inr (.inr (.inr (.inr (.of_held of_drain hstep))))
  | take opens reads => exact .inr (.inr (.inr (.inr (.of_held of_take hstep))))
  | rewrite end_ => exact .inr (.inr (.inr (.inr (.of_held of_rewrite hstep))))
  | remove done => exact .inr (.inr (.inr (.inr (.of_held of_remove hstep))))
  | ask =>
    cases hstep
    refine .inr (.inr (.inr (.inr { refl s with task := forall_mem_append.mpr ⟨(refl s).task, ?_⟩ })))
    exact forall_mem_singleton.mpr nofun
  | load opens reads => exact .inr (.inr (.inr (.inr (.of_held of_load hstep))))
  | purge =>
    obtain ⟨-, rfl⟩ := of_unless hstep
    exact .inr (.inr (.inr (.inr { refl s with disk := nofun })))

theorem foldl_addString_eq (ids : List StringId) (s : ProtoLog) : ∃ added strings, ids.foldl addString s =
    { s with toSave := s.toSave ++ map Rec.str added, strings := strings } := by
  induction ids generalizing s with
  | nil => exact ⟨[], s.strings, by simp⟩
  | cons id ids ih =>
    obtain ⟨added, strings, hs⟩ := ih (s.addString id)
    rw [foldl_cons, hs]
    unfold addString
    split_ifs
    · exact ⟨added, strings, rfl⟩
    · exact ⟨id :: added, strings, by simp⟩

theorem foldl_addArgument_eq (ids : List StringId) (s : ProtoLog) : ∃ added args, ids.foldl addArgument s =
    { s with toSave := s.toSave ++ map Rec.str added, args := args } := by
  induction ids generalizing s with
  | nil => exact ⟨[], s.args, by simp⟩
  | cons id ids ih =>
    obtain ⟨added, args, hs⟩ := ih (s.addArgument id)
    rw [foldl_cons, hs]
    unfold addArgument
    split_ifs
    · exact ⟨added, args, rfl⟩
    · exact ⟨id :: added, args, by simp⟩

theorem buffer_eq (s : ProtoLog) (e : Entry) : ∃ added strings args, s.buffer e =
    { s with toSave := s.toSave ++ map Rec.str added ++ [.entry e], strings := strings, args := args } := by
  obtain ⟨added, strings, hs⟩ := foldl_addString_eq (e.template :: (e.file.toList ++ e.function.toList)) s
  obtain ⟨added', args, ht⟩ := foldl_addArgument_eq (e.args.filterMap id) { s with toSave := s.toSave ++ map Rec.str added, strings := strings }
  refine ⟨added ++ added', strings, args, ?_⟩
  unfold buffer
  dsimp only
  rw [hs, ht]
  simp

/-- The bound is at or before every local entry. -/
def Bounded (s : ProtoLog) : Prop := ∀ e, .entry e ∈ s.locals → s.dailyFileStart ≤ e.time

theorem Bounded.moves (h : Bounded s) (hmoves : Moves s t) : Bounded t := fun e he =>
  hmoves.start ▸ h e (hmoves.locals _ he)

theorem Bounded.write (h : Bounded s) (e : Entry) : Bounded (s.write c e) := by
  refine Bounded.moves ?_ (Moves.cap _)
  have hlow : Bounded { s with dailyFileStart := min s.dailyFileStart e.time, written := s.written ++ [e] } :=
    fun e' he => (min_le_left _ _).trans (h e' he)
  suffices hbuffer : ∀ {u : ProtoLog}, Bounded u → u.dailyFileStart ≤ e.time → Bounded (u.buffer e) by
    refine hbuffer ?_ ?_
    · split_ifs
      · exact hlow
      · exact fun e' he => hlow e' he
    · split_ifs
      · exact min_le_right _ _
      · exact min_le_right _ _
  intro u hu he
  obtain ⟨added, strings, args, hbuffer⟩ := u.buffer_eq e
  rw [hbuffer]
  intro e' he'
  rcases mem_locals.mp he' with h' | h'
  · simp only [mem_append, mem_map, reduceCtorEq, and_false, exists_false, or_false, mem_singleton,
      Rec.entry.injEq] at h'
    rcases h' with h' | rfl
    · exact hu e' (locals_of_toSave h')
    · exact he
  · exact hu e' (mem_locals.mpr (.inr h'))

/-- A round that has ended finds no local entry, where the buffer and flight are empty. -/
def Parks (s : ProtoLog) : Event → Prop
  | .parked => s.toSave = [] → s.inFlight.entries = [] → entriesOf s.locals = []
  | _ => True

theorem mem_entriesOf {rs : List Rec} {e : Entry} : e ∈ entriesOf rs ↔ .entry e ∈ rs := by
  simp only [entriesOf, mem_filterMap]
  constructor
  · rintro ⟨r, hr, he⟩
    cases r with
    | str => cases he
    | entry e' => exact Option.some.inj he ▸ hr
  · exact fun he => ⟨_, he, rfl⟩

theorem Bounded.step {event : Event} (h : Bounded s) (hparks : s.Parks event) (hstep : s.step c event = some t) :
    Bounded t := by
  rcases moves_of_step hstep with ⟨e, rfl⟩ | rfl | rfl | ⟨today, rfl⟩ | hmoves
  · obtain ⟨-, rfl⟩ := of_guard hstep
    exact h.write e
  · obtain ⟨-, rfl⟩ := of_unless hstep
    intro e he
    split_ifs with hempty
    · have hnone := hparks hempty.1 hempty.2
      exact absurd (mem_entriesOf.mpr he) (hnone ▸ not_mem_nil)
    · exact h e he
  · obtain ⟨-, rfl⟩ := of_unless hstep
    exact fun e _ => TimePoint.min_le e.time
  · cases hstep
    intro e he
    cases hdisk : s.disk with
    | none => simp [mem_locals, start, hdisk, OrdMap.mem_values] at he
    | some frames => simp [start, hdisk]
  · exact h.moves hmoves

/-- Today's log is read, unless the query ends before it starts. -/
def readLocal (s : ProtoLog) (end_ : Option TimePoint) : Bool := end_.elim true fun t => s.dailyFileStart < t

/-- Over every run in which a round that has ended moves the bound past the buffer and flight only while no entry is in
the daily file, salvaged or drained: the bound is at or before every entry of the local log, and a query that skips it
misses nothing. -/
theorem dailyFileStart_le {events : List Event} (hrun : exec (step c) {} events = some s)
    (hparks : Along (step c) Parks {} events) :
    (∀ e ∈ entriesOf s.locals, s.dailyFileStart ≤ e.time) ∧
      ∀ end_, s.readLocal (some end_) = false → ∀ e ∈ entriesOf s.locals, ¬ e.time < end_ := by
  have hbounded : Bounded s := by
    refine hparks.exec_induction (I := Bounded) Bounded.step ?_ hrun
    exact fun e he => absurd he (by simp [mem_locals, OrdMap.mem_values])
  refine ⟨fun e he => hbounded e (mem_entriesOf.mp he), fun end_ hskip e he hlt => ?_⟩
  have hle : end_ ≤ s.dailyFileStart := by simpa [readLocal] using hskip
  exact absurd (hle.trans (hbounded e (mem_entriesOf.mp he))) (not_le.mpr hlt)

instance (s : ProtoLog) : DecidablePred s.Parks
  | .parked => inferInstanceAs (Decidable (_ → _ → _))
  | .write _ | .save | .prepare _ _ | .wrote _ | .drain _ | .take _ _ | .rewrite _ | .remove _ | .backedOff | .ask
  | .load _ _ | .purge | .crash _ => isTrue trivial

/-- Every record of ten bytes, a start of twenty, days of a hundred and a buffer of a thousand. -/
def tenBytes : Config where
  size := fun _ => 10
  startSize := fun _ => 20
  maxSize := 1000
  day := fun t => t.val / 100
  size_pos := fun _ => by decide
  startSize_pos := fun _ => by decide

def first : Entry := { seq := 0, time := .ofNat 110, template := 1 }

def second : Entry := { seq := 1, time := .ofNat 120, template := 1 }

/-- A flush of the first entry, and the round it begins. -/
def archivesFirst : List Event :=
  [.write first, .save, .prepare true 5, .wrote .written, .drain true, .take true true, .rewrite .replaced]

/-- The round is over, and the second entry is flushed before the round moves the bound. -/
def flushedMeanwhile : List Event :=
  archivesFirst ++ [.write second, .save, .remove true, .prepare true 6, .wrote .written, .drain true, .parked]

theorem flushedMeanwhile_behind : ∃ s, exec (step tenBytes) {} flushedMeanwhile = some s ∧ second ∈ entriesOf s.locals ∧
    s.dailyFileStart = TimePoint.max ∧ s.readLocal (some 200) = false ∧ second.time < 200 := by
  refine ⟨_, rfl, ?_⟩
  decide +kernel

/-- The round moves the bound first. -/
def flushedAfter : List Event :=
  archivesFirst ++ [.remove true, .parked, .write second, .save, .prepare true 6, .wrote .written, .drain true]

theorem flushedAfter_bounded : ∃ s, exec (step tenBytes) {} flushedAfter = some s ∧ entriesOf s.locals = [second] ∧
    s.dailyFileStart = 120 ∧ ∀ e ∈ entriesOf s.locals, s.dailyFileStart ≤ e.time := by
  have hrun : exec (step tenBytes) {} flushedAfter = some _ := rfl
  exact ⟨_, hrun, by decide +kernel, by decide +kernel, (dailyFileStart_le hrun (by decide +kernel)).1⟩

end ProtoLog

end OpcHub.Log
