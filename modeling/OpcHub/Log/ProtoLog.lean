import OpcHub.Log.DailyFile
import OpcHub.Lib.Runs

/-! The log. Entries are buffered with the strings they name, a flush takes the buffer
to the daily file, and a round takes the file's entries to the archives of their days and
removes the file. Flushes, rounds and reads of the daily file each hold the file's lock,
in the order they asked for it; the buffer has a lock of its own, under which writers and
the steps between a flush's waits come in any order. -/

namespace OpcHub.Log

open Lib

/-- A day's archive: which daily file it has taken entries from and through which byte, its strings and its entries. -/
structure Archive where
  merged : Option (ℕ × ℕ) := none
  strings : List StringId := []
  entries : List Entry := []
  deriving DecidableEq

/-- What a round takes of the daily file: each day's entries, with where each ends in it. -/
structure Snapshot where
  identity : ℕ
  through : ℕ
  strings : List StringId
  days : List (ℕ × List (ℕ × Entry))
  deriving DecidableEq

/-- Where a flush is. -/
inductive FlushStage where
  | waiting
  | writing (run : Pending)
  /-- The batch is in the file. -/
  | flushed
  /-- The records the drain took of the buffer. -/
  | draining (pending : List Rec)
  | drainWriting (pending : List Rec) (run : Pending)
  deriving DecidableEq

/-- Who asked for the file's lock: a flush with its batch, a round, and a read of the daily log. -/
inductive Task where
  | flush (id : ℕ) (batch : List Rec) (stage : FlushStage)
  | round (snapshot : Option Snapshot)
  | load
  deriving DecidableEq

/-- How the rewrite of a day's archive ends: it replaces the archive, it fails and the round with it, or the archive can't
be read and the day's entries are dropped. -/
inductive Rewrite where
  | replaced
  | failed
  | unreadable
  deriving DecidableEq

structure ProtoLog where
  /-- The records the next flush takes, and the strings the buffer holds since it was last taken. -/
  toSave : List Rec := []
  strings : List StringId := []
  args : List StringId := []
  dailyFileStart : TimePoint := TimePoint.max
  today : ℕ := 0
  needsArchive : Bool := false
  inFlight : OrdMap ℕ (List Rec) := ∅
  flushId : ℕ := 0
  /-- The file's lock: the first has it, the others wait for it. -/
  queue : List Task := []
  /-- The rounds that ended well, and those that failed, and have not gone on from there. -/
  ended : ℕ := 0
  failed : ℕ := 0
  file : DailyFile := {}
  disk : Option (List Frame) := none
  archives : OrdMap ℕ Archive := ∅
  /-- What the last read of the daily log came to, unless it failed. -/
  loaded : Option (List Rec) := none
  /-- The entries written so far, those dropped, those a flush returned to the buffer, and those sealed in a daily file. -/
  written : List Entry := []
  dropped : List Entry := []
  returned : List Entry := []
  sealed : List Entry := []

inductive Event where
  | write (e : Entry)
  /-- The timer, or the buffer's size, starts a flush. -/
  | save
  /-- The lock's holder opens the file where it must, and prepares its append at `now`. -/
  | prepare (opens : Bool) (now : ℕ)
  /-- Its write ends. -/
  | wrote (outcome : Outcome)
  /-- A flush that is done begins a round, if one is due. -/
  | drain (due : Bool)
  /-- A round reads the daily file, rewrites the archive of its next day, and removes the file. -/
  | take (opens reads : Bool)
  | rewrite (end_ : Rewrite)
  | remove (done : Bool)
  /-- A round that has ended moves the bound. -/
  | parked
  | backedOff
  /-- A query asks for the daily log, and reads it. -/
  | ask
  | load (opens reads : Bool)
  /-- Someone removes the daily file. -/
  | purge
  /-- The process ends at once, and starts again; the file was last written on `today`. -/
  | crash (today : ℕ)
  deriving DecidableEq

namespace ProtoLog

variable (c : Config)

/-- The buffer's bytes. -/
def bytes (rs : List Rec) : ℕ := (rs.map c.size).sum

/-- `AddString`, with the cache of templates, files and functions. -/
def addString (s : ProtoLog) (id : StringId) : ProtoLog :=
  if id ∈ s.strings then s else { s with strings := id :: s.strings, toSave := s.toSave ++ [.str id] }

/-- `AddString`, with the cache of the arguments' texts. -/
def addArgument (s : ProtoLog) (id : StringId) : ProtoLog :=
  if id ∈ s.args then s else { s with args := id :: s.args, toSave := s.toSave ++ [.str id] }

/-- The oldest records go, down to `target` bytes. -/
def dropTo (target : ℕ) : List Rec → List Rec
  | [] => []
  | r :: rs => if bytes c (r :: rs) > target then dropTo target rs else r :: rs

/-- `Cap`, with `Drop`: the strings go with the records that held them. -/
def cap (s : ProtoLog) : ProtoLog :=
  if bytes c s.toSave ≤ c.maxSize then s
  else
    { s with
      toSave := dropTo c (c.maxSize / 2) s.toSave
      dropped := s.dropped ++
        entriesOf (s.toSave.take (s.toSave.length - (dropTo c (c.maxSize / 2) s.toSave).length))
      strings := []
      args := [] }

/-- The entry and the strings it names that the buffer does not hold, each before it. -/
def buffer (s : ProtoLog) (e : Entry) : ProtoLog :=
  let t := (e.template :: (e.file.toList ++ e.function.toList)).foldl addString s
  let t := (e.args.filterMap id).foldl addArgument t
  { t with toSave := t.toSave ++ [.entry e] }

def write (s : ProtoLog) (e : Entry) : ProtoLog :=
  let s := { s with dailyFileStart := min s.dailyFileStart e.time, written := s.written ++ [e] }
  let s := if s.today = c.day e.time then s else { s with today := c.day e.time, needsArchive := true }
  cap c (buffer s e)

/-- `Save` up to its wait for the lock. -/
def save (s : ProtoLog) : ProtoLog :=
  { s with
    toSave := []
    strings := []
    args := []
    inFlight := s.inFlight.insert (s.flushId + 1) s.toSave
    flushId := s.flushId + 1
    queue := s.queue ++ [.flush (s.flushId + 1) s.toSave .waiting] }

/-- `Return`: ahead of what came since. -/
def giveBack (s : ProtoLog) (batch : List Rec) : ProtoLog :=
  { s with toSave := batch ++ s.toSave, returned := s.returned ++ entriesOf batch }

/-- A flush that failed: its batch is out of flight before it goes back. -/
def fail (s : ProtoLog) (id : ℕ) (batch : List Rec) (rest : List Task) : ProtoLog :=
  cap c (giveBack { s with inFlight := s.inFlight.erase id, queue := rest } batch)

/-- A drain that failed: the round is due still. -/
def failDrain (s : ProtoLog) (pending : List Rec) (rest : List Task) : ProtoLog :=
  giveBack { s with needsArchive := true, queue := rest } pending

/-- A flush, or a drain, prepares its append and goes on to write it. -/
def prepareWith (s : ProtoLog) (records : List Rec) (now : ℕ) (writing : Pending → ProtoLog → ProtoLog)
    (failed : ProtoLog → ProtoLog) : ProtoLog :=
  let p := s.file.prepare c s.disk records now
  let s := { s with file := p.1, disk := p.2.1 }
  p.2.2.elim (failed s) fun run => writing run s

/-- The file opened, where nothing is known of it. -/
def openFile (s : ProtoLog) : ProtoLog := { s with file := s.file.current c s.disk }

def prepare (s : ProtoLog) (opens : Bool) (now : ℕ) : Task → List Task → Option ProtoLog
  | .flush id batch .waiting, rest => some <|
    if s.file.opened ∨ opens then
      (s.openFile c).prepareWith c batch now
        (fun run s => { s with queue := .flush id batch (.writing run) :: rest }) fun s => s.fail c id batch rest
    else s.fail c id batch rest
  | .flush id batch (.draining pending), rest => some <|
    s.prepareWith c pending now
      (fun run s => { s with queue := .flush id batch (.drainWriting pending run) :: rest }) fun s => s.failDrain pending rest
  | _, _ => none

/-- `Archive`, from the flush that holds the lock. -/
def beginRound (s : ProtoLog) (rest : List Task) : ProtoLog := { s with queue := rest ++ [.round none] }

/-- The write has put all of the append on disk. -/
def seals (run : Pending) : Outcome → Bool
  | .written => true
  | .untouched => false
  | .left bytes => bytesOf c run.frames ≤ bytes

/-- What a write leaves on disk. -/
def wroteTo (s : ProtoLog) (run : Pending) (outcome : Outcome) : ProtoLog :=
  { s with
    disk := run.write c s.disk outcome
    sealed := s.sealed ++ if seals c run outcome then entriesOf (run.runs.flatMap Run.records) else [] }

def wrote (s : ProtoLog) (outcome : Outcome) : Task → List Task → Option ProtoLog
  | .flush id batch (.writing run), rest =>
    let s := s.wroteTo c run outcome
    some <|
      if outcome = .written then
        { s with file := s.file.commit run, inFlight := s.inFlight.erase id, queue := .flush id batch .flushed :: rest }
      else s.fail c id batch rest
  | .flush _ _ (.drainWriting pending run), rest =>
    let s := s.wroteTo c run outcome
    some <|
      if outcome = .written then { s with file := s.file.commit run }.beginRound rest
      else s.failDrain pending rest
  | _, _ => none

/-- What was written while the flush was in flight goes to the file too, before the round reads it. -/
def drain (s : ProtoLog) (due : Bool) : Task → List Task → Option ProtoLog
  | .flush id batch .flushed, rest => some <|
    if s.needsArchive ∧ due then
      let t := { s with toSave := [], strings := [], args := [], needsArchive := false }
      if s.toSave = [] then t.beginRound rest
      else { t with queue := .flush id batch (.draining s.toSave) :: rest }
    else { s with queue := rest }
  | _, _ => none

/-- Each record of the file's runs, with where it ends. -/
def runsRead (file : DailyFile) : List (ℕ × Rec) := file.runs.flatMap fun run => ends c run.offset run.records

/-- The entries of one day. -/
def dayOf (rs : List (ℕ × Rec)) (day : ℕ) : List (ℕ × Entry) :=
  (rs.filterMap fun r => r.2.asEntry.map fun e => (r.1, e)).filter fun r => c.day r.2.time = day

/-- The days of the entries, in order. -/
def daysOf (rs : List (ℕ × Rec)) : List ℕ :=
  (stableSort id (rs.filterMap fun r => r.2.asEntry.map fun e => c.day e.time)).dedup

def snapshot (file : DailyFile) : Snapshot :=
  let rs := runsRead c file
  { identity := file.identity
    through := file.size
    strings := stringsOf (rs.map Prod.snd)
    days := (daysOf c rs).map fun day => (day, dayOf c rs day) }

/-- A round that failed gives up the lock. -/
def failRound (s : ProtoLog) (rest : List Task) : ProtoLog := { s with queue := rest, failed := s.failed + 1 }

def take (s : ProtoLog) (opens reads : Bool) : Task → List Task → Option ProtoLog
  | .round none, rest => some <|
    if s.file.opened ∨ opens then
      let t := s.openFile c
      if t.file.runs = [] ∨ reads ∧ s.disk.isSome then
        { t with queue := .round (some (snapshot c t.file)) :: rest }
      else t.failRound rest
    else s.failRound rest
  | _, _ => none

/-- The entries the day's archive has not taken from this daily file. -/
def uncovered (merged : Option (ℕ × ℕ)) (identity : ℕ) (entries : List (ℕ × Entry)) : List (ℕ × Entry) :=
  entries.filter fun e => ¬ ∃ m ∈ merged, m.1 = identity ∧ e.1 ≤ m.2

/-- The archive rewritten with the day's new entries and the strings they name. -/
def merge (snapshot : Snapshot) (late : List Entry) (archive : Archive) : Archive where
  merged := some (snapshot.identity, snapshot.through)
  strings := archive.strings.dedup ++
    ((late.flatMap Entry.ids).filter fun id => id ∈ snapshot.strings ∧ id ∉ archive.strings).dedup
  entries := mergeBy Entry.time archive.entries (stableSort Entry.time late)

/-- The day's archive, where there is one. -/
def archive (s : ProtoLog) (day : ℕ) : Archive := (s.archives.find? day).getD {}

/-- The day's entries its archive is still to take. -/
def late (s : ProtoLog) (snapshot : Snapshot) (day : ℕ × List (ℕ × Entry)) : List Entry :=
  (uncovered (s.archive day.1).merged snapshot.identity day.2).map Prod.snd

/-- The round goes on to its next day. -/
def nextDay (s : ProtoLog) (snapshot : Snapshot) (rest : List Task) : ProtoLog :=
  { s with queue := .round (some { snapshot with days := snapshot.days.tail }) :: rest }

def rewriteDay (s : ProtoLog) (snapshot : Snapshot) (day : ℕ × List (ℕ × Entry)) (rest : List Task) : Rewrite → ProtoLog
  | .replaced =>
    { s.nextDay snapshot rest with
      archives := s.archives.insert day.1 (merge snapshot (s.late snapshot day) (s.archive day.1)) }
  | .failed => s.failRound rest
  | .unreadable => { s.nextDay snapshot rest with dropped := s.dropped ++ s.late snapshot day }

def rewrite (s : ProtoLog) (end_ : Rewrite) : Task → List Task → Option ProtoLog
  | .round (some snapshot), rest => snapshot.days.head?.map fun day =>
    if s.late snapshot day = [] then s.nextDay snapshot rest else s.rewriteDay snapshot day rest end_
  | _, _ => none

def remove (s : ProtoLog) (done : Bool) : Task → List Task → Option ProtoLog
  | .round (some snapshot), rest =>
    if snapshot.days = [] then
      some (if done then { s with disk := none, file := s.file.removed, queue := rest, ended := s.ended + 1 }
        else s.failRound rest)
    else none
  | _, _ => none

/-- `Entries`: the batches in flight, in order, and the buffer. -/
def entries (s : ProtoLog) : List Rec := s.inFlight.values.flatten ++ s.toSave

/-- The file's records are read where it is there. -/
def load (s : ProtoLog) (opens reads : Bool) : Task → List Task → Option ProtoLog
  | .load, rest => some <|
    if s.file.opened ∨ opens then
      let t := { s.openFile c with queue := rest }
      if s.disk = none then { t with loaded := some (s.entries ++ t.file.salvaged) }
      else if t.file.runs = [] ∨ reads then
        { t with loaded := some (s.entries ++ t.file.salvaged ++ t.file.runs.flatMap Run.records) }
      else { t with loaded := none }
    else { s with queue := rest, loaded := none }
  | _, _ => none

/-- The process as it starts: a daily file that is there may hold anything. -/
def start (s : ProtoLog) (today : ℕ) : ProtoLog where
  dailyFileStart := if s.disk.isSome then TimePoint.min else TimePoint.max
  today := today
  disk := s.disk
  archives := s.archives
  written := s.written
  dropped := s.dropped
  returned := s.returned
  sealed := s.sealed

/-- An append is between its preparation and the end of its write. -/
def appending : Task → Bool
  | .flush _ _ (.writing _) => true
  | .flush _ _ (.drainWriting _ _) => true
  | _ => false

/-- The holder of the lock takes a step. -/
def held (s : ProtoLog) (f : Task → List Task → Option ProtoLog) : Option ProtoLog := s.queue.head?.bind fun task => f task s.queue.tail

def step (s : ProtoLog) : Event → Option ProtoLog
  | .write e => if e.seq = s.written.length then some (s.write c e) else none
  | .save => if s.toSave = [] then none else some s.save
  | .prepare opens now => s.held (s.prepare c opens now)
  | .wrote outcome => s.held (s.wrote c outcome)
  | .drain due => s.held (s.drain due)
  | .take opens reads => s.held (s.take c opens reads)
  | .rewrite end_ => s.held (s.rewrite end_)
  | .remove done => s.held (s.remove done)
  | .parked =>
    if s.ended = 0 then none
    else some { s with
      ended := s.ended - 1
      dailyFileStart := if s.toSave = [] ∧ s.inFlight.entries = [] then TimePoint.max else s.dailyFileStart }
  | .backedOff =>
    if s.failed = 0 then none
    else some { s with failed := s.failed - 1, dailyFileStart := TimePoint.min, needsArchive := true }
  | .ask => some { s with queue := s.queue ++ [.load] }
  | .load opens reads => s.held (s.load c opens reads)
  | .purge => if s.queue.any appending then none else some { s with disk := none }
  | .crash today => some (s.start today)

variable {c} {s t : ProtoLog}

theorem held_eq_some {f : Task → List Task → Option ProtoLog} :
    s.held f = some t ↔ ∃ task rest, s.queue = task :: rest ∧ f task rest = some t := by
  unfold held
  cases s.queue with
  | nil | cons => simp

theorem dropTo_suffix (target : ℕ) (rs : List Rec) : dropTo c target rs <:+ rs := by
  induction rs with
  | nil => exact List.suffix_rfl
  | cons r rs ih =>
    rw [dropTo]
    split_ifs
    · exact ih.trans (List.suffix_cons r rs)
    · exact List.suffix_rfl

end ProtoLog

end OpcHub.Log
