import OpcHub.Historian.Collect
import OpcHub.Historian.Files

/-! The group as a system. The collector works under the buffer's lock; a flush
takes the buffer, writes its batch a day at a time and returns what it couldn't
write, each part under the lock or locks the code holds for it; reads and
subscriptions take both. An action is what happens under one hold of a lock. The
phases between `take` and `taking`, and between a day's commit and the flags that
mark it written, are those in which the flush holds the files lock, so no read
comes between. Any day may fail or be deferred. -/

namespace OpcHub.Historian

open Lib

/-- A call on the group that changes it under the buffer's lock alone. -/
inductive Op (V Id : Type*) where
  | enqueue (index : NodeIndex) (value : Value V) (now : TimePoint)
  | expire (index : NodeIndex) (serial : ℕ) (now : TimePoint)
  | beat (serial : ℕ) (now : TimePoint)
  | disconnected (at_ now : TimePoint)
  | connected
  | setPublishingInterval (interval : Duration)
  | setThresholds (index : NodeIndex) (thresholds : Thresholds) (now : TimePoint)
  | add (node : Id) (config : Thresholds) (index : NodeIndex) (by_ : Option Writer) (now : TimePoint)
  | remove (index : NodeIndex) (by_ : Option Writer) (now : TimePoint)
  | close (by_ : Option Writer) (now : TimePoint)
  | stopping (now : TimePoint)

/-- What a subscriber is passed. -/
inductive Streamed (V : Type*) where
  | value (v : DataValue V)
  | modification (m : Modification V)
  deriving DecidableEq

/-- Records on their way to the subscribers registered when they were stored. -/
structure Post (V : Type*) where
  recipients : List Registration
  records : List (Streamed V)

/-- A running flush, between two days of its batch. -/
structure Flush where
  taken : TimePoint
  /-- The days still due for their rewrite. -/
  due : List Day
  /-- What the group issued next when the buffer was taken; 0 for one that doesn't. -/
  nextIndex : NodeIndex
  /-- How far into the batch it is. -/
  done : ℕ := 0
  /-- The places in the batch of what goes back. -/
  held : List ℕ := []
  progressed : Bool := false
  /-- A day with records failed. -/
  failing : Bool := false
  /-- The archives whose records are held for their next rewrite. -/
  deferring : List Day := []

inductive Phase (V Id : Type*) where
  | idle
  /-- The buffer is taken and the batch not yet shared with reads. -/
  | took (fl : Flush) (closed stopping : Bool) (batch : List (Buffered (Record V Id)))
  | writing (fl : Flush)
  /-- A day's write, out. -/
  | prepared (fl : Flush) (stop : ℕ) (due : List Day) (write : DayWrite V Id)
  /-- A day's write is in its file, and its records not yet marked so. -/
  | committed (fl : Flush) (stop : ℕ) (due : List Day)
  /-- After the batch: the corrections and the edits. -/
  | jobs (fl : Flush)
  | job (fl : Flush) (write : DayWrite V Id)

/-- How far a group's history is: the values stored, the heartbeats released, the modifications made. -/
structure Marks where
  stored : ℕ
  released : ℕ
  modified : ℕ
  deriving DecidableEq, Repr

/-- A subscription, with what its snapshot held and the group's history as it began. -/
structure Subscribed (V Id : Type*) where
  registration : Registration
  buffer : List (DataValue V)
  files : GroupFiles V Id
  ledger : Ledger V
  /-- The markers of the gaps open then. -/
  gaps : List (DataValue V)
  modified : List (Modification V)
  /-- How far the history was when it ended. -/
  ended : Option Marks := none

structure System (V Id : Type*) where
  group : Group V Id := {}
  files : GroupFiles V Id := {}
  phase : Phase V Id := .idle
  posted : List (Post V) := []
  /-- What each subscriber's `OnRecords` was passed, by its registration. -/
  delivered : List (ℕ × Streamed V) := []
  /-- The modifications committed, in order. -/
  modified : List (Modification V) := []
  subscriptions : List (Subscribed V Id) := []

inductive Action (V Id : Type*) where
  | perform (op : Op V Id)
  /-- Another group's records and the counts they share. -/
  | others (sequence buffered : ℕ)
  | trim (before need : ℕ)
  | deliver (i : ℕ)
  | take (now : TimePoint)
  | taking
  /-- A failing day that waits, or an archive's records deferred. -/
  | hold (deferred : Bool)
  | prepare
  | fail
  | commit
  | mark
  | finish
  /-- A start value's correction, or a file an edit needs. -/
  | correct (day : Day) (records : List (NodeAdded V Id)) (create : Bool)
  | edit (day : Day) (records : List (Modification V))
  | endFlush
  | subscribe (id : ℕ) (nodes : List (NodeIndex × NodeIndex))
  | unsubscribe (id : ℕ)

variable {V Id : Type*} (env : Env V Id)

def Group.perform [DecidableEq Id] (g : Group V Id) : Op V Id → Group V Id × Effects V
  | .enqueue index value now => g.enqueue env index value now
  | .expire index serial now => g.expire env index serial now
  | .beat serial now => g.beat env serial now
  | .disconnected at_ now => g.disconnected env at_ now
  | .connected => (g.connected, {})
  | .setPublishingInterval interval => (g.setPublishingInterval interval, {})
  | .setThresholds index thresholds now => g.setThresholds env index thresholds now
  | .add node config index by_ now => g.add env node config index by_ now
  | .remove index by_ now => g.remove env index by_ now
  | .close by_ now => g.close env by_ now
  | .stopping now => g.stopping env now

/-- Each member's index and node, in index order. -/
def Group.members (g : Group V Id) : List (NodeIndex × Id) := g.nodes.entries.map fun e => (e.1, e.2.id)

/-- What the files ask of the group. -/
def Group.membership (g : Group V Id) (nextIndex : NodeIndex)
    (last : NodeIndex → Ticks → Option (DataValue V)) : Membership V Id where
  current := g.members
  find index := match g.nodes.find? index with
    | some node => some (node.id, false)
    | none => (g.gone.find? index).map fun node => (node, true)
  nextIndex
  last

/-- A buffered record as its file holds it. Each has a form: what no file holds of a value is left out of
its record, not the record. -/
def Record.toFile : Record V Id → HistoryRecord V Id
  | .change (.added index node ts by_) => .added { index, node, ts := ticks ts, by_, dataType := env.dataType node }
  | .change (.removed index ts by_) => .removed index (ticks ts) by_
  | .value v => .value v.filed

def Buffered.time (b : Buffered (Record V Id)) : Ticks := b.item.primaryTime

def Buffered.day (b : Buffered (Record V Id)) : Day := env.calendar.dayOf b.time

/-- A membership change also goes, at the start of its day, to each later day's file there is. -/
def copies (files : GroupFiles V Id) (b : Buffered (Record V Id)) : List (Buffered (Record V Id)) :=
  match b.item with
  | .value _ => []
  | .change c =>
    if b.copied then []
    else (files.laterDays (b.day env)).map fun later =>
      { b with item := .change (c.setTime (timePoint (env.calendar.startOf later))), copied := true }

def markCopied (b : Buffered (Record V Id)) : Buffered (Record V Id) :=
  match b.item with
  | .value _ => b
  | .change _ => { b with copied := true }

/-- The batch as it is written: the copies with it, by time; of two at one time the first to arrive
stays first. -/
def arrange (files : GroupFiles V Id) (batch : List (Buffered (Record V Id))) :
    List (Buffered (Record V Id)) :=
  stableSort Buffered.time (batch.map markCopied ++ batch.flatMap (copies env files))

/-- The next day to write, where the batch's records of it end, and the days due after it. -/
def Flush.next (fl : Flush) (batch : List (Buffered (Record V Id))) : Option (Day × ℕ × List Day) :=
  let stop (day : Day) := fl.done + 1 +
    ((batch.drop (fl.done + 1)).takeWhile fun b => decide (b.time < env.calendar.startOf (day + 1))).length
  match batch[fl.done]?, fl.due with
  | none, [] => none
  | none, day :: due => some (day, fl.done, due)
  | some b, [] => some (b.day env, stop (b.day env), [])
  | some b, day :: due =>
    if b.day env ≤ day then some (b.day env, stop (b.day env), if b.day env = day then due else day :: due)
    else some (day, fl.done, due)

/-- Past a day, its records written or dropped. -/
def Flush.pass (fl : Flush) (stop : ℕ) (due : List Day) : Flush := { fl with done := stop, due }

/-- Past a day, its records to go back: it failed, or an archive's are deferred. -/
def Flush.holding (fl : Flush) (stop : ℕ) (due : List Day) (deferred : Option Day) : Flush :=
  { fl.pass stop due with
    held := fl.held ++ List.range' fl.done (stop - fl.done)
    failing := fl.failing || (deferred.isNone && decide (fl.done < stop))
    deferring := fl.deferring ++ deferred.toList }

/-- The values from `lo` up to `hi` whose warning is given. -/
def Group.warned (g : Group V Id) (lo hi : ℕ) : Group V Id :=
  { g with taken := g.taken.map fun batch => batch.mapIdx fun i b =>
      if lo ≤ i ∧ i < hi then
        match b.item with
        | .value v => { b with item := .value v.filed }
        | .change _ => b
      else b }

/-- A record under the index a subscriber named its node by; none for a node it didn't. -/
def Streamed.named (r : Registration) : Streamed V → Option (Streamed V)
  | .value v => (r.nodes.lookup v.index).map fun named => .value { v with index := named }
  | .modification m => (r.nodes.lookup m.index).map fun named => .modification { m with index := named }

/-- What `OnRecords` is passed of a post: each subscriber's, under the index it named. -/
def Post.deliveries (p : Post V) : List (ℕ × Streamed V) :=
  p.recipients.flatMap fun r => (p.records.filterMap (Streamed.named r)).map fun x => (r.id, x)

def post (recipients : List Registration) (records : List (Streamed V)) : List (Post V) :=
  if records.isEmpty then [] else [⟨recipients, records⟩]

/-- What a snapshot shows a subscriber: a heartbeat no flush has released is left out. -/
def subscribable (b : Buffered (DataValue V)) : Bool := b.item.heartbeat.isNone || b.released

/-- Whether a read may take both locks. -/
def Phase.readable : Phase V Id → Bool
  | .took .. | .committed .. => false
  | _ => true

namespace System

variable (walkBack : GroupFiles V Id → NodeIndex → Ticks → Option (DataValue V))

def members (s : System V Id) (nextIndex : NodeIndex) : Membership V Id :=
  s.group.membership nextIndex (walkBack s.files)

/-- The buffer, taken under both locks. -/
def take (s : System V Id) (now : TimePoint) : System V Id :=
  let (batch, beats, group) := s.group.take env now
  let nextIndex := if s.group.issues then s.group.nextIndex else 0
  { s with
    group
    phase := .took { taken := now, due := [], nextIndex } s.group.closed s.group.stopped batch
    posted := s.posted ++ post s.group.subscribers (beats.map .value) }

/-- The batch, with its copies and in its order, shared with reads. -/
def taking (s : System V Id) (fl : Flush) (closed stopping : Bool) (batch : List (Buffered (Record V Id))) :
    System V Id :=
  let files := s.files.setPresent (env.calendar.dayOf (ticks fl.taken))
  let files := if closed then files.retire else files
  let due := if stopping then [] else files.due env fl.taken
  { s with
    group := s.group.taking (arrange env files batch)
    files
    phase := .writing { fl with due } }

/-- A day's records, to be written. -/
def prepare (s : System V Id) (fl : Flush) : Option (System V Id) :=
  (fl.next env (s.group.taken.getD [])).map fun (day, stop, due) =>
    let group := s.group.warned fl.done stop
    let records := (group.part fl.done stop).map fun b => b.item.toFile env
    let (write, files) := s.files.prepare env day records (s.members walkBack fl.nextIndex) fl.taken
    { s with group, files, phase := .prepared fl stop due write }

/-- A day's records, held for a later flush. -/
def hold (s : System V Id) (fl : Flush) (deferred : Bool) : Option (System V Id) :=
  (fl.next env (s.group.taken.getD [])).map fun (day, stop, due) =>
    { s with phase := .writing (fl.holding stop due (if deferred then some day else none)) }

/-- A day's write is done; one its file refuses drops its records. -/
def commit (s : System V Id) (fl : Flush) (stop : ℕ) (due : List Day) : DayWrite V Id → System V Id
  | .nothing => { s with
      group := (s.group.discard (s.group.part fl.done stop)).wrote fl.done stop
      phase := .writing (fl.pass stop due) }
  | write => { s with
      files := s.files.commit env write, phase := .committed { fl with progressed := true } stop due }

/-- The end of the batch: what it held goes back to the buffer. -/
def finish (s : System V Id) (fl : Flush) : System V Id :=
  let group := { s.group with
    failing := fl.failing && !fl.progressed
    deferred := !fl.deferring.isEmpty && !fl.failing && !fl.progressed
    deferredDays := fl.deferring }
  if fl.held.isEmpty then { s with group := group.pruneGone, phase := .jobs fl }
  else { s with group := (group.returnHeld env fl.held).2, phase := .jobs fl }

/-- A correction names an index as the group or the file it goes to knows it. -/
def Corrects (s : System V Id) (day : Day) (a : NodeAdded V Id) : Prop :=
  a.by_ = none ∧ a.ts = env.calendar.startOf day ∧
    ((∃ left, (s.members walkBack 0).find a.index = some (a.node, left)) ∨
      ∃ file listed, s.files.files.find? day = some file ∧
        (file.preamble a.ts).find? a.index = some listed ∧ listed.node = a.node)

instance [DecidableEq Id] (s : System V Id) (day : Day) (a : NodeAdded V Id) :
    Decidable (s.Corrects env walkBack day a) := by
  have h₁ : Decidable (∃ left, (s.members walkBack 0).find a.index = some (a.node, left)) :=
    decidable_of_iff (((s.members walkBack 0).find a.index).map Prod.fst = some a.node) (by
      simp [Option.map_eq_some_iff])
  have h₂ : Decidable (∃ file listed, s.files.files.find? day = some file ∧
      (file.preamble a.ts).find? a.index = some listed ∧ listed.node = a.node) :=
    decidable_of_iff (((s.files.files.find? day).bind fun file =>
        (file.preamble a.ts).find? a.index).map Listed.node = some a.node) (by
      simp [Option.map_eq_some_iff, Option.bind_eq_some_iff])
  exact inferInstanceAs (Decidable (_ ∧ _ ∧ (_ ∨ _)))

def marks (s : System V Id) : Marks :=
  ⟨s.group.ledger.stored.length, s.group.ledger.released.length, s.modified.length⟩

/-- A subscription: the snapshot and the registration, under both locks. -/
def subscribe (s : System V Id) (id : ℕ) (nodes : List (NodeIndex × NodeIndex)) : System V Id :=
  let registration : Registration := ⟨id, nodes⟩
  let snapshot := s.group.snapshot env fun index => (nodes.lookup index).isSome
  { s with
    group := { s.group with subscribers := s.group.subscribers ++ [registration] }
    subscriptions := s.subscriptions ++
      [{ registration
         buffer := ((Group.valuesOf snapshot).filter subscribable).map fun b => b.item.filed
         files := s.files
         ledger := s.group.ledger
         gaps := s.group.gapMarkers env
         modified := s.modified }] }

/-- The subscriptions whose registration is gone have ended. -/
def endGone (s : System V Id) : System V Id :=
  { s with subscriptions := s.subscriptions.map fun sub =>
      if sub.ended.isNone && s.group.subscribers.all (fun r => r.id != sub.registration.id) then
        { sub with ended := some s.marks }
      else sub }

/-- One action; none for one that cannot happen in the phase. -/
def step [DecidableEq Id] (s : System V Id) : Action V Id → Option (System V Id)
  | .perform op =>
    let (group, effects) := s.group.perform env op
    some { s with group, posted := s.posted ++ post effects.recipients (effects.stored.map .value) }.endGone
  | .others sequence buffered =>
    if s.group.store.sequence ≤ sequence then
      some { s with group := { s.group with store := ⟨sequence, buffered⟩ } }
    else none
  | .trim before need => some { s with group := (s.group.drop env before need).2 }
  | .deliver i => s.posted[i]?.map fun p =>
    { s with posted := s.posted.eraseIdx i, delivered := s.delivered ++ p.deliveries }
  | .take now => match s.phase with
    | .idle => some (s.take env now)
    | _ => none
  | .taking => match s.phase with
    | .took fl closed stopping batch => some (s.taking env fl closed stopping batch)
    | _ => none
  | .hold deferred => match s.phase with
    | .writing fl => s.hold env fl deferred
    | _ => none
  | .prepare => match s.phase with
    | .writing fl => s.prepare env walkBack fl
    | _ => none
  | .fail => match s.phase with
    | .prepared fl stop due _ => some { s with phase := .writing (fl.holding stop due none) }
    | .job fl _ => some { s with phase := .jobs fl }
    | _ => none
  | .commit => match s.phase with
    | .prepared fl stop due write => some (s.commit env fl stop due write)
    | .job fl write => some { s with files := s.files.commit env write, phase := .jobs fl }
    | _ => none
  | .mark => match s.phase with
    | .committed fl stop due => some { s with
        group := s.group.wrote fl.done stop
        phase := .writing (fl.pass stop due) }
    | _ => none
  | .finish => match s.phase with
    | .writing fl => if (fl.next env (s.group.taken.getD [])).isNone then some (s.finish env fl) else none
    | _ => none
  | .correct day records create => match s.phase with
    | .jobs fl =>
      if ∀ a ∈ records, s.Corrects env walkBack day a then
        let (write, files) := s.files.prepare env day (records.map .added)
          (s.members walkBack fl.nextIndex) fl.taken create
        some { s with files, phase := .job fl write }
      else none
    | _ => none
  | .edit day records => match s.phase with
    | .jobs _ => some { s with
        files := s.files.commitMods day records
        modified := s.modified ++ records
        posted := s.posted ++ post s.group.subscribers (records.map .modification) }
    | _ => none
  | .endFlush => match s.phase with
    | .jobs _ => some { s with group := s.group.endFlush, phase := .idle }
    | _ => none
  | .subscribe id nodes =>
    if s.phase.readable && !s.group.closed && !s.group.stopped &&
        s.subscriptions.all (fun sub => sub.registration.id != id) then
      some (s.subscribe env id nodes)
    else none
  | .unsubscribe id => some { s with group :=
      { s.group with subscribers := s.group.subscribers.filter fun r => r.id != id } }.endGone

/-- What an action does, by the phase it is taken in. -/
inductive Steps [DecidableEq Id] (s : System V Id) : Action V Id → System V Id → Prop where
  | perform (op : Op V Id) : Steps s (.perform op) { s with
      group := (s.group.perform env op).1
      posted := s.posted ++ post (s.group.perform env op).2.recipients
        ((s.group.perform env op).2.stored.map .value) }.endGone
  | others {sequence buffered : ℕ} (h : s.group.store.sequence ≤ sequence) : Steps s (.others sequence buffered)
      { s with group := { s.group with store := ⟨sequence, buffered⟩ } }
  | trim (before need : ℕ) : Steps s (.trim before need) { s with group := (s.group.drop env before need).2 }
  | deliver {i : ℕ} {p} (hp : s.posted[i]? = some p) : Steps s (.deliver i)
      { s with posted := s.posted.eraseIdx i, delivered := s.delivered ++ p.deliveries }
  | take (now : TimePoint) (hphase : s.phase = .idle) : Steps s (.take now) (s.take env now)
  | taking {fl closed stopping batch} (hphase : s.phase = .took fl closed stopping batch) :
      Steps s .taking (s.taking env fl closed stopping batch)
  | hold {fl deferred s'} (hphase : s.phase = .writing fl) (hs : s.hold env fl deferred = some s') :
      Steps s (.hold deferred) s'
  | prepare {fl s'} (hphase : s.phase = .writing fl) (hs : s.prepare env walkBack fl = some s') : Steps s .prepare s'
  | failDay {fl stop due write} (hphase : s.phase = .prepared fl stop due write) :
      Steps s .fail { s with phase := .writing (fl.holding stop due none) }
  | failJob {fl write} (hphase : s.phase = .job fl write) : Steps s .fail { s with phase := .jobs fl }
  | commitDay {fl stop due write} (hphase : s.phase = .prepared fl stop due write) :
      Steps s .commit (s.commit env fl stop due write)
  | commitJob {fl write} (hphase : s.phase = .job fl write) :
      Steps s .commit { s with files := s.files.commit env write, phase := .jobs fl }
  | mark {fl stop due} (hphase : s.phase = .committed fl stop due) : Steps s .mark
      { s with group := s.group.wrote fl.done stop, phase := .writing (fl.pass stop due) }
  | finish {fl} (hphase : s.phase = .writing fl) (hnext : fl.next env (s.group.taken.getD []) = none) :
      Steps s .finish (s.finish env fl)
  | correct {fl day records create} (hphase : s.phase = .jobs fl)
      (h : ∀ a ∈ records, s.Corrects env walkBack day a) : Steps s (.correct day records create) { s with
        files := (s.files.prepare env day (records.map .added) (s.members walkBack fl.nextIndex) fl.taken create).2
        phase := .job fl
          (s.files.prepare env day (records.map .added) (s.members walkBack fl.nextIndex) fl.taken create).1 }
  | edit {fl day records} (hphase : s.phase = .jobs fl) : Steps s (.edit day records) { s with
      files := s.files.commitMods day records
      modified := s.modified ++ records
      posted := s.posted ++ post s.group.subscribers (records.map .modification) }
  | endFlush {fl} (hphase : s.phase = .jobs fl) : Steps s .endFlush { s with group := s.group.endFlush, phase := .idle }
  | subscribe {id nodes} (hread : s.phase.readable = true)
      (hnew : ∀ sub ∈ s.subscriptions, sub.registration.id ≠ id) :
      Steps s (.subscribe id nodes) (s.subscribe env id nodes)
  | unsubscribe (id : ℕ) : Steps s (.unsubscribe id) { s with group :=
      { s.group with subscribers := s.group.subscribers.filter fun r => r.id != id } }.endGone

variable {env walkBack} in
theorem step_steps [DecidableEq Id] {s s' : System V Id} {a : Action V Id} (h : s.step env walkBack a = some s') :
    s.Steps env walkBack a s' := by
  cases a with
  | perform op => exact Option.some.inj h ▸ .perform op
  | others sequence buffered =>
    simp only [step, Option.ite_none_right_eq_some, Option.some.injEq] at h
    exact h.2 ▸ .others h.1
  | trim before need => exact Option.some.inj h ▸ .trim before need
  | deliver i =>
    obtain ⟨p, hp, rfl⟩ := Option.map_eq_some_iff.mp h
    exact .deliver hp
  | subscribe id nodes =>
    simp only [step, Option.ite_none_right_eq_some, Option.some.injEq, Bool.and_eq_true, List.all_eq_true,
      bne_iff_ne] at h
    exact h.2 ▸ .subscribe h.1.1.1.1 h.1.2
  | unsubscribe id => exact Option.some.inj h ▸ .unsubscribe id
  | finish =>
    simp only [step] at h
    split at h
    · rename_i hphase
      split_ifs at h with hnext
      exact Option.some.inj h ▸ .finish hphase (Option.isNone_iff_eq_none.mp hnext)
    · cases h
  | correct day records create =>
    simp only [step] at h
    split at h
    · rename_i hphase
      split_ifs at h with hrecords
      exact Option.some.inj h ▸ .correct hphase hrecords
    · cases h
  | hold | prepare =>
    simp only [step] at h
    split at h
    · constructor <;> assumption
    · cases h
  | _ =>
    simp only [step] at h
    split at h <;> cases h
    all_goals
      constructor
      assumption

/-- A run of actions. -/
def run [DecidableEq Id] (s : System V Id) : List (Action V Id) → Option (System V Id)
  | [] => some s
  | a :: as => (s.step env walkBack a).bind fun s => s.run as

end System

end OpcHub.Historian
