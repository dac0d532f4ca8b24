import OpcHub.Lib.LazyMerge
import OpcHub.Historian.Group

/-! A group's day files. A live file takes each flush's records as a run on its
end; once its day is over it is rewritten as an archive, the runs merged with
whatever the flush brings. A file opens with its preamble, the members at the
day's start, each with its last record before the day. A write is prepared,
written, and only then committed. -/

namespace OpcHub.Historian

open Lib

/-- Part 11's `HistoryUpdateType`. -/
inductive UpdateType where
  | insert
  | replace
  | update
  | delete
  deriving DecidableEq, Repr

/-- A value an edit changed, in the modifications file of its target's day. -/
structure Modification (V : Type*) where
  index : NodeIndex
  target : Ticks
  updateType : UpdateType
  /-- None for an insert. -/
  original : Option (DataValue V)
  /-- None for a delete. -/
  newValue : Option (DataValue V)
  /-- When the edit was made. -/
  ts : Ticks
  by_ : Option Writer
  deriving DecidableEq, Repr

/-- A node joining the group, or a member at a file's start, which alone has a start value. -/
structure NodeAdded (V Id : Type*) where
  index : NodeIndex
  node : Id
  ts : Ticks
  by_ : Option Writer := none
  /-- The built-in type it is declared with; 0 for none. -/
  dataType : ℕ := 0
  start : Option (DataValue V) := none
  deriving DecidableEq, Repr

/-- What a file holds of a time; the index an `Issued` record carries is the file's own. -/
inductive HistoryRecord (V Id : Type*) where
  | added (a : NodeAdded V Id)
  | removed (index : NodeIndex) (ts : Ticks) (by_ : Option Writer)
  | value (v : DataValue V)
  | modification (m : Modification V)
  deriving DecidableEq, Repr

/-- A member a file lists at its day's start. -/
structure Listed (V Id : Type*) where
  node : Id
  start : Option (DataValue V)
  deriving DecidableEq, Repr

/-- A file's map of its indexes. -/
abbrev Preamble (V Id : Type*) := OrdMap NodeIndex (Listed V Id)

structure DayFile (V Id : Type*) where
  /-- 0 for a live file. -/
  generation : ℕ := 0
  /-- The index an issuing group gave next when the file was made. -/
  issued : Option NodeIndex := none
  /-- Each append's records, in its order; an archive is one run. -/
  runs : List (List (HistoryRecord V Id)) := []
  /-- Damaged, or another program's: the historian leaves it alone. -/
  refused : Bool := false
  deriving DecidableEq

/-- What a file asks of its group as it is written. -/
structure Membership (V Id : Type*) where
  /-- Every member, in index order. -/
  current : List (NodeIndex × Id)
  /-- A member's node, or that of one that left, with whether it did. -/
  find : NodeIndex → Option (Id × Bool)
  /-- What an issuing group gives next; else 0. -/
  nextIndex : NodeIndex
  /-- The index's last record at or before a time, as a read serves it. -/
  last : NodeIndex → Ticks → Option (DataValue V)

/-- A node's newest stored value, and the day whose preamble gave it while the start reads the files. -/
structure Last (V : Type*) where
  value : DataValue V
  preamble : Option Day := none
  deriving DecidableEq, Repr

structure GroupFiles (V Id : Type*) where
  files : OrdMap Day (DayFile V Id) := ∅
  /-- Each day's modifications, in the order the edits were made. -/
  mods : OrdMap Day (List (Modification V)) := ∅
  /-- The latest of the clock's day and the last flush's. -/
  present : Day := 0
  last : OrdMap NodeIndex (Last V) := ∅
  /-- Each record written since the corrections last looked. -/
  touched : List (NodeIndex × Ticks) := []
  /-- The days whose live file is due at once. -/
  recover : List Day := []
  retired : Bool := false
  /-- The days known to hold a live file. -/
  unarchived : List Day := []

/-- One append to a day's file. -/
structure Pending (V Id : Type*) where
  day : Day
  /-- What a file that isn't there opens with: the next index to issue, and its preamble. -/
  opening : Option (Option NodeIndex × List (HistoryRecord V Id))
  run : List (HistoryRecord V Id)
  /-- Each node's newest in the run. -/
  stored : List (DataValue V)

/-- A day's file written whole as its archive. -/
structure Rewrite (V Id : Type*) where
  day : Day
  generation : ℕ
  issued : Option NodeIndex
  /-- The file's own, each with the time its merge opens it at: an archive's is read from its start. -/
  runs : List (WithBot Ticks × List (HistoryRecord V Id))
  late : List (HistoryRecord V Id)
  stored : List (DataValue V)

/-- How a flush writes a day's records. -/
inductive DayWrite (V Id : Type*) where
  | nothing
  | pending (p : Pending V Id)
  | rewrite (r : Rewrite V Id)

variable {V Id : Type*}

namespace HistoryRecord

def primaryTime : HistoryRecord V Id → Ticks
  | added a => a.ts
  | removed _ ts _ => ts
  | value v => v.primaryTime
  | modification m => m.target

def value? : HistoryRecord V Id → Option (DataValue V)
  | value v => some v
  | _ => none

/-- Whether the record is a preamble record of the day that starts at `start`: a join with no writer
there is one too. -/
def preambled? (start : Ticks) : HistoryRecord V Id → Option (NodeAdded V Id)
  | added a => if a.by_.isNone && a.ts == start then some a else none
  | _ => none

/-- A member's map entry with a correction's start value, and its type if it has one. -/
def corrected (by_ : NodeAdded V Id) : HistoryRecord V Id → HistoryRecord V Id
  | added kept => added { kept with
      dataType := if by_.dataType = 0 then kept.dataType else by_.dataType
      start := by_.start }
  | r => r

end HistoryRecord

/-- The values among records. -/
def valuesIn (rs : List (HistoryRecord V Id)) : List (DataValue V) := rs.filterMap HistoryRecord.value?

/-- The map of a file's records: of a member's preamble records the last counts. -/
def preambleOf (start : Ticks) (rs : List (HistoryRecord V Id)) : Preamble V Id :=
  rs.foldl (fun m r => match r.preambled? start with
    | some a => m.insert a.index ⟨a.node, a.start⟩
    | none => m) ∅

namespace DayFile

def records (file : DayFile V Id) : List (HistoryRecord V Id) := file.runs.flatten

def preamble (start : Ticks) (file : DayFile V Id) : Preamble V Id := preambleOf start file.records

end DayFile

/-- A run's first time. -/
def firstTime (run : List (HistoryRecord V Id)) : Option Ticks := (run.map HistoryRecord.primaryTime).min?

/-- A day's records merged: the runs in time order, a tie to the earlier, then `late`. -/
def mergeRuns (runs : List (WithBot Ticks × List (HistoryRecord V Id))) (late : List (HistoryRecord V Id)) :
    List (HistoryRecord V Id) :=
  LazyMerge.mergeLate HistoryRecord.primaryTime runs late

/-- One record of an archive's head, folded into those before it: a member's later preamble record is
a corrected start value and goes into its first. One after the member's removal is a re-add. -/
def foldRecord : List (HistoryRecord V Id) × List (NodeIndex × ℕ) → HistoryRecord V Id →
    List (HistoryRecord V Id) × List (NodeIndex × ℕ)
  | (folded, members), r =>
    match r with
    | .removed index _ _ => (folded ++ [r], members.filter fun e => e.1 ≠ index)
    | .added a =>
      if a.by_.isSome then (folded ++ [r], members)
      else
        match members.lookup a.index with
        | none => (folded ++ [r], members ++ [(a.index, folded.length)])
        | some i => (folded.modify i (HistoryRecord.corrected a), members)
    | _ => (folded ++ [r], members)

def foldHead (head : List (HistoryRecord V Id)) : List (HistoryRecord V Id) :=
  (head.foldl foldRecord ([], [])).1

/-- The archive a rewrite makes: the records at the day's start are its head. -/
def Rewrite.archive (start : Ticks) (w : Rewrite V Id) : List (HistoryRecord V Id) :=
  let (head, body) := (mergeRuns w.runs w.late).span fun r => r.primaryTime == start
  foldHead head ++ body

/-- Each index's newest among the values, which are in time order. -/
def newestOf (values : List (DataValue V)) : List (DataValue V) :=
  (values.foldl (fun m v => m.insert v.index v) (∅ : OrdMap NodeIndex (DataValue V))).values

variable (env : Env V Id)

namespace GroupFiles

/-- A node's newest moves on with a stored value; a start value stands in for one the same day's
preamble gave. -/
def newer (f : GroupFiles V Id) (stored : DataValue V) (preamble : Option Day := none) : GroupFiles V Id :=
  match f.last.find? stored.index with
  | none => { f with last := f.last.insert stored.index ⟨stored, preamble⟩ }
  | some l =>
    if l.value.primaryTime ≤ stored.primaryTime || (preamble.isSome && l.preamble == preamble) then
      { f with last := f.last.insert stored.index ⟨stored, preamble⟩ }
    else f

/-- A member's preamble record for a file whose day starts at `start`: with its last record before the
day, the newest when that is before it and otherwise the walk back. -/
def added (f : GroupFiles V Id) (index : NodeIndex) (node : Id) (start : Ticks) (members : Membership V Id)
    (left : Bool := false) : NodeAdded V Id :=
  let value := match f.last.find? index with
    | none => none
    | some l => if l.value.primaryTime < start then some l.value else members.last index (start - 1)
  -- the map entry over the bound: no frame holds both
  { index, node, ts := start, dataType := if left then 0 else env.dataType node
    start := value.filter fun v => env.memberFits node v }

/-- Whether the day's midnight rewrite is due: it ended `delay` ago. -/
def past (day : Day) (now : TimePoint) : Bool :=
  decide (timePoint (env.calendar.startOf (day + 1)) + env.delay ≤ now)

/-- The map entries a run opens with for the values of indexes its file doesn't list: one that left
has its removal after it. -/
def unlisted (f : GroupFiles V Id) (start : Ticks) (members : Membership V Id) :
    List (DataValue V) → (listed : List NodeIndex) → List (HistoryRecord V Id)
  | [], _ => []
  | v :: vs, listed =>
    if listed.contains v.index then f.unlisted start members vs listed
    else
      (match members.find v.index with
        | none => []
        | some (node, left) =>
          .added (f.added env v.index node start members left) ::
            (if left then [.removed v.index start none] else [])) ++
        f.unlisted start members vs (v.index :: listed)

/-- Neither due nor live from here on, as far as is known. -/
def settle (f : GroupFiles V Id) (day : Day) : GroupFiles V Id :=
  { f with recover := f.recover.filter (· ≠ day), unarchived := f.unarchived.filter (· ≠ day) }

/-- How a flush at `now` writes records, in time order, to the day's file. -/
def prepare (f : GroupFiles V Id) (day : Day) (records : List (HistoryRecord V Id))
    (members : Membership V Id) (now : TimePoint) (create : Bool := false) : DayWrite V Id × GroupFiles V Id :=
  let file := f.files.find? day
  let known := file.getD {}
  if known.refused then (.nothing, f.settle day)
  else
    let rewrite := known.generation != 0 || past env day now || f.recover.contains day || f.retired
    -- nothing to make an archive of, or it is one
    if rewrite && records.isEmpty && (known.generation != 0 || (file.isNone && !create)) then
      (.nothing, f.settle day)
    else
      let start := env.calendar.startOf day
      let preamble := if file.isSome then [] else
        members.current.map fun e => HistoryRecord.added (f.added env e.1 e.2 start members)
      let listed := (if file.isSome then [] else members.current.map Prod.fst) ++
        records.filterMap (fun r => (r.preambled? start).map NodeAdded.index) ++
        (known.preamble start).keys
      let run := f.unlisted env start members (valuesIn records) listed ++ records
      let stored := newestOf (valuesIn records)
      let issued := if members.nextIndex = 0 then none else some members.nextIndex
      if rewrite then
        let runs := if known.generation != 0 then known.runs.map fun r => ((⊥ : WithBot Ticks), r)
          else known.runs.map fun r => ((firstTime r : WithBot Ticks), r)
        -- the preamble and the flush's records follow the file's at any one time
        (.rewrite ⟨day, known.generation + 1, issued, runs, preamble ++ run, stored⟩, f)
      else
        (.pending ⟨day, if file.isSome then none else some (issued, preamble), run, stored⟩, f)

/-- The values a write brought: each touches the later files' start values, and may be its node's
newest. -/
def storedAll (f : GroupFiles V Id) (stored : List (DataValue V)) : GroupFiles V Id :=
  stored.foldl (fun f v => { f.newer v with touched := f.touched ++ [(v.index, v.primaryTime)] }) f

/-- Once an append is written. A run with no record is none. -/
def commitPending (f : GroupFiles V Id) (p : Pending V Id) : GroupFiles V Id :=
  let known := (f.files.find? p.day).getD {}
  let file := match p.opening with
    | none => { known with runs := known.runs ++ [p.run].filter (!·.isEmpty) }
    | some (issued, preamble) => { issued, runs := [preamble, p.run].filter (!·.isEmpty) }
  { f.storedAll p.stored with
    files := f.files.insert p.day file
    unarchived := f.unarchived.insert p.day }

/-- Once an archive is renamed over its day's file. -/
def commitRewrite (f : GroupFiles V Id) (w : Rewrite V Id) : GroupFiles V Id :=
  let archive := w.archive (env.calendar.startOf w.day)
  let file : DayFile V Id := ⟨w.generation, w.issued, [archive].filter (!·.isEmpty), false⟩
  { (f.settle w.day).storedAll w.stored with files := f.files.insert w.day file }

def commit (f : GroupFiles V Id) : DayWrite V Id → GroupFiles V Id
  | .nothing => f
  | .pending p => f.commitPending p
  | .rewrite w => f.commitRewrite env w

/-- An edit's records, on the end of the day's modifications file. -/
def commitMods (f : GroupFiles V Id) (day : Day) (records : List (Modification V)) : GroupFiles V Id :=
  { f with mods := f.mods.insert day ((f.mods.find? day).getD [] ++ records) }

/-- The days whose file a flush at `now` rewrites though it has no records for them. -/
def due (f : GroupFiles V Id) (now : TimePoint) : List Day :=
  (stableSort id f.unarchived).filter fun day => f.recover.contains day || past env day now

/-- A removed group's: each live file is due at once. -/
def retire (f : GroupFiles V Id) : GroupFiles V Id :=
  { f with retired := true, recover := f.recover ++ f.unarchived.filter fun d => !f.recover.contains d }

/-- The days after `day`, and after the present, that hold a file. -/
def laterDays (f : GroupFiles V Id) (day : Day) : List Day :=
  f.files.keys.filter fun d => decide (max day f.present < d)

def setPresent (f : GroupFiles V Id) (today : Day) : GroupFiles V Id :=
  { f with present := max f.present today }

/-- The values the files hold. -/
def values (f : GroupFiles V Id) : List (DataValue V) :=
  f.files.values.flatMap fun file => valuesIn file.records

/-- The modifications the files hold. -/
def modifications (f : GroupFiles V Id) : List (Modification V) := f.mods.values.flatten

end GroupFiles

end OpcHub.Historian
