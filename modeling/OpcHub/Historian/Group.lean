import Mathlib.Algebra.BigOperators.Group.List.Basic
import Mathlib.Algebra.Order.Ring.Nat
import OpcHub.Lib.OrdMap
import OpcHub.Lib.StableSort
import OpcHub.Historian.Record

/-! A historian group as its buffer lock guards it: the members, the buffer of
changes and values, what a full buffer dropped of each node, and the batch of a
running flush with the flags of what it has written. The group's `ledger` is a
history variable. It records every value that was stored and every way one left
without being written, and nothing reads it. -/

namespace OpcHub.Historian

open Lib

/-- The part of a node's configuration the collector reads; the deviation band is `band`. -/
structure Thresholds where
  band : ℕ := 0
  minTimeInterval : Duration := 0
  maxTimeInterval : Duration := 0
  deriving DecidableEq, Repr

/-- The host's settings and the functions of a value the group calls. -/
structure Env (V Id : Type*) where
  /-- Whether a change from the stored value passes the deviation band. -/
  passes : Thresholds → Value V → Value V → Bool
  /-- Whether a value repeats the stored one. -/
  repeats : Value V → Value V → Bool
  supported : V → Bool
  utf8 : V → Bool
  bytes : Value V → ℕ
  changeBytes : Option Writer → Option Id → ℕ
  sizeofBuffered : ℕ
  calendar : Calendar
  fileable : Ticks → Bool
  /-- The built-in type a node is declared with; 0 for none. -/
  dataType : Id → ℕ
  /-- Whether a map entry's frame holds a start value too. -/
  memberFits : Id → DataValue V → Bool
  maxBuffer : ℕ
  delay : Duration

/-- A value as `enqueue` took it. -/
structure Arrival (V : Type*) where
  data : Value V
  bytes : ℕ
  unsupported : Bool
  notUtf8 : Bool
  deriving DecidableEq, Repr

structure Node (V Id : Type*) where
  id : Id
  config : Thresholds
  /-- The break its first value after is judged against. -/
  broke : Option TimePoint
  unsupported : Bool := false
  notUtf8 : Bool := false
  /-- Its last stored value, or the marker stored since. -/
  stored : Option (Value V) := none
  marked : Bool := false
  valueTs : Option Ticks := none
  /-- The newest primary time it stored, a heartbeat's or a marker's included. -/
  recordTs : Ticks := minTicks
  /-- `recordTs` but for a heartbeat still buffered. -/
  keptTs : Ticks := minTicks
  storedAt : TimePoint := 0
  /-- What `minTimeInterval` holds. -/
  pending : Option (Arrival V) := none
  due : TimePoint := 0
  serial : ℕ := 0
  delivered : Option Ticks := none
  offset : Duration := 0
  joined : Bool := true
  /-- Its newest heartbeat still buffered, as far as is known. -/
  beat : Option Ticks := none
  beatAt : Option TimePoint := none
  deriving DecidableEq, Repr

/-- A record no drop takes back. -/
def Node.keep {V Id : Type*} (node : Node V Id) (time : Ticks) : Node V Id :=
  { node with keptTs := max node.keptTs time, recordTs := max node.recordTs time }

structure Buffered (α : Type*) where
  item : α
  /-- Its place among all that the store's groups buffered. -/
  sequence : ℕ
  bytes : ℕ
  /-- A membership change whose copies for later days are made, or one of them. -/
  copied : Bool := false
  /-- A heartbeat a flush has taken. -/
  released : Bool := false
  deriving DecidableEq, Repr

def Buffered.map {α β : Type*} (f : α → β) (b : Buffered α) : Buffered β :=
  { b with item := f b.item }

/-- What a full buffer dropped of a node, until a flush marks it. -/
structure Lost (V : Type*) where
  marker : Value V := { status := some badDataLost }
  /-- The one written back; none once `dropBeats` took it. -/
  newest : Option (Buffered (DataValue V)) := none
  count : ℕ := 0
  sequence : ℕ := 0
  deriving DecidableEq, Repr

/-- A subscription as the group holds it: each index of its nodes, to the one named. -/
structure Registration where
  id : ℕ
  nodes : List (NodeIndex × NodeIndex)
  deriving DecidableEq, Repr

/-- What the store's groups share. -/
structure Store where
  sequence : ℕ := 0
  buffered : ℕ := 0
  deriving DecidableEq, Repr

/-- The history of a group's values. -/
structure Ledger (V : Type*) where
  /-- Each value `storeRecord` buffered. -/
  stored : List (DataValue V) := []
  /-- Those `dropBeats` removed. -/
  dropped : List (DataValue V) := []
  /-- Those the trim gave up. -/
  trimmed : List (Buffered (DataValue V)) := []
  /-- The markers of gaps, once they are records of the buffer or a batch. -/
  marked : List (DataValue V) := []
  /-- The heartbeats a flush took, each when it first did. -/
  released : List (DataValue V) := []
  /-- Those a flush let go unwritten: their day's file is refused. -/
  discarded : List (Buffered (DataValue V)) := []
  deriving DecidableEq, Repr

structure Group (V Id : Type*) where
  store : Store := {}
  /-- Whether the group gives its own indexes; else its host does. -/
  issues : Bool := true
  publishingInterval : Duration := 0
  nodes : OrdMap NodeIndex (Node V Id) := ∅
  subscribers : List Registration := []
  /-- Each removed node's break, which a rejoin takes. -/
  left : List (Id × TimePoint) := []
  /-- Each index that left, until its values are written. -/
  gone : OrdMap NodeIndex Id := ∅
  /-- Each index the group or its files gave a node, in the order it came to know them. -/
  nodeOf : List (NodeIndex × Id) := []
  nextIndex : NodeIndex := 1
  down : Option TimePoint := none
  closed : Bool := false
  stopped : Bool := false
  ended : Bool := false
  changes : List (Buffered (Change Id)) := []
  values : List (Buffered (DataValue V)) := []
  /-- What the running flush took, in its order. -/
  taken : Option (List (Buffered (Record V Id))) := none
  written : List Bool := []
  held : ℕ := 0
  fresh : ℕ := 0
  lost : OrdMap NodeIndex (Lost V) := ∅
  requested : Bool := false
  failing : Bool := false
  deferred : Bool := false
  deferredDays : List Day := []
  /-- The heartbeat timer's queue, soonest first. -/
  beats : List (TimePoint × NodeIndex) := []
  beatArmed : Bool := false
  beatDue : TimePoint := 0
  beatSerial : ℕ := 0
  ledger : Ledger V := {}

/-- What a change made under the lock leaves for once it is released. -/
structure Effects (V : Type*) where
  flush : Bool := false
  trim : Bool := false
  /-- Each value stored under the lock, for the subscribers registered then. -/
  stored : List (DataValue V) := []
  recipients : List Registration := []
  deriving DecidableEq, Repr

/-- The flush at 8 KB. -/
def flushBytes : ℕ := 8 <<< 10

variable {V Id : Type*} (env : Env V Id)

/-- What a buffered record counts against `maxBuffer`. -/
def cost {α : Type*} (b : Buffered α) : ℕ := b.bytes + env.sizeofBuffered

def costs {α : Type*} (l : List (Buffered α)) : ℕ := (l.map (cost env)).sum

namespace Group

/-- The count of a record's cost, and whether the buffers are past `maxBuffer`. -/
def account (g : Group V Id) (cost bytes : ℕ) : Bool × Group V Id :=
  let buffered := g.store.buffered + cost
  (decide (buffered > env.maxBuffer),
    { g with
      held := g.held + cost
      fresh := g.fresh + bytes
      store := { g.store with buffered } })

/-- The record's sequence, and the end of a deferral for a record of another day. -/
def arrive (g : Group V Id) (time : Ticks) : Group V Id :=
  { g with
    deferred := g.deferred && g.deferredDays.contains (env.calendar.dayOf time)
    store := { g.store with sequence := g.store.sequence + 1 } }

def holdValue (g : Group V Id) (v : DataValue V) (bytes : ℕ) : Bool × Group V Id :=
  let g := g.arrive env v.primaryTime
  let b : Buffered (DataValue V) := ⟨v, g.store.sequence, bytes, false, false⟩
  { g with values := g.values ++ [b] }.account env (cost env b) bytes

def holdChange (g : Group V Id) (c : Change Id) (bytes : ℕ) : Bool × Group V Id :=
  let g := g.arrive env (ticks c.ts)
  let b : Buffered (Change Id) := ⟨c, g.store.sequence, bytes, false, false⟩
  { g with changes := g.changes ++ [b] }.account env (cost env b) bytes

/-- Whether the buffer asks for a flush, which it then claims. -/
def claimFlush (g : Group V Id) (full : Bool) : Bool × Group V Id :=
  if (decide (g.fresh < flushBytes) && !full) || g.requested || g.failing || (g.deferred && !full) then
    (false, g)
  else (true, { g with requested := true })

end Group

def Effects.push {V : Type*} (effects : Effects V) (flush full : Bool) : Effects V :=
  { effects with flush := effects.flush || flush, trim := effects.trim || (full && !flush) }

namespace Group

def pushChange (g : Group V Id) (c : Change Id) (bytes : ℕ) (effects : Effects V) :
    Group V Id × Effects V :=
  let (full, g) := g.holdChange env c bytes
  let (flush, g) := g.claimFlush full
  (g, effects.push flush full)

/-- The record to the subscribers, but a heartbeat, which a drop can take back until a flush takes
it; then the buffer. -/
def storeRecord (g : Group V Id) (v : DataValue V) (bytes : ℕ) (effects : Effects V) :
    Group V Id × Effects V :=
  let effects :=
    if !g.subscribers.isEmpty && v.heartbeat.isNone then
      { effects with
        recipients := if effects.recipients.isEmpty then g.subscribers else effects.recipients
        stored := effects.stored ++ [v] }
    else effects
  let (full, g) := g.holdValue env v bytes
  let (flush, g) := g.claimFlush full
  ({ g with ledger := { g.ledger with stored := g.ledger.stored ++ [v] } }, effects.push flush full)

/-- The time `dropBeats` judges a heartbeat by: when the timer made it, or its own. -/
def beatTime (made : Bool) (v : DataValue V) : Ticks :=
  if made then v.data.serverTime else v.primaryTime

/-- A heartbeat of the node that no flush has taken. -/
def isBeat (index : NodeIndex) (b : Buffered (DataValue V)) : Bool :=
  b.item.index == index && b.item.heartbeat.isSome && !b.released

/-- The node's buffered heartbeats that `later` picks, dropped. -/
def dropBuffered (g : Group V Id) (index : NodeIndex) (later : DataValue V → Bool) : Group V Id :=
  let gone := g.values.filter fun b => isBeat index b && later b.item
  { g with
    values := g.values.filter fun b => !(isBeat index b && later b.item)
    held := g.held - costs env gone
    fresh := g.fresh - min g.fresh (gone.map Buffered.bytes).sum
    store := { g.store with buffered := g.store.buffered - min g.store.buffered (costs env gone) }
    ledger := { g.ledger with dropped := g.ledger.dropped ++ gone.map Buffered.item } }

/-- The trim's too, which the next flush would write back as the end of the node's gap; `beat` is the
newest of those left. -/
def dropLost (g : Group V Id) (index : NodeIndex) (later : DataValue V → Bool) (beat : Option Ticks) :
    Option Ticks × Group V Id :=
  match g.lost.find? index with
  | none => (beat, g)
  | some lost =>
    match lost.newest with
    | none => (beat, g)
    | some b =>
      if b.released || b.item.heartbeat.isNone then (beat, g)
      else if later b.item then
        (beat, { g with
          lost := g.lost.insert index
            { lost with count := lost.count - 1, sequence := b.sequence, newest := none }
          ledger := { g.ledger with dropped := g.ledger.dropped ++ [b.item] } })
      else (some (max (beat.getD b.item.primaryTime) b.item.primaryTime), g)

/-- Drops the node's buffered heartbeats at or after `start`; with `made`, those the timer made at or
after it. -/
def dropBeats (g : Group V Id) (index : NodeIndex) (node : Node V Id) (start : Ticks) (made : Bool := false) :
    Node V Id × Group V Id :=
  match node.beat with
  | none => (node, g)
  | some newest =>
    if !made && decide (start > newest) then (node, g)
    else
      let later (v : DataValue V) : Bool := !decide (beatTime made v < start)
      let left := g.values.filter fun b => isBeat index b && !later b.item
      let (beat, g) := (g.dropBuffered env index later).dropLost index later
        (left.map fun b => b.item.primaryTime).max?
      ({ node with beat, recordTs := max node.keptTs (beat.getD node.keptTs) }, g)

/-- A value flagged for the flush to warn of, dropped without being written back: its node's next of
its kind is flagged instead. -/
def unflag (g : Group V Id) (v : DataValue V) : Group V Id :=
  if !v.unsupported then g
  else
    { g with nodes := g.nodes.modify v.index fun node =>
        match v.data.value with
        | some data => if env.supported data then { node with notUtf8 := false } else { node with unsupported := false }
        | none => { node with notUtf8 := false } }

/-- A heartbeat the trim or a flush takes is out of a drop's reach. -/
def keepBeat (g : Group V Id) (v : DataValue V) : Group V Id :=
  if v.heartbeat.isSome then
    { g with nodes := g.nodes.modify v.index fun node => node.keep v.primaryTime } else g

/-- A gap with one more value lost: it opens at the earliest. -/
def widen (lost : Lost V) (v : DataValue V) : Lost V :=
  { lost with
    count := lost.count + 1
    marker := if lost.count == 0 || decide (v.primaryTime < lost.marker.primaryTime) then marker v.data
      else lost.marker }

/-- One value dropped from a full buffer: into its node's gap, which ends at the latest lost. -/
def giveUp (g : Group V Id) (b : Buffered (DataValue V)) : Group V Id :=
  let g := g.keepBeat b.item
  let lost := widen ((g.lost.find? b.item.index).getD {}) b.item
  match lost.newest with
  | none => { g with lost := g.lost.insert b.item.index { lost with newest := some b } }
  | some newest =>
    if b.item.primaryTime ≥ newest.item.primaryTime then
      let g := g.unflag env newest.item
      { g with
        lost := g.lost.insert b.item.index { lost with newest := some b }
        ledger := { g.ledger with trimmed := g.ledger.trimmed ++ [newest] } }
    else
      let g := g.unflag env b.item
      { g with
        lost := g.lost.insert b.item.index lost
        ledger := { g.ledger with trimmed := g.ledger.trimmed ++ [b] } }

/-- The trim's loop over the oldest values: how many it dropped and what they cost. -/
def dropLoop (before need : ℕ) : List (Buffered (DataValue V)) → (freed count : ℕ) → Group V Id →
    ℕ × ℕ × Group V Id
  | [], freed, count, g => (freed, count, { g with values := [] })
  | b :: rest, freed, count, g =>
    if b.sequence < before && freed < need then
      dropLoop before need rest (freed + cost env b) (count + 1) (g.giveUp env b)
    else (freed, count, { g with values := b :: rest })

/-- The trim: drops the values older than `before` until `need` bytes are freed. -/
def drop (g : Group V Id) (before need : ℕ) : ℕ × Group V Id :=
  let (freed, count, g) := g.dropLoop env before need g.values 0 0
  (count, { g with
    held := g.held - freed
    store := { g.store with buffered := g.store.buffered - min g.store.buffered freed } })

/-- The marker of a node's gap, when it lost more than the one it gets back. -/
def gapMarker (index : NodeIndex) (lost : Lost V) : Option (Buffered (DataValue V)) :=
  if lost.count > (if lost.newest.isSome then 1 else 0) then
    some { item := { index, data := lost.marker }
           sequence := (lost.newest.map Buffered.sequence).getD lost.sequence
           bytes := env.bytes lost.marker }
  else none

/-- Each node's lost values, as a marker and the one written back. -/
def lostRecords (g : Group V Id) : List (Buffered (DataValue V)) :=
  g.lost.entries.flatMap fun e => (gapMarker env e.1 e.2).toList ++ e.2.newest.toList

/-- The markers of the gaps that are open now. -/
def gapMarkers (g : Group V Id) : List (DataValue V) :=
  g.lost.entries.flatMap fun e => ((gapMarker env e.1 e.2).map Buffered.item).toList

def markLost (g : Group V Id) : List (Buffered (DataValue V)) × Group V Id :=
  (g.lostRecords env, { g with
    lost := ∅
    ledger := { g.ledger with marked := g.ledger.marked ++ g.gapMarkers env } })

/-- Whether a flush at `taken` takes the value: a fresh heartbeat waits for the next. -/
def takes (g : Group V Id) (taken : TimePoint) (b : Buffered (DataValue V)) : Bool :=
  if g.publishingInterval > 0 && !g.stopped && !g.closed then
    let made := b.item.data.serverTime
    b.item.heartbeat.isNone || decide (made ≤ ticks (taken - g.publishingInterval)) ||
      -- from before a clock set back
      decide (made > ticks taken)
  else true

/-- A heartbeat is released once, however often a failed write returns it. -/
def release (b : Buffered (DataValue V)) : Buffered (DataValue V) :=
  if b.item.heartbeat.isSome then { b with released := true } else b

/-- Those a release streams. -/
def fresh? (b : Buffered (DataValue V)) : Bool := b.item.heartbeat.isSome && !b.released

def mergeRecords (changes : List (Buffered (Change Id))) (values : List (Buffered (DataValue V))) :
    List (Buffered (Record V Id)) :=
  mergeBy Buffered.sequence (changes.map (Buffered.map .change)) (values.map (Buffered.map .value))

/-- The buffer, for a flush at `taken`: the batch, the heartbeats it releases to subscribers, and
what stays. -/
def take (g : Group V Id) (taken : TimePoint) :
    List (Buffered (Record V Id)) × List (DataValue V) × Group V Id :=
  let going := g.values.filter (g.takes taken)
  let kept := g.values.filter fun b => !g.takes taken b
  let (lost, g) := g.markLost env
  let released := ((lost ++ going).filter fresh?).map Buffered.item
  let beats := if g.subscribers.isEmpty then [] else released
  let nodes := (going.foldl (fun g b => g.keepBeat b.item) g).nodes
  let batch := (lost.map release).map (Buffered.map .value) ++
    mergeRecords g.changes (going.map release)
  let held := costs env kept
  (batch, beats, { g with
    nodes
    ledger := { g.ledger with released := g.ledger.released ++ released }
    changes := []
    values := kept
    held
    fresh := (kept.map Buffered.bytes).sum
    store := { g.store with buffered := g.store.buffered - min g.store.buffered (g.held - held) }
    requested := false })

/-- The places in a running flush's batch that it has not written. -/
def unwrittenAt (g : Group V Id) : List ℕ :=
  (List.range (g.taken.getD []).length).filter fun i => g.written[i]? == some false

/-- The records of the batch at some places. -/
def batchAt (g : Group V Id) (places : List ℕ) : List (Buffered (Record V Id)) :=
  places.filterMap fun i => (g.taken.getD [])[i]?

/-- The records of a running flush's batch that it has not written. -/
def unwritten (g : Group V Id) : List (Buffered (Record V Id)) := g.batchAt g.unwrittenAt

/-- What a read sees of the buffer. -/
def snapshot (g : Group V Id) (wanted : NodeIndex → Bool) : List (Buffered (Record V Id)) :=
  (g.unwritten.filter fun b => wanted b.item.index) ++
    ((g.lostRecords env).filter fun b => wanted b.item.index).map (Buffered.map .value) ++
    mergeRecords (g.changes.filter fun b => wanted b.item.index)
      (g.values.filter fun b => wanted b.item.index)

def taking (g : Group V Id) (batch : List (Buffered (Record V Id))) : Group V Id :=
  { g with taken := some batch, written := List.replicate batch.length false }

/-- The values of a list of records. -/
def valuesOf (l : List (Buffered (Record V Id))) : List (Buffered (DataValue V)) :=
  l.filterMap fun b => match b.item with
    | .value v => some (b.map fun _ => v)
    | .change _ => none

def changesOf (l : List (Buffered (Record V Id))) : List (Buffered (Change Id)) :=
  l.filterMap fun b => match b.item with
    | .value _ => none
    | .change c => some (b.map fun _ => c)

/-- Values let go unwritten. -/
def discard (g : Group V Id) (l : List (Buffered (Record V Id))) : Group V Id :=
  { g with ledger := { g.ledger with discarded := g.ledger.discarded ++ valuesOf l } }

/-- The part of a batch from `lo` up to `hi`. -/
def part (g : Group V Id) (lo hi : ℕ) : List (Buffered (Record V Id)) := g.batchAt (List.range' lo (hi - lo))

/-- The batch's records from `lo` up to `hi` are in a file, or dropped. -/
def wrote (g : Group V Id) (lo hi : ℕ) : Group V Id :=
  { g with written := g.written.mapIdx fun i w => w || (decide (lo ≤ i) && decide (i < hi)) }

def bySequence {α : Type*} (l : List (Buffered α)) : List (Buffered α) :=
  stableSort Buffered.sequence l

/-- What a flush couldn't write, back to the front of the buffer, before the gaps dropped while it
was out; true once the buffers are past `maxBuffer`. -/
def returnHeld (g : Group V Id) (held : List ℕ) : Bool × Group V Id :=
  let back := bySequence (g.batchAt held)
  let (gaps, g) := g.markLost env
  let gaps := bySequence gaps
  let cost := costs env gaps + costs env back
  let buffered := g.store.buffered + cost
  (decide (buffered > env.maxBuffer), { g with
    values := valuesOf back ++ gaps ++ g.values
    changes := changesOf back ++ g.changes
    taken := none
    written := []
    held := g.held + cost
    store := { g.store with buffered } })

/-- Forgets each node that left whose values are all written. -/
def pruneGone (g : Group V Id) : Group V Id :=
  let buffered := g.values.map (fun b => b.item.index) ++ g.lost.keys
  let gone := g.gone.keys.foldl
    (fun gone index => if buffered.contains index then gone else gone.erase index) g.gone
  { g with gone }

/-- The end of a flush: what was not written went back, and the rest is in its files. -/
def endFlush (g : Group V Id) : Group V Id := { g with taken := none, written := [] }

end Group

end OpcHub.Historian
