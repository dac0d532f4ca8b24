import OpcHub.Historian.Group

/-! The collector: what a group does under one hold of its buffer lock when a
value arrives, a pending value's interval ends, the heartbeat timer runs, the
connection breaks or comes back, and a node joins or leaves. A member is passed
and returned beside the group, as the code passes it by reference, and each entry
point puts it back. Timers are the environment's: a call that no longer counts
finds another serial. -/

namespace OpcHub.Historian

open Lib

variable {V Id : Type*} (env : Env V Id)

/-- What a change under the lock works on: a member, the group and the effects so far. -/
abbrev Held (V Id : Type*) := Node V Id × Group V Id × Effects V

/-- Whether the heartbeat repeats the node's last value. -/
def Node.beats (node : Node V Id) : Bool :=
  decide (node.config.maxTimeInterval > 0) && node.stored.isSome && !node.marked &&
    node.broke.isNone && node.pending.isNone

/-- Whether the value passes the compression test against the node's last. -/
def Node.passes (node : Node V Id) (value : Value V) : Bool :=
  match node.stored with
  | none => true
  | some stored => env.passes node.config stored value

/-- Whether the value is what the node had: nothing was lost over its break. -/
def Node.agrees (node : Node V Id) (value : Value V) : Bool :=
  node.marked || match node.stored with
    | none => true
    | some stored => !env.passes node.config stored value || env.repeats stored value

/-- Whether the value is the first the flush warns of, of those a file can't hold. -/
def Node.warns (node : Node V Id) (arrival : Arrival V) : Bool :=
  (arrival.unsupported && !node.unsupported) || (arrival.notUtf8 && !node.notUtf8)

/-- The node with the value its last. -/
def Node.stores (node : Node V Id) (arrival : Arrival V) (now : TimePoint) : Node V Id :=
  { node.keep arrival.data.primaryTime with
    unsupported := node.unsupported || arrival.unsupported
    notUtf8 := node.notUtf8 || (arrival.notUtf8 && !(arrival.unsupported && !node.unsupported))
    stored := some arrival.data
    marked := false
    valueTs := some arrival.data.primaryTime
    storedAt := now }

/-- The node with a break's marker its last. -/
def Node.marks (node : Node V Id) (at_ : Ticks) (now : TimePoint) : Node V Id :=
  { node.keep at_ with stored := some { status := some badDataLost }, marked := true, storedAt := now }

/-- How far the source's clock is off, by a value that came as it was made. -/
def Node.offsetBy (node : Node V Id) (value : Value V) (now : TimePoint) : Node V Id :=
  match value.sourceTimestamp with
  | some source => { node with offset := now - timePoint source }
  | none => node

/-- Whether a value's source time is before the last delivered one's. -/
def isEarlier : Option Ticks → Option Ticks → Bool
  | some source, some last => decide (source < last)
  | _, _ => false

namespace Group

/-- A deadline's place in the timer's queue. -/
def insertDeadline (d : TimePoint × NodeIndex) : List (TimePoint × NodeIndex) → List (TimePoint × NodeIndex)
  | [] => [d]
  | e :: l =>
    if d.1 < e.1 || (d.1 == e.1 && d.2 ≤ e.2) then d :: e :: l else e :: insertDeadline d l

/-- Queues the node for `due`. -/
def watch (g : Group V Id) (index : NodeIndex) (node : Node V Id) (due : TimePoint) :
    Node V Id × Group V Id :=
  ({ node with beatAt := some due }, { g with beats := insertDeadline (due, index) g.beats })

def scheduleBeat (g : Group V Id) (due : TimePoint) : Group V Id :=
  { g with beatDue := due, beatArmed := true, beatSerial := g.beatSerial + 1 }

/-- The heartbeat timer, moved up to the node's deadline when that is the earliest. -/
def arm (g : Group V Id) (index : NodeIndex) (node : Node V Id) (now : TimePoint) :
    Node V Id × Group V Id :=
  if !node.beats || g.down.isSome || g.stopped || g.closed then (node, g)
  else
    let due := max (node.storedAt + node.config.maxTimeInterval) now
    -- one it already waits on that comes sooner stays
    let (node, g) :=
      match node.beatAt with
      | some at_ => if at_ > due then g.watch index node due else (node, g)
      | none => g.watch index node due
    let due := max (node.beatAt.getD due) now
    (node, if g.beatArmed && g.beatDue ≤ due then g else g.scheduleBeat due)

def armNode (index : NodeIndex) (now : TimePoint) : Held V Id → Held V Id
  | (node, g, effects) =>
    let (node, g) := g.arm index node now
    (node, g, effects)

def expireAt (node : Node V Id) (due : TimePoint) : Node V Id :=
  { node with due, serial := node.serial + 1 }

def storeValue (index : NodeIndex) (arrival : Arrival V) (now : TimePoint) : Held V Id → Held V Id
  | (node, g, effects) =>
    let v : DataValue V := { index, data := arrival.data, unsupported := node.warns arrival }
    armNode index now (node.stores arrival now, g.storeRecord env v arrival.bytes effects)

/-- A break's `Bad_DataLost` at `at_`, found by the value `ended`. -/
def mark (index : NodeIndex) (at_ : Ticks) (ended : Value V) (now : TimePoint) : Held V Id → Held V Id
  | (node, g, effects) =>
    let lost := marker ended (some at_)
    (node.marks at_ now, g.storeRecord env { index, data := lost } (env.bytes lost) effects)

/-- The node's pending value, stored if it still passes. -/
def settle (index : NodeIndex) (now : TimePoint) : Held V Id → Held V Id
  | (node, g, effects) =>
    match node.pending with
    | none => (node, g, effects)
    | some pending =>
      let node := { node with pending := none, serial := node.serial + 1 }
      if node.passes env pending.data then storeValue env index pending now (node, g, effects)
      -- the heartbeat left it alone while it was pending
      else armNode index now (node, g, effects)

def dropNodeBeats (index : NodeIndex) (start : Ticks) (made : Bool) : Held V Id → Held V Id
  | (node, g, effects) =>
    let (node, g) := g.dropBeats env index node start made
    (node, g, effects)

/-- Whether the value is within `minTimeInterval` of the last stored one. -/
def within (node : Node V Id) (time : Ticks) : Bool :=
  let min := spanTicks node.config.minTimeInterval
  match node.valueTs with
  | some valueTs => decide (min > 0) && decide (time - valueTs < min)
  | none => false

/-- A node's first value after a break. -/
def collectAfterBreak (index : NodeIndex) (arrival : Arrival V) (now broke : TimePoint) (last : Option Ticks)
    (s : Held V Id) : Held V Id :=
  let value := arrival.data
  let source := value.sourceTimestamp
  let time := value.primaryTime
  -- in flight and held since: delivered before the break
  let s := settle env index now s
  if source.isSome && source == last && s.1.agrees env value then armNode index now s
  else if isEarlier source last then mark env index (max (ticks broke) s.1.recordTs) value now s
  else
    -- before the marker, whose floor a heartbeat at or after the value would raise
    let s := dropNodeBeats env index time false s
    let at_ := max (ticks broke) s.1.recordTs
    storeValue env index arrival now (mark env index (min at_ time) value now s)

/-- A value that takes the compression test, after what its time settles. -/
def collectPassing (index : NodeIndex) (arrival : Arrival V) (now : TimePoint) (s : Held V Id) : Held V Id :=
  let time := arrival.data.primaryTime
  let passes := s.1.passes env arrival.data
  let s := if passes then dropNodeBeats env index time false s else s
  if s.1.pending.isSome then
    -- replaced, passing or not: what the interval's end stores is where the value settled
    ({ s.1 with pending := some arrival }, s.2)
  else if !passes then s
  else if !within s.1 time then storeValue env index arrival now s
  else
    let min := spanTicks s.1.config.minTimeInterval
    let since := time - s.1.valueTs.getD 0
    let left := min - max 0 (Min.min since min)
    (expireAt { s.1 with pending := some arrival } (now + left * 100), s.2)

/-- A value that takes the ordinary compression test. -/
def collectOrdinary (index : NodeIndex) (arrival : Arrival V) (now : TimePoint) (joined : Bool)
    (s : Held V Id) : Held V Id :=
  let s := if joined then s else (s.1.offsetBy arrival.data now, s.2)
  -- by the source's clock its interval ended before this change
  if s.1.pending.isSome && !within s.1 arrival.data.primaryTime then
    collectPassing env index arrival now (settle env index now s)
  else collectPassing env index arrival now s

/-- The gap comparison for a member's first value after a break, else the compression test. -/
def collect (index : NodeIndex) (arrival : Arrival V) (now : TimePoint) : Held V Id → Held V Id
  | (node, g, effects) =>
    let last := node.delivered
    let joined := node.joined
    let broke := node.broke
    -- a value that arrives while the connection is down was sent before the break
    let node := { node with
      delivered := arrival.data.sourceTimestamp, joined := false, broke := g.down }
    match broke with
    | some at_ =>
      if g.down = some at_ then collectOrdinary env index arrival now joined (node, g, effects)
      else collectAfterBreak env index arrival now at_ last (node, g, effects)
    | none => collectOrdinary env index arrival now joined (node, g, effects)

/-- A change to a member, put back where it was. -/
def onMember (index : NodeIndex) (f : Held V Id → Held V Id) (g : Group V Id) (effects : Effects V) :
    Group V Id × Effects V :=
  match g.nodes.find? index with
  | none => (g, effects)
  | some node =>
    let (node, g, effects) := f (node, g, effects)
    ({ g with nodes := g.nodes.insert index node }, effects)

/-- The same change to each member, in index order. -/
def onMembers (f : NodeIndex → Held V Id → Held V Id) (g : Group V Id) (effects : Effects V) :
    Group V Id × Effects V :=
  g.nodes.keys.foldl (fun s index => onMember index (f index) s.1 s.2) (g, effects)

/-- The value as the historian takes it: a time no day holds counts as none, and one with no server
time is stamped with the time it arrived. -/
def stamp (value : Value V) (now : TimePoint) : Value V :=
  let value := match value.sourceTimestamp with
    | some t => if env.fileable t then value
        else { value with sourceTimestamp := none, sourcePicoseconds := none }
    | none => value
  match value.serverTimestamp with
  | some t => if env.fileable t then value else { value with serverTimestamp := some (ticks now) }
  | none => { value with serverTimestamp := some (ticks now) }

def arrivalOf (value : Value V) (now : TimePoint) : Arrival V :=
  let data := stamp env value now
  let unsupported := match data.value with
    | some v => !env.supported v
    | none => false
  let notUtf8 := match data.value with
    | some v => !unsupported && !env.utf8 v
    | none => false
  { data, bytes := env.bytes data, unsupported, notUtf8 }

def enqueue (g : Group V Id) (index : NodeIndex) (value : Value V) (now : TimePoint) :
    Group V Id × Effects V :=
  if g.stopped then (g, {})
  else g.onMember index (collect env index (arrivalOf env value now) now) {}

/-- A pending value's timer. -/
def expire (g : Group V Id) (index : NodeIndex) (serial : ℕ) (now : TimePoint) :
    Group V Id × Effects V :=
  match g.nodes.find? index with
  | none => (g, {})
  | some node =>
    if node.pending.isNone || node.serial != serial || g.stopped then (g, {})
    else g.onMember index (settle env index now) {}

/-- The heartbeat of a node that stored nothing for its `maxTimeInterval`: in the source's clock, and
never earlier than that interval after the node's last record. -/
def beatValue (node : Node V Id) (stored : Value V) (now : TimePoint) : Value V :=
  { stored with
    sourceTimestamp := some
      (max (ticks (now - node.offset)) (node.recordTs + spanTicks node.config.maxTimeInterval))
    serverTimestamp := some (ticks now)
    sourcePicoseconds := none
    serverPicoseconds := none }

/-- The node repeats its last value, `stored`. -/
def storeBeat (index : NodeIndex) (stored : Value V) (now : TimePoint) : Held V Id → Held V Id
  | (node, g, effects) =>
    let beat := beatValue node stored now
    let v : DataValue V :=
      { index, data := beat, heartbeat := node.valueTs, unsourced := stored.sourceTimestamp.isNone }
    ({ node with recordTs := beat.primaryTime, storedAt := now, beat := some beat.primaryTime },
      g.storeRecord env v (env.bytes beat) effects)

/-- The node waits from what it stored last. -/
def watchNode (index : NodeIndex) : Held V Id → Held V Id
  | (node, g, effects) =>
    let (node, g) := g.watch index node (node.storedAt + node.config.maxTimeInterval)
    (node, g, effects)

/-- The timer at a node whose deadline has come. -/
def beatNode (index : NodeIndex) (now : TimePoint) : Held V Id → Held V Id
  | (node, g, effects) =>
    let node := { node with beatAt := none }
    match node.stored with
    | none => (node, g, effects)
    | some stored =>
      -- what makes it one again arms it
      if !node.beats then (node, g, effects)
      else
        let node := { node with storedAt := min node.storedAt now }
        if node.storedAt + node.config.maxTimeInterval ≤ now then
          watchNode index (storeBeat env index stored now (node, g, effects))
        else watchNode index (node, g, effects)

/-- The nodes whose deadline has come, each of which waits again from what it stored last. -/
def beatLoop (now : TimePoint) : (fuel : ℕ) → Group V Id → Effects V → Group V Id × Effects V
  | 0, g, effects => (g, effects)
  | fuel + 1, g, effects =>
    match g.beats with
    | [] => (g, effects)
    | (at_, index) :: rest =>
      if at_ > now then (g, effects)
      else
        let g := { g with beats := rest }
        match g.nodes.find? index with
        | none => g.beatLoop now fuel effects
        | some node =>
          -- gone, or waiting on another since
          if node.beatAt ≠ some at_ then g.beatLoop now fuel effects
          else
            let (g, effects) := g.onMember index (beatNode env index now) effects
            g.beatLoop now fuel effects

/-- Every deadline from before a clock set back: each node waits from now. -/
def rewatch (index : NodeIndex) (now : TimePoint) : Held V Id → Held V Id
  | (node, g, effects) =>
    let node := { node with beatAt := none }
    if !node.beats then (node, g, effects)
    else watchNode index ({ node with storedAt := min node.storedAt now }, g, effects)

/-- Deadlines far past now are from before the clock was set back. -/
def rewatchAll (now : TimePoint) (g : Group V Id) : Group V Id × Effects V :=
  if now + 1000000000 < g.beatDue then onMembers (fun index => rewatch index now) { g with beats := [] } {}
  else (g, {})

/-- The timer for the next deadline. -/
def reschedule : Group V Id × Effects V → Group V Id × Effects V
  | (g, effects) =>
    match g.beats with
    | [] => (g, effects)
    | (due, _) :: _ => (g.scheduleBeat due, effects)

/-- The group's heartbeat timer. -/
def beat (g : Group V Id) (serial : ℕ) (now : TimePoint) : Group V Id × Effects V :=
  if serial != g.beatSerial || g.stopped || g.ended then (g, {})
  -- a dead feed stays apart from a flat line
  else if g.down.isSome then ({ g with beatArmed := false }, {})
  else
    let p := rewatchAll now { g with beatArmed := false }
    reschedule (p.1.beatLoop env now p.1.beats.length p.2)

/-- A member's break begins. -/
def Node.breaks (node : Node V Id) (at_ : TimePoint) : Node V Id := { node with broke := some at_ }

/-- The connection breaks at a member. -/
def disconnectNode (at_ now : TimePoint) (index : NodeIndex) (s : Held V Id) : Held V Id :=
  let s := settle env index now s
  -- no value since an earlier break, so that one still stands
  if s.1.broke.isSome then s
  else if s.1.storedAt ≥ at_ then
    -- reported late: a heartbeat made since repeats the value over a dead feed
    let s := dropNodeBeats env index (ticks at_) true (Node.breaks s.1 at_, s.2)
    ({ s.1 with storedAt := at_ }, s.2)
  else (Node.breaks s.1 at_, s.2)

def disconnected (g : Group V Id) (at_ now : TimePoint) : Group V Id × Effects V :=
  onMembers (disconnectNode env at_ now) { g with down := g.down <|> some at_ } {}

def connected (g : Group V Id) : Group V Id := { g with down := none }

def setPublishingInterval (g : Group V Id) (interval : Duration) : Group V Id :=
  { g with publishingInterval := interval }

def setNodeThresholds (thresholds : Thresholds) (now : TimePoint) (index : NodeIndex) (s : Held V Id) :
    Held V Id :=
  let moved := thresholds.minTimeInterval - s.1.config.minTimeInterval
  let node := { s.1 with config := thresholds }
  if node.pending.isSome && moved != 0 then
    -- its interval's end moves with the interval
    if node.due + moved ≤ now then armNode index now (settle env index now (node, s.2))
    else armNode index now (expireAt node (node.due + moved), s.2)
  else armNode index now (node, s.2)

def setThresholds (g : Group V Id) (index : NodeIndex) (thresholds : Thresholds) (now : TimePoint) :
    Group V Id × Effects V :=
  g.onMember index (setNodeThresholds env thresholds now index) {}

section Members

variable [DecidableEq Id]

/-- The index of a member. -/
def indexOf (g : Group V Id) (node : Id) : Option NodeIndex :=
  (g.nodes.entries.find? fun e => e.2.id = node).map Prod.fst

/-- An index's node, as the group first came to know it. -/
def remember (g : Group V Id) (index : NodeIndex) (node : Id) : Group V Id :=
  if (g.nodeOf.lookup index).isSome then g else { g with nodeOf := g.nodeOf ++ [(index, node)] }

/-- A new member; index 0 issues the next one. None for a member or an index the group has. -/
def insert (g : Group V Id) (node : Id) (config : Thresholds) (index : NodeIndex) :
    Option NodeIndex × Group V Id :=
  if (g.indexOf node).isSome then (none, g)
  else
    let (index, g) := if index = 0 then (g.nextIndex, { g with nextIndex := g.nextIndex + 1 }) else (index, g)
    if g.nodes.contains index then (none, g)
    else
      let g := g.remember index node
      let rejoin := g.left.lookup node
      (some index, { g with
        left := g.left.filter fun e => e.1 ≠ node
        nodes := g.nodes.insert index { id := node, config, broke := rejoin } })

def add (g : Group V Id) (node : Id) (config : Thresholds) (index : NodeIndex) (by_ : Option Writer)
    (now : TimePoint) : Group V Id × Effects V :=
  if g.issues == (index != 0) || g.closed || g.stopped then (g, {})
  else
    match g.insert node config index with
    | (none, g) => (g, {})
    | (some index, g) =>
      g.pushChange env (.added index node now by_) (env.changeBytes by_ (some node)) {}

/-- A member leaves: its pending value is stored, and its break is kept for a rejoin. -/
def remove (g : Group V Id) (index : NodeIndex) (by_ : Option Writer) (now : TimePoint) :
    Group V Id × Effects V :=
  match g.nodes.find? index with
  | none => (g, {})
  | some node =>
    if g.stopped then (g, {})
    else
      let (node, g, effects) := settle env index now (node, g, {})
      let g := { g with
        gone := g.gone.insert index node.id
        left := (node.id, node.broke.getD now) :: g.left.filter fun e => e.1 ≠ node.id
        nodes := g.nodes.erase index }
      g.pushChange env (.removed index now by_) (env.changeBytes by_ none) effects

end Members

/-- A member at the group's removal. -/
def closeNode (by_ : Option Writer) (now : TimePoint) (index : NodeIndex) (s : Held V Id) : Held V Id :=
  let s := settle env index now s
  let g := { s.2.1 with gone := s.2.1.gone.insert index s.1.id }
  let (full, g) := g.holdChange env (.removed index now by_) (env.changeBytes by_ none)
  (s.1, g, { s.2.2 with trim := s.2.2.trim || full })

/-- Every member leaves, and each subscription ends. -/
def close (g : Group V Id) (by_ : Option Writer) (now : TimePoint) : Group V Id × Effects V :=
  let (g, effects) := g.onMembers (closeNode env by_ now) {}
  -- the flush asked for here takes the rest, if it can write
  ({ g with nodes := ∅, subscribers := [], closed := true },
    { effects with flush := true, trim := effects.trim && g.failing })

/-- The historian's end: each pending value is stored as at its interval's end. -/
def stopping (g : Group V Id) (now : TimePoint) : Group V Id × Effects V :=
  let (g, effects) := { g with stopped := true }.onMembers (fun index => settle env index now) {}
  ({ g with subscribers := [], beatArmed := false }, { effects with flush := false })

end Group

end OpcHub.Historian
