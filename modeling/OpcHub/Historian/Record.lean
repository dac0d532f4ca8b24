import Mathlib.Algebra.Order.Ring.Int

/-! What a historian group buffers and files: values with their two timestamps,
and membership changes. A record is filed and read by its primary time, a
value's source time or, when it came with none, its server time. Variant
payloads are a type parameter, as are node identities. -/

namespace OpcHub.Historian

/-- A `node_index`; 0 names none. -/
abbrev NodeIndex := ℕ

/-- A `UA_DateTime`: 100 ns since 1601. -/
abbrev Ticks := ℤ

/-- A clock's time: ns since 1970. -/
abbrev TimePoint := ℤ

/-- A span of the clock, in ns. -/
abbrev Duration := ℤ

/-- A local date, by its number. -/
abbrev Day := ℤ

/-- `StartOf` and `DayOf` in a time zone. -/
structure Calendar where
  startOf : Day → Ticks
  dayOf : Ticks → Day

/-- UTC's, each of 24 hours. -/
def Calendar.utc : Calendar where
  startOf d := d * 864000000000
  dayOf t := t / 864000000000

/-- The times a flush writes to a day's file: of the day, or after one that is and before the next day's start. -/
def Calendar.Covers (calendar : Calendar) (day : Day) (t : Ticks) : Prop :=
  ∃ u ≤ t, calendar.dayOf u = day ∧ (u = t ∨ t < calendar.startOf (day + 1))

/-- 1970 in ticks. -/
def ua1970 : Ticks := 116444736000000000

/-- A time in ticks. -/
def ticks (t : TimePoint) : Ticks := t.tdiv 100 + ua1970

/-- A span in ticks. -/
def spanTicks (d : Duration) : Ticks := d.tdiv 100

/-- A tick as the clock has it. -/
def timePoint (t : Ticks) : TimePoint := (t - ua1970) * 100

def minTicks : Ticks := -(2 ^ 63)

/-- `UA_STATUSCODE_BADDATALOST`. -/
def badDataLost : ℕ := 0x809D0000

/-- A `UA_DataValue`: each field with its mask's bit. -/
structure Value (V : Type*) where
  value : Option V := none
  status : Option ℕ := none
  sourceTimestamp : Option Ticks := none
  sourcePicoseconds : Option ℕ := none
  serverTimestamp : Option Ticks := none
  serverPicoseconds : Option ℕ := none
  deriving DecidableEq, Repr

/-- A value that passed the compression test, a `Bad_DataLost` marker, or a heartbeat, whose
`heartbeat` is the time of the value it repeats. -/
structure DataValue (V : Type*) where
  index : NodeIndex
  data : Value V
  heartbeat : Option Ticks := none
  /-- A node's first value that a file can't hold, which the flush warns of. -/
  unsupported : Bool := false
  unsourced : Bool := false
  deriving DecidableEq, Repr

/-- Who made a change, as its record names them. -/
structure Writer where
  identityId : ℕ
  userName : String := ""
  deriving DecidableEq, Repr

/-- A membership change; one the historian made itself has no writer. -/
inductive Change (Id : Type*) where
  | added (index : NodeIndex) (node : Id) (ts : TimePoint) (by_ : Option Writer)
  | removed (index : NodeIndex) (ts : TimePoint) (by_ : Option Writer)
  deriving DecidableEq, Repr

/-- What a group holds until a flush writes it. -/
inductive Record (V Id : Type*) where
  | change (c : Change Id)
  | value (v : DataValue V)
  deriving DecidableEq, Repr

variable {V Id : Type*}

def Value.primaryTime (v : Value V) : Ticks :=
  v.sourceTimestamp.getD (v.serverTimestamp.getD 0)

/-- The server time as the code reads it, whether or not it is there. -/
def Value.serverTime (v : Value V) : Ticks := v.serverTimestamp.getD 0

def DataValue.primaryTime (v : DataValue V) : Ticks := v.data.primaryTime

def Change.index : Change Id → NodeIndex
  | .added index _ _ _ => index
  | .removed index _ _ => index

def Change.ts : Change Id → TimePoint
  | .added _ _ ts _ => ts
  | .removed _ ts _ => ts

def Change.setTime (ts : TimePoint) : Change Id → Change Id
  | .added index node _ by_ => .added index node ts by_
  | .removed index _ by_ => .removed index ts by_

def Record.index : Record V Id → NodeIndex
  | .change c => c.index
  | .value v => v.index

def Record.primaryTime : Record V Id → Ticks
  | .change c => ticks c.ts
  | .value v => v.primaryTime

/-- The value of a record that is one. -/
def Record.value? : Record V Id → Option (DataValue V)
  | .change _ => none
  | .value v => some v

/-- The `Bad_DataLost` that opens a gap: at a dropped value's own times, or at `at_` in the
source's clock, with the server time of the value that found the break. -/
def marker (like : Value V) (at_ : Option Ticks := none) : Value V where
  status := some badDataLost
  sourceTimestamp := at_ <|> like.sourceTimestamp
  serverTimestamp := like.serverTimestamp

/-- The value as a file holds it: the flag is the flush's own. -/
def DataValue.filed (v : DataValue V) : DataValue V := { v with unsupported := false }

end OpcHub.Historian
