import OpcHub.Records.Recover
import OpcHub.Historian.Files

/-! A record's times are absolute in memory and deltas on disk: its primary time
from the record before it, its other times from its own primary one. Only a
FileStart's is absolute, and it starts the chain. The arithmetic wraps, so a
delta undoes exactly whatever the times, and a record read at the chain it was
written at is the record that was given. -/

namespace OpcHub.Historian

open Records List Option HistoryRecord

variable {V Id : Type*}

/-- A time an int64 holds. -/
def FitsInt64 (t : Ticks) : Prop := -9223372036854775808 ≤ t ∧ t < 9223372036854775808

namespace DataValue

def times (v : DataValue V) : List Ticks :=
  v.data.sourceTimestamp.toList ++ v.data.serverTimestamp.toList ++ v.heartbeat.toList

def mapTimes (g : Ticks → Ticks) (v : DataValue V) : DataValue V :=
  { v with
    data := { v.data with
      sourceTimestamp := v.data.sourceTimestamp.map g
      serverTimestamp := v.data.serverTimestamp.map g }
    heartbeat := v.heartbeat.map g }

theorem times_mapTimes (g : Ticks → Ticks) (v : DataValue V) : (v.mapTimes g).times = v.times.map g := by
  have hlist : ∀ x : Option Ticks, (x.map g).toList = x.toList.map g := fun x => by cases x <;> rfl
  simp [times, mapTimes, hlist]

theorem mapTimes_mapTimes {g g' : Ticks → Ticks} {v : DataValue V} (h : ∀ t ∈ v.times, g' (g t) = t) :
    (v.mapTimes g).mapTimes g' = v := by
  obtain ⟨index, ⟨value, status, source, sourcePico, server, serverPico⟩, heartbeat, unsupported, unsourced⟩ := v
  have hmap : ∀ x : Option Ticks, (∀ t ∈ x, g' (g t) = t) → (x.map g).map g' = x := by
    intro x hx
    cases x with
    | none => rfl
    | some t => simp [hx t rfl]
  simp only [mapTimes, mk.injEq, Value.mk.injEq, true_and, and_true]
  refine ⟨⟨hmap _ fun t ht => h t ?_, hmap _ fun t ht => h t ?_⟩, hmap _ fun t ht => h t ?_⟩ <;>
    simp_all [times]

end DataValue

/-- One direction of the conversion; `last` is the primary time of the record before. -/
structure Convert where
  toDisk : Bool

namespace Convert

/-- A primary time, and the one the next record counts from. -/
def primary (c : Convert) (last stored : Ticks) : Ticks × Ticks :=
  if c.toDisk then (wrap (stored - last), stored)
  else (wrap (last + stored), wrap (last + stored))

def other (c : Convert) (primary stored : Ticks) : Ticks :=
  if c.toDisk then wrap (stored - primary) else wrap (primary + stored)

/-- Inside another record, every time is relative to that record's primary. -/
def nested (c : Convert) (last : Ticks) (v : DataValue V) : DataValue V := v.mapTimes (c.other last)

/-- A value that is its own record. -/
def top (c : Convert) (last : Ticks) (v : DataValue V) : DataValue V × Ticks :=
  match v.data.sourceTimestamp with
  | some source =>
    let (source, last) := c.primary last source
    ({ v with
      data := { v.data with
        sourceTimestamp := some source
        serverTimestamp := v.data.serverTimestamp.map (c.other last) }
      heartbeat := v.heartbeat.map (c.other last) }, last)
  | none =>
    match v.data.serverTimestamp with
    | some server =>
      let (server, last) := c.primary last server
      ({ v with
        data := { v.data with serverTimestamp := some server }
        heartbeat := v.heartbeat.map (c.other last) }, last)
    | none => ({ v with heartbeat := v.heartbeat.map (c.other last) }, last)

def record (c : Convert) (last : Ticks) : HistoryRecord V Id → HistoryRecord V Id × Ticks
  | .added a =>
    let (ts, last) := c.primary last a.ts
    (.added { a with ts, start := a.start.map (c.nested last) }, last)
  | .removed index ts by_ =>
    let (ts, last) := c.primary last ts
    (.removed index ts by_, last)
  | .value v =>
    let (v, last) := c.top last v
    (.value v, last)
  | .modification m =>
    let (target, last) := c.primary last m.target
    (.modification { m with
      target
      ts := c.other last m.ts
      original := m.original.map (c.nested last)
      newValue := m.newValue.map (c.nested last) }, last)

end Convert

namespace HistoryRecord

/-- Every time of a record. -/
def times : HistoryRecord V Id → List Ticks
  | .added a => a.ts :: a.start.toList.flatMap DataValue.times
  | .removed _ ts _ => [ts]
  | .value v => v.times
  | .modification m =>
    m.target :: m.ts :: (m.original.toList ++ m.newValue.toList).flatMap DataValue.times

def Fits (r : HistoryRecord V Id) : Prop := ∀ t ∈ r.times, FitsInt64 t

/-- Its primary time, none for a value with no time. -/
def time? : HistoryRecord V Id → Option Ticks
  | .added a => some a.ts
  | .removed _ ts _ => some ts
  | .value v => v.data.sourceTimestamp <|> v.data.serverTimestamp
  | .modification m => some m.target

end HistoryRecord

section Undo

theorem wrap_fits (t : Ticks) : FitsInt64 (wrap t) := ⟨le_wrap t, wrap_lt t⟩

variable {t : Ticks} {v : DataValue V}

variable (last : Ticks)

theorem other_other (h : FitsInt64 t) : (⟨false⟩ : Convert).other last ((⟨true⟩ : Convert).other last t) = t :=
  wrap_add_wrap_sub last h.1 h.2

open Historian.Convert

theorem primary_primary (h : FitsInt64 t) :
    (⟨false⟩ : Convert).primary last ((⟨true⟩ : Convert).primary last t).1 = (t, t) := by
  have hwrap := wrap_add_wrap_sub last h.1 h.2
  simp [primary, hwrap]

theorem nested_nested (h : ∀ t ∈ v.times, FitsInt64 t) :
    (⟨false⟩ : Convert).nested last ((⟨true⟩ : Convert).nested last v) = v :=
  DataValue.mapTimes_mapTimes fun t ht => other_other last (h t ht)

theorem map_nested_nested {x : Option (DataValue V)} (h : ∀ v ∈ x, ∀ t ∈ v.times, FitsInt64 t) :
    (x.map ((⟨true⟩ : Convert).nested last)).map ((⟨false⟩ : Convert).nested last) = x := by
  cases x with
  | none => rfl
  | some v => simp [nested_nested last (h v rfl)]

theorem map_other_other {x : Option Ticks} (h : ∀ t ∈ x, FitsInt64 t) :
    (x.map ((⟨true⟩ : Convert).other last)).map ((⟨false⟩ : Convert).other last) = x := by
  cases x with
  | none => rfl
  | some t => simp [other_other last (h t rfl)]

theorem top_top (h : ∀ t ∈ v.times, FitsInt64 t) :
    (⟨false⟩ : Convert).top last ((⟨true⟩ : Convert).top last v).1 = (v, ((⟨true⟩ : Convert).top last v).2) := by
  obtain ⟨index, ⟨value, status, source, sourcePico, server, serverPico⟩, heartbeat, unsupported, unsourced⟩ := v
  have hheartbeat : ∀ t ∈ heartbeat, FitsInt64 t := fun t ht => h t (by simp_all [DataValue.times])
  have hserver : ∀ t ∈ server, FitsInt64 t := fun t ht => h t (by simp_all [DataValue.times])
  cases source with
  | some source =>
    have hsource := primary_primary last (h source (by simp [DataValue.times]))
    have hlast : ((⟨true⟩ : Convert).primary last source).2 = source := rfl
    simp only [top, hsource, hlast, map_other_other source hheartbeat, map_other_other source hserver]
  | none =>
    cases server with
    | some server =>
      have hprimary := primary_primary last (hserver server rfl)
      have hlast : ((⟨true⟩ : Convert).primary last server).2 = server := rfl
      simp only [top, hprimary, hlast, map_other_other server hheartbeat]
    | none => simp only [top, map_other_other last hheartbeat]

/-- A record read at the chain it was written at is as it was given. -/
theorem record_record {r : HistoryRecord V Id} (h : r.Fits) :
    (⟨false⟩ : Convert).record last ((⟨true⟩ : Convert).record last r).1 =
      (r, ((⟨true⟩ : Convert).record last r).2) := by
  have hlast : ∀ t, ((⟨true⟩ : Convert).primary last t).2 = t := fun _ => rfl
  cases r with
  | added a =>
    have hts := primary_primary last (h a.ts (by simp [times]))
    have hstart : ∀ v ∈ a.start, ∀ t ∈ v.times, FitsInt64 t := fun v hv t ht =>
      h t (by simp_all [times])
    simp only [record, hts, hlast, map_nested_nested a.ts hstart]
  | removed index ts by_ =>
    have hts := primary_primary last (h ts (by simp [times]))
    simp only [record, hts, hlast]
  | value v => simp only [record, top_top last h]
  | modification m =>
    have htarget := primary_primary last (h m.target (by simp [times]))
    have hts := other_other m.target (h m.ts (by simp [times]))
    have horiginal : ∀ v ∈ m.original, ∀ t ∈ v.times, FitsInt64 t := fun v hv t ht =>
      h t (by simp_all [times])
    have hnew : ∀ v ∈ m.newValue, ∀ t ∈ v.times, FitsInt64 t := fun v hv t ht =>
      h t (by simp_all [times])
    simp only [record, htarget, hlast, hts, map_nested_nested m.target horiginal,
      map_nested_nested m.target hnew]

theorem primary_fits (last t : Ticks) : FitsInt64 ((⟨true⟩ : Convert).primary last t).1 := wrap_fits _

theorem other_fits (last t : Ticks) : FitsInt64 ((⟨true⟩ : Convert).other last t) := wrap_fits _

theorem nested_fits {last : Ticks} (h : t ∈ ((⟨true⟩ : Convert).nested last v).times) : FitsInt64 t := by
  rw [nested, DataValue.times_mapTimes] at h
  obtain ⟨t, -, rfl⟩ := mem_map.mp h
  exact other_fits last t

theorem top_fits {last : Ticks} (h : t ∈ ((⟨true⟩ : Convert).top last v).1.times) : FitsInt64 t := by
  obtain ⟨index, ⟨value, status, source, sourcePico, server, serverPico⟩, heartbeat, unsupported, unsourced⟩ := v
  have hmap : ∀ {l : Ticks} {x : Option Ticks}, t ∈ x.map ((⟨true⟩ : Convert).other l) → FitsInt64 t := by
    intro l x ht
    obtain ⟨t, -, rfl⟩ := mem_map.mp ht
    exact other_fits l t
  cases source with
  | some source =>
    simp only [top, DataValue.times, mem_append, mem_toList, some.injEq] at h
    obtain (rfl | h) | h := h
    · exact primary_fits _ _
    all_goals exact hmap h
  | none =>
    cases server with
    | some server =>
      simp only [top, DataValue.times, mem_append, mem_toList, some.injEq] at h
      obtain (h | rfl) | h := h
      · simp at h
      · exact primary_fits _ _
      · exact hmap h
    | none =>
      simp only [top, DataValue.times, mem_append, mem_toList] at h
      obtain (h | h) | h := h
      · simp at h
      · simp at h
      · exact hmap h

theorem record_fits (r : HistoryRecord V Id) (last : Ticks) : ((⟨true⟩ : Convert).record last r).1.Fits := by
  intro t ht
  have hnested : ∀ {l : Ticks} {x : Option (DataValue V)},
      t ∈ ((x.map ((⟨true⟩ : Convert).nested l)).toList).flatMap DataValue.times → FitsInt64 t := by
    intro l x hx
    obtain ⟨v, hv, hmem⟩ := mem_flatMap.mp hx
    obtain ⟨w, -, rfl⟩ := mem_map.mp (mem_toList.mp hv)
    exact nested_fits hmem
  cases r with
  | added a =>
    obtain rfl | ht := mem_cons.mp ht
    · exact primary_fits _ _
    · exact hnested ht
  | removed index ts by_ =>
    obtain rfl := mem_singleton.mp ht
    exact primary_fits _ _
  | value v => exact top_fits ht
  | modification m =>
    simp only [record, times, mem_cons, flatMap_append, mem_append] at ht
    obtain rfl | rfl | ht | ht := ht
    · exact primary_fits _ _
    · exact other_fits _ _
    all_goals exact hnested ht

end Undo

/-- A record as a history file holds it, the layer's two with the historian's own. -/
inductive FileRecord (V Id : Type*) where
  | fileStart (f : Records.FileStart)
  | member (r : HistoryRecord V Id)
  | checkpoint
  /-- The node index an issuing group gives next. -/
  | issued (nextNodeIndex : ℕ)
  deriving DecidableEq

namespace FileRecord

def convert (toDisk : Bool) (r : FileRecord V Id) (last : Ticks) : FileRecord V Id × Ticks :=
  match r with
  | .fileStart f => (.fileStart f, f.ts)
  | .member r =>
    let (r, last) := (⟨toDisk⟩ : Convert).record last r
    (.member r, last)
  | .checkpoint => (.checkpoint, last)
  | .issued n => (.issued n, last)

def time? : FileRecord V Id → Option Ticks
  | .member r => r.time?
  | _ => none

/-- The times a conversion changes are int64s. -/
def Fits : FileRecord V Id → Prop
  | .member r => r.Fits
  | _ => True

theorem convert_convert {r : FileRecord V Id} (last : Ticks) (h : r.Fits) :
    convert false (convert true r last).1 last = (r, (convert true r last).2) := by
  cases r with
  | member r =>
    have hrecord := record_record last h
    simp only [convert, hrecord]
  | _ => rfl

/-- Records converted in order, each with the chain after it. -/
def convertAll (toDisk : Bool) : List (FileRecord V Id) → Ticks → List (FileRecord V Id × Ticks)
  | [], _ => []
  | r :: rs, last => convert toDisk r last :: convertAll toDisk rs (convert toDisk r last).2

/-- The records come back as they were, and the two chains agree after each. -/
theorem convertAll_convertAll {rs : List (FileRecord V Id)} (last : Ticks) (h : ∀ r ∈ rs, r.Fits) :
    let disk := convertAll true rs last
    let memory := convertAll false (disk.map Prod.fst) last
    memory.map Prod.fst = rs ∧ memory.map Prod.snd = disk.map Prod.snd := by
  induction rs generalizing last with
  | nil => exact ⟨rfl, rfl⟩
  | cons r rs ih =>
    have hr := convert_convert last (h r mem_cons_self)
    have hrs := ih (convert true r last).2 fun r hr => h r (mem_cons_of_mem _ hr)
    simp only [convertAll, map_cons, hr, List.cons.injEq, true_and]
    exact hrs

/-- A new day's start between two values whose times are the least and the greatest. -/
def endToEnd : List (FileRecord ℕ ℕ) :=
  [.member (.value { index := 1, data := { sourceTimestamp := some 9223372036854775807 }, heartbeat := some 5 }),
    .fileStart { ts := -7 },
    .member (.value { index := 1, data := { serverTimestamp := some (-9223372036854775808) } }), .issued 2]

theorem endToEnd_fits : ∀ r ∈ endToEnd, r.Fits := by
  simp [endToEnd, Fits, HistoryRecord.Fits, times, DataValue.times, FitsInt64]

theorem endToEnd_undone : (∀ r ∈ endToEnd, r.Fits) ∧
    ((convertAll false ((convertAll true endToEnd (-3)).map Prod.fst) (-3)).map Prod.fst = endToEnd) :=
  ⟨endToEnd_fits, (convertAll_convertAll (-3) endToEnd_fits).1⟩

end FileRecord

/-- A member's field of the record's oneof. -/
def HistoryRecord.field : HistoryRecord V Id → ℕ
  | .added _ => 2
  | .removed .. => 3
  | .value _ => 4
  | .modification _ => 5

/-- The records' messages: what protobuf makes of them, and those it gives back as they were. -/
structure Codec (V Id : Type*) where
  serialize : FileRecord V Id → Records.Bytes
  parse : Records.Bytes → Option (FileRecord V Id)
  /-- A record with a file form; its times don't matter. -/
  valid : HistoryRecord V Id → Prop
  valid_record : ∀ r last, valid r → valid ((⟨true⟩ : Convert).record last r).1
  serialize_member : ∀ r, valid r → r.Fits → ∃ body, serialize (.member r) = frame r.field body
  parse_member : ∀ r, valid r → r.Fits → parse (serialize (.member r)) = some (.member r)
  serialize_issued : ∀ n, ∃ body, serialize (.issued n) = frame 7 body
  parse_issued : ∀ n, n < 4294967296 → parse (serialize (.issued n)) = some (.issued n)
  parse_start : ∀ f : Records.FileStart, f.InRange →
    parse (encodeStart 1 f) = some (.fileStart { f with crc := startCrc f })
  parse_checkpoint : ∀ crc, parse (encodeCheckpoint 6 crc) = some .checkpoint

/-- The historian's records as the layer has them: its FileStart is the oneof's field 1 and its
Checkpoint field 6. -/
def Codec.traits (codec : Codec V Id) : Records.Traits (FileRecord V Id) where
  startField := 1
  checkpointField := 6
  known field := decide (1 ≤ field ∧ field ≤ 7)
  time := FileRecord.time?
  toDisk := FileRecord.convert true
  toMemory := FileRecord.convert false
  setStart := .fileStart
  serialize := codec.serialize
  parse := codec.parse

/-- A record the historian writes. -/
def Codec.Own (codec : Codec V Id) : FileRecord V Id → Prop
  | .member r => codec.valid r ∧ r.Fits
  | .issued n => n < 4294967296
  | _ => False

def Codec.owner (codec : Codec V Id) : Records.Owner (FileRecord V Id) where
  toTraits := codec.traits
  own := codec.Own
  start_pos := Nat.zero_lt_one
  start_lt := by simp [Codec.traits]
  checkpoint_pos := by simp [Codec.traits]
  checkpoint_lt := by simp [Codec.traits]
  start_ne := by simp [Codec.traits]
  known_start := rfl
  known_checkpoint := rfl
  own_toDisk r s h := by
    cases r with
    | member r => exact ⟨codec.valid_record r s h.1, record_fits r s⟩
    | issued n => exact h
    | _ => exact h.elim
  toMemory_toDisk r s h := by
    cases r with
    | member r => exact FileRecord.convert_convert (r := .member r) s h.2
    | issued n => rfl
    | _ => exact h.elim
  serialize_eq r h _ := by
    cases r with
    | member r =>
      obtain ⟨body, hbody⟩ := codec.serialize_member r h.1 h.2
      refine ⟨r.field, body, hbody, ?_⟩
      cases r <;> simp [HistoryRecord.field, Codec.traits]
    | issued n =>
      obtain ⟨body, hbody⟩ := codec.serialize_issued n
      exact ⟨7, body, hbody, by simp [Codec.traits]⟩
    | _ => exact h.elim
  parse_serialize r h _ := by
    cases r with
    | member r => exact codec.parse_member r h.1 h.2
    | issued n => exact codec.parse_issued n h
    | _ => exact h.elim
  parse_start := codec.parse_start
  toMemory_start _ _ _ := rfl
  time_start _ := rfl
  parse_checkpoint crc := ⟨.checkpoint, codec.parse_checkpoint crc, fun _ => rfl⟩

end OpcHub.Historian
