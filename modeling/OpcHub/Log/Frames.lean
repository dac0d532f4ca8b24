import OpcHub.Lib.OrdMap
import OpcHub.Lib.StableSort
import Mathlib.Algebra.BigOperators.Group.List.Basic
import Mathlib.Algebra.Order.Ring.Nat

/-! The records of the log, and its daily file as a list of frames. A frame is a record's
bytes, the file's start or the checkpoint that seals an append; a write that fails
part-way leaves whole frames and some bytes of the next. The first-open scan keeps the
file through its last checkpoint, and hands out the whole records after it. -/

namespace OpcHub.Log

open Lib

/-- Counted from `TimePoint::min()`. -/
abbrev TimePoint := Fin 18446744073709551616

def TimePoint.ofNat (n : ℕ) : TimePoint := ⟨n % 18446744073709551616, Nat.mod_lt n (by decide)⟩

def TimePoint.min : TimePoint := TimePoint.ofNat 0

def TimePoint.max : TimePoint := TimePoint.ofNat 18446744073709551615

@[simp] theorem TimePoint.min_le (t : TimePoint) : TimePoint.min ≤ t := Nat.zero_le t.val

/-- The md5 of a text. -/
abbrev StringId := ℕ

/-- An entry as a file stores it, with the ids of its texts; `none` is an argument that is its own value. -/
structure Entry where
  /-- Which of the log's entries it is. -/
  seq : ℕ
  time : TimePoint
  template : StringId
  file : Option StringId := none
  function : Option StringId := none
  args : List (Option StringId) := []
  deriving DecidableEq

/-- Every id the entry names. -/
def Entry.ids (e : Entry) : List StringId :=
  e.template :: (e.file.toList ++ e.function.toList ++ e.args.filterMap id)

/-- A `FileEntry`, but for those that are the file's own. -/
inductive Rec where
  | str (id : StringId)
  | entry (e : Entry)
  deriving DecidableEq

namespace Rec

def asEntry : Rec → Option Entry
  | .str _ => none
  | .entry e => some e

def asStr : Rec → Option StringId
  | .str id => some id
  | .entry _ => none

end Rec

def entriesOf (rs : List Rec) : List Entry := rs.filterMap Rec.asEntry

def stringsOf (rs : List Rec) : List StringId := rs.filterMap Rec.asStr

/-- What the log is set up with: the bytes its records take, the cap of its buffer, and the day of a time in its zone. -/
structure Config where
  size : Rec → ℕ
  startSize : ℕ → ℕ
  maxSize : ℕ
  day : TimePoint → ℕ
  size_pos : ∀ r, 0 < size r
  startSize_pos : ∀ ts, 0 < startSize ts

/-- The most a frame may hold. -/
def maxFrameBytes : ℕ := 16777216

def checkpointBytes : ℕ := 7

inductive Frame where
  | start (ts : ℕ)
  | record (r : Rec)
  | checkpoint
  /-- The first bytes of a frame. -/
  | torn (bytes : ℕ)
  deriving DecidableEq

variable (c : Config)

def Frame.bytes : Frame → ℕ
  | .start ts => c.startSize ts
  | .record r => c.size r
  | .checkpoint => checkpointBytes
  | .torn bytes => bytes

def bytesOf (frames : List Frame) : ℕ := (frames.map (Frame.bytes c)).sum

/-- A file's first bytes. -/
def takeBytes : ℕ → List Frame → List Frame
  | _, [] => []
  | n, f :: fs => if f.bytes c ≤ n then f :: takeBytes (n - f.bytes c) fs else if n = 0 then [] else [.torn n]

/-- One append that holds an entry: where it is in the file, and its records. -/
structure Run where
  offset : ℕ
  end_ : ℕ
  records : List Rec
  deriving DecidableEq

/-- Where each record of an append ends. -/
def ends : ℕ → List Rec → List (ℕ × Rec)
  | _, [] => []
  | offset, r :: rs => (offset + c.size r, r) :: ends (offset + c.size r) rs

/-- The ids of the strings a file holds, each with its last use: the newer half stays when they pass the cap. -/
structure FileStrings where
  ids : OrdMap StringId ℕ := ∅
  sequence : ℕ := 0

namespace FileStrings

def cap : ℕ := 131072

def holds (s : FileStrings) (id : StringId) : Bool := s.ids.contains id

/-- `Holds` marks what it finds as used. -/
def touch (s : FileStrings) (id : StringId) : FileStrings :=
  if s.holds id then { ids := s.ids.insert id (s.sequence + 1), sequence := s.sequence + 1 } else s

/-- The use in the middle of all, in their order. -/
def middle (s : FileStrings) : ℕ := ((stableSort id s.ids.values).drop (s.ids.values.length / 2)).headD 0

def add (s : FileStrings) (id : StringId) : FileStrings :=
  let t : FileStrings := { ids := s.ids.insert id (s.sequence + 1), sequence := s.sequence + 1 }
  if t.ids.values.length ≤ cap then t else { t with ids := t.ids.filter fun _ use => ¬ use < t.middle }

end FileStrings

/-- What a scan has found through `offset`. -/
structure Scanned where
  offset : ℕ := 0
  start : Option ℕ := none
  /-- Through the last checkpoint. -/
  size : ℕ := 0
  runs : List Run := []
  strings : FileStrings := {}
  /-- The whole records since. -/
  torn : List Rec := []

/-- A checkpoint proves the records since the last. -/
def Scanned.seal (y : Scanned) : Scanned :=
  { y with
    offset := y.offset + checkpointBytes
    size := y.offset + checkpointBytes
    runs := if entriesOf y.torn = [] then y.runs
      else y.runs ++ [{ offset := y.size, end_ := y.offset + checkpointBytes, records := y.torn }]
    strings := (stringsOf y.torn).foldl FileStrings.add y.strings
    torn := [] }

/-- The scan's way through the frames: it stops at bytes that are no frame, and at a second start. -/
def scan : Scanned → List Frame → Scanned
  | y, [] => y
  | y, .start ts :: fs =>
    if y.start.isSome then y else scan { y with offset := y.offset + c.startSize ts, start := some ts } fs
  | y, .record r :: fs =>
    if y.start.isSome then scan { y with offset := y.offset + c.size r, torn := y.torn ++ [r] } fs else y
  | y, .checkpoint :: fs => if y.start.isSome then scan y.seal fs else y
  | y, .torn _ :: _ => y

variable {c}

def Frame.record? : Frame → Option Rec
  | .record r => some r
  | .start _ => none
  | .checkpoint => none
  | .torn _ => none

/-- The whole records of a file. -/
def recordsOf (frames : List Frame) : List Rec := frames.filterMap Frame.record?

@[simp] theorem recordsOf_nil : recordsOf [] = [] := rfl

theorem recordsOf_cons (f : Frame) (fs : List Frame) : recordsOf (f :: fs) = f.record?.toList ++ recordsOf fs := by
  cases f <;> rfl

@[simp] theorem recordsOf_append (fs gs : List Frame) : recordsOf (fs ++ gs) = recordsOf fs ++ recordsOf gs :=
  List.filterMap_append

@[simp] theorem recordsOf_map_record (rs : List Rec) : recordsOf (rs.map .record) = rs := by
  induction rs with
  | nil => rfl
  | cons r rs ih => exact congrArg (r :: ·) ih

@[simp] theorem recordsOf_torn (n : ℕ) : recordsOf [.torn n] = [] := rfl

@[simp] theorem recordsOf_checkpoint : recordsOf [.checkpoint] = [] := rfl

theorem recordsOf_takeBytes_sublist (n : ℕ) (fs : List Frame) : (recordsOf (takeBytes c n fs)).Sublist (recordsOf fs) := by
  induction fs generalizing n with
  | nil => exact List.Sublist.refl _
  | cons f fs ih =>
    rw [takeBytes]
    split_ifs
    · rw [recordsOf_cons, recordsOf_cons]
      exact (List.Sublist.refl _).append (ih _)
    · exact List.nil_sublist _
    · exact List.nil_sublist _

theorem mem_scan_torn {y : Scanned} {fs : List Frame} {r : Rec} (h : r ∈ (scan c y fs).torn) : r ∈ y.torn ∨ r ∈ recordsOf fs := by
  induction fs generalizing y with
  | nil => exact .inl h
  | cons f fs ih =>
    cases f with
    | start ts =>
      rw [scan] at h
      split_ifs at h
      · exact .inl h
      · have hmem := ih h
        exact hmem
    | record r' =>
      rw [scan] at h
      split_ifs at h
      · have hmem := ih h
        simp only [List.mem_append, List.mem_singleton, or_assoc] at hmem
        exact hmem.imp_right List.mem_cons.mpr
      · exact .inl h
    | checkpoint =>
      rw [scan] at h
      split_ifs at h
      · exact .inr ((ih h).resolve_left List.not_mem_nil)
      · exact .inl h
    | torn n => exact .inl h

end OpcHub.Log
