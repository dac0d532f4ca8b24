import OpcHub.Log.Frames

/-! The daily file as the process knows it. An append is prepared at the size known, is
written, and is then committed. One that fails leaves some of its bytes, which the next
append cuts off; only a file nothing was known of is scanned again instead, and the scan
tells by the sizes alone whether the bytes are those of the append that failed. -/

namespace OpcHub.Log

open Lib

/-- An append handed out and not committed: where it went, and the farthest it could have written. -/
structure Outstanding where
  offset : ℕ
  end_ : ℕ
  deriving DecidableEq

structure DailyFile where
  /-- Scanned, or made by this process. -/
  opened : Bool := false
  /-- Through its last checkpoint. -/
  size : ℕ := 0
  runs : List Run := []
  /-- The size it was scanned at, with a torn tail the first append drops. -/
  unopened : Option ℕ := none
  outstanding : Option Outstanding := none
  /-- Its start's time, which names it to the archives. -/
  identity : ℕ := 0
  /-- The whole records of a torn last append, which the next append writes again. -/
  salvaged : List Rec := []
  strings : FileStrings := {}

/-- One append, between `prepare` and `commit`. -/
structure Pending where
  offset : ℕ
  frames : List Frame
  restart : Bool
  end_ : ℕ
  runs : List Run
  identity : ℕ
  strings : List StringId
  deriving DecidableEq

variable (c : Config)

/-- The records a frame can hold; the others are left out of an append. -/
def fitting (rs : List Rec) : List Rec := rs.filter fun r => c.size r ≤ maxFrameBytes

/-- The file cut to a size, or grown to it by bytes that are no frame. -/
def resize (n : ℕ) (frames : List Frame) : List Frame :=
  takeBytes c n frames ++ if bytesOf c frames < n then [.torn (n - bytesOf c frames)] else []

/-- How a write ends: all written, failed before the file was touched, or with the file cut and some bytes after it. -/
inductive Outcome where
  | written
  | untouched
  | left (bytes : ℕ)
  deriving DecidableEq

namespace DailyFile

/-- Whether the file is gone, so what was known of it goes; fails where the file holds other bytes than the process wrote. -/
def verify (file : DailyFile) (disk : Option (List Frame)) : Option Bool :=
  let actual := (disk.map (bytesOf c)).getD 0
  if actual = 0 ∧ file.size ≠ 0 then some true
  else if actual < file.size ∨ actual > file.size ∧ (file.size = 0 ∨
      ¬ ∃ o ∈ file.outstanding, o.offset = file.size ∧ actual ≤ o.end_) then none
  else some false

/-- Drops a torn tail its scan found; fails where the file is no longer the size it was scanned at. -/
def truncate (file : DailyFile) (disk : Option (List Frame)) : Option (Option (List Frame)) :=
  file.unopened.elim (some disk) fun scanned =>
    disk.bind fun frames => if bytesOf c frames = scanned then some (some (resize c file.size frames)) else none

/-- One append handed out at `offset`, reaching `end_`. -/
def hand (file : DailyFile) (offset end_ : ℕ) : DailyFile :=
  { file with
    outstanding := some ((file.outstanding.filter fun o => o.offset = offset).elim ⟨offset, end_⟩ fun o =>
      ⟨offset, max o.end_ end_⟩) }

/-- A string the file holds is left out. -/
def keeps (strings : FileStrings) (r : Rec) : Bool := (r.asStr.elim true) fun id => ¬ strings.holds id

/-- The append that writes `records` after what is known, the salvaged first; a new file starts at `now`. -/
def build (file : DailyFile) (restart : Bool) (records : List Rec) (now : ℕ) : Pending :=
  let known : DailyFile := if restart then {} else file
  let opening : List Frame := if known.size = 0 then [.start now, .checkpoint] else []
  let run := (file.salvaged ++ records).filter (keeps known.strings)
  let frames := opening ++ (fitting c run).map Frame.record ++ [.checkpoint]
  { offset := known.size
    frames := frames
    restart := restart
    end_ := known.size + bytesOf c frames
    runs := if entriesOf (fitting c run) = [] then []
      else [{ offset := known.size + bytesOf c opening, end_ := known.size + bytesOf c frames, records := fitting c run }]
    identity := if known.size = 0 then now else known.identity
    strings := stringsOf run }

/-- The strings the append looks up are marked as used. -/
def touched (file : DailyFile) (restart : Bool) (records : List Rec) : DailyFile :=
  if restart then file
  else { file with strings := (stringsOf (file.salvaged ++ records)).foldl FileStrings.touch file.strings }

/-- `Prepare`: the file as known after it, the file on disk, and the append, if there is to be one. -/
def prepare (file : DailyFile) (disk : Option (List Frame)) (records : List Rec) (now : ℕ) :
    DailyFile × Option (List Frame) × Option Pending :=
  (file.truncate c disk).elim ({ file with opened := false }, disk, none) fun disk' =>
    let cut : DailyFile := { file with unopened := none }
    (cut.verify c disk').elim ({ cut with opened := false }, disk', none) fun restart =>
      let run := cut.build c restart records now
      ((cut.touched restart records).hand run.offset run.end_, disk', some run)

def commit (file : DailyFile) (run : Pending) : DailyFile :=
  { file with
    size := run.end_
    runs := (if run.restart then [] else file.runs) ++ run.runs
    unopened := if run.restart then none else file.unopened
    outstanding := none
    identity := run.identity
    strings := run.strings.foldl FileStrings.add (if run.restart then {} else file.strings)
    salvaged := [] }

/-- An archive round has removed the file. -/
def removed (file : DailyFile) : DailyFile := { opened := true, salvaged := file.salvaged }

/-- The file's first open, by its scan: a torn tail inside the outstanding append is that append's, whose records the log
holds again. -/
def opening (was : DailyFile) (disk : Option (List Frame)) : DailyFile :=
  disk.elim { opened := true } fun frames =>
    let y := scan c {} frames
    { opened := true
      size := y.size
      runs := y.runs
      unopened := if y.size < bytesOf c frames then some (bytesOf c frames) else none
      identity := if y.size = 0 then 0 else y.start.getD 0
      salvaged := if ∃ o ∈ was.outstanding, o.offset ≤ y.size ∧ bytesOf c frames ≤ o.end_ then was.salvaged else y.torn
      strings := y.strings }

/-- The file as the next that uses it finds it. -/
def current (file : DailyFile) (disk : Option (List Frame)) : DailyFile := if file.opened then file else file.opening c disk

end DailyFile

/-- What a write leaves on disk: the file is made if it isn't there, and cut to the append's offset. -/
def Pending.write (run : Pending) (disk : Option (List Frame)) : Outcome → Option (List Frame)
  | .written => some (resize c run.offset (disk.getD []) ++ run.frames)
  | .untouched => disk
  | .left bytes => some (resize c run.offset (disk.getD []) ++ takeBytes c bytes run.frames)

variable {c}

theorem recordsOf_resize_sublist (n : ℕ) (fs : List Frame) : (recordsOf (resize c n fs)).Sublist (recordsOf fs) := by
  unfold resize
  split_ifs
  · simpa using recordsOf_takeBytes_sublist n fs
  · simpa using recordsOf_takeBytes_sublist n fs

namespace DailyFile

variable {file : DailyFile} {disk : Option (List Frame)} {records : List Rec} {now : ℕ} {r : Rec}

theorem mem_opening_salvaged (h : r ∈ (file.opening c disk).salvaged) : r ∈ file.salvaged ∨ r ∈ recordsOf (disk.getD []) := by
  cases disk with
  | none => cases h
  | some frames =>
    simp only [opening, Option.elim] at h
    split_ifs at h
    · exact .inl h
    · exact .inr ((mem_scan_torn h).resolve_left List.not_mem_nil)

theorem mem_current_salvaged (h : r ∈ (file.current c disk).salvaged) : r ∈ file.salvaged ∨ r ∈ recordsOf (disk.getD []) := by
  unfold current at h
  split_ifs at h
  · exact .inl h
  · exact mem_opening_salvaged h

theorem recordsOf_build {restart : Bool} : recordsOf (file.build c restart records now).frames =
      fitting c ((file.salvaged ++ records).filter (keeps (if restart then ({} : DailyFile) else file).strings)) := by
  unfold build
  simp only [recordsOf_append, recordsOf_map_record, recordsOf_checkpoint, List.append_nil]
  split_ifs <;> rfl

theorem mem_build {restart : Bool} (h : r ∈ recordsOf (file.build c restart records now).frames) :
    r ∈ file.salvaged ∨ r ∈ records := by
  rw [recordsOf_build] at h
  exact List.mem_append.mp (List.mem_of_mem_filter (List.mem_of_mem_filter h))

theorem truncate_records {disk' : Option (List Frame)} (h : file.truncate c disk = some disk') :
    (recordsOf (disk'.getD [])).Sublist (recordsOf (disk.getD [])) := by
  unfold truncate at h
  cases hu : file.unopened with
  | none =>
    rw [hu] at h
    exact Option.some.inj h ▸ List.Sublist.refl _
  | some scanned =>
    simp only [hu, Option.elim, Option.bind_eq_some_iff, Option.ite_none_right_eq_some, Option.some.injEq] at h
    obtain ⟨frames, rfl, -, rfl⟩ := h
    exact recordsOf_resize_sublist _ _

/-- What `prepare` leaves: the salvaged records, no more on disk than there was, and an append of records it had. -/
structure Prepared (file : DailyFile) (disk : Option (List Frame)) (records : List Rec)
    (p : DailyFile × Option (List Frame) × Option Pending) : Prop where
  salvaged : p.1.salvaged = file.salvaged
  disk : (recordsOf (p.2.1.getD [])).Sublist (recordsOf (disk.getD []))
  run : ∀ run ∈ p.2.2, ∀ r ∈ recordsOf run.frames, r ∈ file.salvaged ∨ r ∈ records

theorem prepare_prepared (file : DailyFile) (disk : Option (List Frame)) (records : List Rec) (now : ℕ) :
    Prepared file disk records (file.prepare c disk records now) := by
  unfold prepare
  cases ht : file.truncate c disk with
  | none => exact ⟨rfl, List.Sublist.refl _, nofun⟩
  | some disk' =>
    have hdisk := truncate_records ht
    dsimp only [Option.elim]
    cases hv : ({ file with unopened := none } : DailyFile).verify c disk' with
    | none => exact ⟨rfl, hdisk, nofun⟩
    | some restart =>
      refine ⟨?_, hdisk, fun run hrun r hr => ?_⟩
      · cases restart <;> rfl
      · cases hrun
        have hmem := mem_build hr
        exact hmem

end DailyFile

end OpcHub.Log
