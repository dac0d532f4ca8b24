import OpcHub.Historian.Deltas
import OpcHub.Records.FileState

/-! A live day file as the process keeps it and as a first open would find it.
Each append is built for the size and chain known, written, and committed; the
file's size, chain, runs and preamble are then brought up from what was built,
and never read back. They are what a scan of the same bytes gives, in whatever
windows, and each run is read back from its own offset and chain. -/

namespace OpcHub.Historian

open Lib Records List HistoryRecord

variable {V Id : Type*}

/-- What a flush gives one append to a day's file. -/
structure Flushed (V Id : Type*) where
  /-- What a file with nothing kept opens with. -/
  preamble : List (HistoryRecord V Id) := []
  run : List (HistoryRecord V Id)
  /-- What an issuing group gives next; else 0. -/
  nextIndex : NodeIndex := 0
  /-- Whether the file is a modifications file, whose index is its value file's. -/
  mods : Bool := false

/-- How a file with nothing kept opens. -/
def Flushed.opening (start : Ticks) (x : Flushed V Id) : Records.Opening (FileRecord V Id) where
  start := { ts := start }
  prologue := if x.nextIndex ≠ 0 ∧ x.mods = false then [.issued (x.nextIndex % 4294967296)] else []
  records := x.preamble.map .member

/-- The entry of a preamble record of the day that starts at `start`. -/
def FileRecord.listed? (start : Ticks) : FileRecord V Id → Option (NodeIndex × Listed V Id)
  | .member r => (r.preambled? start).map fun a => (a.index, ⟨a.node, a.start⟩)
  | _ => none

/-- A live day file: what the process knows of it, and what the disk holds. -/
structure LiveFile (V Id : Type*) where
  file : Records.FileState ℤ Records.Run := {}
  preamble : Preamble V Id := ∅
  disk : Records.Bytes := []

/-- An append to the file, written and committed. -/
def LiveFile.append (codec : Codec V Id) (start : Ticks) (live : LiveFile V Id) (x : Flushed V Id) : LiveFile V Id :=
  let opening := if live.file.size = 0 then some (x.opening start) else none
  let built := buildAppend codec.traits live.file.size live.file.chain opening (x.run.map .member)
  let end_ := live.file.size + built.bytes.length
  -- each noted record of the preamble, in the run's order
  let listed := built.noted.flatten.filterMap (FileRecord.listed? start)
  { file := (live.file.hand live.file.size end_).committed end_ built.chain built.runs
    preamble := listed.foldl (fun m e => m.insert e.1 e.2) live.preamble
    disk := live.disk.take live.file.size ++ built.bytes }

/-- The preamble a first open makes of the records its scan proved. -/
def openedPreamble (start : Ticks) (proved : List (FileRecord V Id)) : Preamble V Id :=
  proved.foldl (fun m r => match r.listed? start with
    | some e => m.insert e.1 e.2
    | none => m) ∅

/-- The records given for each run of a file. -/
def givenRuns (start : Ticks) : List (Flushed V Id) → List (List (FileRecord V Id))
  | [] => []
  | x :: xs => ((x.opening start).prologue ++ (x.opening start).records) :: (x :: xs).map fun y => y.run.map .member

/-- An append whose records have a file form. -/
structure Flushed.Valid (codec : Codec V Id) (x : Flushed V Id) : Prop where
  preamble : ∀ r ∈ x.preamble, codec.valid r ∧ r.Fits
  run : ∀ r ∈ x.run, codec.valid r ∧ r.Fits

section Rebuilt

variable {codec : Codec V Id} {start : Ticks}

/-- The append as the layer takes it. -/
def Flushed.toAppend (start : Ticks) (x : Flushed V Id) : Records.Append (FileRecord V Id) :=
  ⟨x.opening start, x.run.map .member⟩

theorem Flushed.Valid.writes {x : Flushed V Id} (h : x.Valid codec) (hstart : FitsInt64 start) :
    (x.toAppend start).Writes codec.owner := by
  refine ⟨⟨hstart.1, hstart.2, show 0 < 4294967296 by decide⟩, rfl, fun r hr => ?_, fun r hr => ?_⟩
  · obtain hr | hr := mem_append.mp hr
    · simp only [toAppend, opening] at hr
      split at hr
      · obtain rfl := mem_singleton.mp hr
        exact Nat.mod_lt _ (by decide)
      · simp at hr
    · obtain ⟨r, hmem, rfl⟩ := mem_map.mp hr
      exact h.preamble r hmem
  · obtain ⟨r, hmem, rfl⟩ := mem_map.mp hr
    exact h.run r hmem

theorem openedPreamble_eq (proved : List (FileRecord V Id)) (m : Preamble V Id) :
    proved.foldl (fun m r => match r.listed? start with
      | some e => m.insert e.1 e.2
      | none => m) m =
    (proved.filterMap (FileRecord.listed? start)).foldl (fun m e => m.insert e.1 e.2) m := by
  induction proved generalizing m with
  | nil => rfl
  | cons r proved ih =>
    rw [foldl_cons, ih]
    cases hr : r.listed? start <;> simp [hr]

/-- What the process knows of a file is what its appends built. -/
structure LiveFile.Knows (start : Ticks) (live : LiveFile V Id) (b : Records.Built (FileRecord V Id)) : Prop where
  disk : live.disk = b.bytes
  size : live.file.size = b.bytes.length
  chain : live.file.chain = b.chain
  runs : live.file.runs = b.runs
  preamble : live.preamble = openedPreamble start b.noted.flatten

theorem LiveFile.Knows.append {live : LiveFile V Id} {b : Records.Built (FileRecord V Id)} (h : live.Knows start b)
    (x : Flushed V Id) : (live.append codec start x).Knows start (b.append codec.traits (x.toAppend start)) := by
  have hopening : (if live.file.size = 0 then some (x.opening start) else none) =
      if b.bytes = [] then some (x.toAppend start).opening else none := by
    simp [h.size, Flushed.toAppend]
  have hbuilt : buildAppend codec.traits live.file.size live.file.chain
      (if live.file.size = 0 then some (x.opening start) else none) (x.run.map .member) =
      buildAppend codec.traits b.bytes.length b.chain
        (if b.bytes = [] then some (x.toAppend start).opening else none) (x.toAppend start).run := by
    rw [hopening, h.size, h.chain]
    rfl
  simp only [LiveFile.append, hbuilt]
  refine ⟨?_, ?_, rfl, ?_, ?_⟩
  · simp [h.disk, h.size, Records.Built.append, Records.Built.after]
  · simp [h.size, Records.FileState.committed, Records.Built.append, Records.Built.after]
  · simp [h.runs, Records.FileState.committed, Records.FileState.hand, Records.Built.append, Records.Built.after]
  · rw [h.preamble, openedPreamble, openedPreamble, openedPreamble_eq, openedPreamble_eq, ← foldl_append,
      ← filterMap_append, ← flatten_append]
    rfl

theorem LiveFile.knows_appends (codec : Codec V Id) (xs : List (Flushed V Id)) :
    (xs.foldl (LiveFile.append codec start) {}).Knows start
      (appendAll codec.traits (xs.map (Flushed.toAppend start)) {}) := by
  induction xs using List.reverseRecOn with
  | nil => exact ⟨rfl, rfl, rfl, rfl, rfl⟩
  | append_singleton xs x ih =>
    rw [foldl_append, map_append, appendAll, foldl_append]
    exact ih.append x

/-- What the process knows of a file is what a first open's scan finds, and each run reads back as the
records it was given, those no frame holds left out. -/
structure LiveFile.Rebuilt (codec : Codec V Id) (start : Ticks) (window : ℕ → ℕ) (xs : List (Flushed V Id))
    (live : LiveFile V Id) (p : Records.Progress (FileRecord V Id)) : Prop where
  whole : p.y.size = live.disk.length
  size : p.y.size = live.file.size
  chain : p.y.chain = live.file.chain
  runs : p.y.runs = live.file.runs
  preamble : openedPreamble start p.decoder.proved = live.preamble
  served : live.file.runs.map (served codec.traits window live.disk) =
    ((heldRuns codec.traits start (givenRuns start xs)).filter (timed codec.traits)).map some

theorem openedPreamble_fileStart {α : Type*} (x : Option α) (f : Records.FileStart) (proved : List (FileRecord V Id)) :
    openedPreamble start ((x.map fun _ => .fileStart f).toList ++ proved) = openedPreamble start proved := by
  cases x <;> rfl

/-- Committed appends leave a file known as its first open would know it. -/
theorem appends_rebuilt (codec : Codec V Id) (start : Ticks) (hstart : FitsInt64 start) (xs : List (Flushed V Id))
    (hvalid : ∀ x ∈ xs, x.Valid codec) (consumes : Bool) (window : ℕ → ℕ) (hwindow : ∀ n, 0 < window n)
    (sealedWindow : ℕ) (hsealed : 0 < sealedWindow) :
    ∃ p, scan codec.traits consumes window sealedWindow (xs.foldl (LiveFile.append codec start) {}).disk = .ok p ∧
      (xs.foldl (LiveFile.append codec start) {}).Rebuilt codec start window xs p := by
  have hknows : LiveFile.Knows start _ _ := LiveFile.knows_appends codec xs
  cases xs with
  | nil =>
    obtain ⟨p, hscan, hkeeps⟩ := scan_nil codec.owner consumes hwindow hsealed {}
    refine ⟨p, hscan, ?_, ?_, ?_, ?_, ?_, rfl⟩
    · rw [hkeeps.y]
      rfl
    · rw [hkeeps.y]
      rfl
    · rw [hkeeps.y]
      rfl
    · rw [hkeeps.y]
      rfl
    · rw [hkeeps.proved]
      rfl
  | cons x xs =>
    have hwrites : ∀ y ∈ (x :: xs).map (Flushed.toAppend start), y.Writes codec.owner := by
      intro y hy
      obtain ⟨z, hz, rfl⟩ := mem_map.mp hy
      exact (hvalid z hz).writes hstart
    rw [map_cons] at hknows hwrites
    have hwritable := Records.Append.writable hwrites
    rw [appendAll_eq] at hknows
    have hnoted := (lay_noted hwritable).1
    have hserved := served_lay hwritable hwindow (prefix_refl _)
    rw [hnoted] at hserved
    obtain ⟨p, hscan, hkeeps, -⟩ := scan_lay hwritable consumes hwindow hsealed
    refine ⟨p, hknows.disk ▸ hscan, ?_, ?_, ?_, ?_, ?_, ?_⟩
    · rw [hkeeps.y, hknows.disk]
      rfl
    · rw [hkeeps.y, hknows.size]
      rfl
    · rw [hkeeps.y, hknows.chain]
      rfl
    · rw [hkeeps.y, hknows.runs]
      rfl
    · rw [hkeeps.proved, hknows.preamble]
      exact openedPreamble_fileStart _ _ _
    · rw [hknows.runs, hknows.disk]
      refine hserved.trans ?_
      rw [map_map]
      rfl

end Rebuilt

/-- A codec of joins with no writer and no type and of bare source times, each field a varint. -/
def tinySerialize : FileRecord ℕ ℕ → Records.Bytes
  | .member (.added a) => frame 2 (writeVarint 10 a.index ++ (writeVarint 10 a.node ++
      writeVarint 10 (uint64 a.ts)))
  | .member (.value v) => frame 4 (writeVarint 10 v.index ++
      writeVarint 10 (uint64 (v.data.sourceTimestamp.getD 0)))
  | .issued n => frame 7 (writeVarint 10 n)
  | _ => []

def tinyParse (bytes : Records.Bytes) : Option (FileRecord ℕ ℕ) :=
  match Records.Cursor.next bytes with
  | .error _ => none
  | .ok raw =>
    match raw.field with
    | 1 => (mergeStart raw.body.length raw.body {}).map .fileStart
    | 2 =>
      (readVarint 10 raw.body).bind fun (index, n) =>
        (readVarint 10 (raw.body.drop n)).bind fun (node, m) =>
          (readVarint 10 ((raw.body.drop n).drop m)).map fun x =>
            .member (.added { index, node, ts := int64 x.1 })
    | 4 =>
      (readVarint 10 raw.body).bind fun (index, n) =>
        (readVarint 10 (raw.body.drop n)).map fun x =>
          .member (.value { index, data := { sourceTimestamp := some (int64 x.1) } })
    | 6 => some .checkpoint
    | 7 => (readVarint 10 raw.body).map fun x => .issued x.1
    | _ => none

def TinyValid : HistoryRecord ℕ ℕ → Prop
  | .added a => a.index < 4294967296 ∧ a.node < 4294967296 ∧ a.by_ = none ∧ a.dataType = 0 ∧ a.start = none
  | .value v => v.index < 4294967296 ∧ ∃ t, v = { index := v.index, data := { sourceTimestamp := some t } }
  | _ => False

theorem readVarint_small {n : ℕ} (hn : n < 4294967296) (more : Records.Bytes) :
    readVarint 10 (writeVarint 10 n ++ more) = some (n, (writeVarint 10 n).length) :=
  readVarint_write (by decide) (hn.trans (by decide)) le_rfl

theorem tiny_next (field : ℕ) (body : Records.Bytes) (hpos : 0 < field) (hf : field < 16) (hbody : body.length < 128) :
    Records.Cursor.next (frame field body) = .ok ⟨field, frame field body, body⟩ := by
  have hnext := Records.Cursor.next_frame (short_framed hpos hf hbody) []
  rwa [append_nil] at hnext

variable (r : HistoryRecord ℕ ℕ)

theorem tiny_valid_record (last : Ticks) (h : TinyValid r) : TinyValid ((⟨true⟩ : Convert).record last r).1 := by
  cases r with
  | added a =>
    obtain ⟨hindex, hnode, hby, htype, hstart⟩ := h
    exact ⟨hindex, hnode, hby, htype, by simp [hstart]⟩
  | value v =>
    obtain ⟨hindex, t, hv⟩ := h
    rw [hv]
    exact ⟨hindex, _, rfl⟩
  | _ => exact h.elim

theorem tiny_serialize_member (h : TinyValid r) : ∃ body, tinySerialize (.member r) = frame r.field body := by
  cases r with
  | added | value => exact ⟨_, rfl⟩
  | _ => exact h.elim

theorem tiny_parse_member (h : TinyValid r) (hfits : r.Fits) :
    tinyParse (tinySerialize (.member r)) = some (.member r) := by
  have hlen := writeVarint_length_le 10
  cases r with
  | added a =>
    obtain ⟨hindex, hnode, hby, htype, hstart⟩ := h
    have hts := hfits a.ts (by simp [times])
    have hread := readVarint_ts a.ts []
    rw [append_nil] at hread
    have hnext := tiny_next 2 (writeVarint 10 a.index ++ (writeVarint 10 a.node ++
      writeVarint 10 (uint64 a.ts))) (by decide) (by decide) (by
        have h₀ := hlen a.index
        have h₁ := hlen a.node
        have h₂ := hlen (uint64 a.ts)
        simp only [length_append]
        omega)
    obtain ⟨index, node, ts, by_, dataType, start⟩ := a
    subst hby htype hstart
    simp [tinySerialize, tinyParse, hnext, readVarint_small hindex, readVarint_small hnode, hread,
      int64_uint64 hts.1 hts.2]
  | value v =>
    obtain ⟨hindex, t, hv⟩ := h
    have ht := hfits t (by rw [hv]; simp [times, DataValue.times])
    have hread := readVarint_ts t []
    rw [append_nil] at hread
    have hnext := tiny_next 4 (writeVarint 10 v.index ++
      writeVarint 10 (uint64 t)) (by decide) (by decide) (by
        have h₀ := hlen v.index
        have h₁ := hlen (uint64 t)
        simp only [length_append]
        omega)
    generalize v.index = index at *
    subst hv
    simp [tinySerialize, tinyParse, hnext, readVarint_small hindex, hread, int64_uint64 ht.1 ht.2]
  | _ => exact h.elim

theorem tiny_parse_issued (n : ℕ) (hn : n < 4294967296) : tinyParse (tinySerialize (.issued n)) = some (.issued n) := by
  have hread := readVarint_small hn []
  rw [append_nil] at hread
  have hnext := tiny_next 7 _ (by decide) (by decide)
    ((writeVarint_length_le 10 n).trans_lt (by decide))
  simp [tinySerialize, tinyParse, hnext, hread]

theorem tiny_parse_start (f : Records.FileStart) (hf : f.InRange) :
    tinyParse (encodeStart 1 f) = some (.fileStart { f with crc := startCrc f }) := by
  have hnext := tiny_next 1 _ (by decide) (by decide)
    ((startBody_length_le f.checked).trans_lt (by decide))
  obtain ⟨fuel, hfuel⟩ := three_le_startBody f.checked
  change tinyParse (frame 1 (startBody f.checked)) = _
  simp only [tinyParse, hnext, hfuel, mergeStart_body hf.checked]
  rfl

theorem tiny_parse_checkpoint (crc : UInt32) : tinyParse (encodeCheckpoint 6 crc) = some .checkpoint := by
  have hnext := tiny_next 6 (crcTag :: writeLittleEndian32 crc)
    (by decide) (by decide) (by simp)
  change tinyParse (frame 6 _) = _
  simp only [tinyParse, hnext]

def tinyCodec : Codec ℕ ℕ where
  serialize := tinySerialize
  parse := tinyParse
  valid := TinyValid
  valid_record := tiny_valid_record
  serialize_member r h _ := tiny_serialize_member r h
  parse_member := tiny_parse_member
  serialize_issued _ := ⟨_, rfl⟩
  parse_issued := tiny_parse_issued
  parse_start := tiny_parse_start
  parse_checkpoint := tiny_parse_checkpoint

/-- A source time of member 1. -/
def timeOf (t : Ticks) : HistoryRecord ℕ ℕ := .value { index := 1, data := { sourceTimestamp := some t } }

/-- A file's opening with its one member and a run out of order, then an append. -/
def morning : List (Flushed ℕ ℕ) :=
  [{ preamble := [.added { index := 1, node := 7, ts := 1000 }], run := [timeOf 1050, timeOf 1030], nextIndex := 2 },
    { run := [timeOf 1040] }]

theorem timeOf_valid {t : Ticks} (h : FitsInt64 t) : tinyCodec.valid (timeOf t) ∧ (timeOf t).Fits := by
  refine ⟨⟨show 1 < 4294967296 by decide, t, rfl⟩, fun u hu => ?_⟩
  obtain rfl : u = t := by simpa [timeOf, times, DataValue.times] using hu
  exact h

theorem morning_valid : ∀ x ∈ morning, x.Valid tinyCodec := by
  intro x hx
  simp only [morning, mem_cons, not_mem_nil, or_false] at hx
  obtain rfl | rfl := hx
  · refine ⟨fun r hr => ?_, fun r hr => ?_⟩
    · obtain rfl := mem_singleton.mp hr
      refine ⟨⟨by decide, by decide, rfl, rfl, rfl⟩, fun t ht => ?_⟩
      obtain rfl : t = 1000 := by simpa [times] using ht
      exact ⟨by decide, by decide⟩
    · obtain rfl | rfl : r = timeOf 1050 ∨ r = timeOf 1030 := by simpa using hr
      all_goals exact timeOf_valid ⟨by decide, by decide⟩
  · refine ⟨by simp, fun r hr => ?_⟩
    obtain rfl := mem_singleton.mp hr
    exact timeOf_valid ⟨by decide, by decide⟩

/-- In windows of one to three bytes. -/
theorem morning_rebuilt : ∃ p, scan tinyCodec.traits true (fun n => n % 3 + 1) 5
        (morning.foldl (LiveFile.append tinyCodec 1000) {}).disk = .ok p ∧
      (morning.foldl (LiveFile.append tinyCodec 1000) {}).Rebuilt tinyCodec 1000 (fun n => n % 3 + 1) morning p :=
  appends_rebuilt tinyCodec 1000 ⟨by decide, by decide⟩ morning morning_valid true (fun n => n % 3 + 1)
    (fun _ => Nat.succ_pos _) 5 (by decide)

end OpcHub.Historian
