import OpcHub.Records.Start

/-! The bytes of an append to a live file. Each record goes on the end of the
run as its owner's disk form, its times encoded against the owner's state; a run
ends in a checkpoint over its bytes. A file's first append opens it with a run
of its own, the FileStart's. A record too large for a frame is left out, and the
run goes on without it. -/

namespace OpcHub.Records

/-- A sealed append to a live file that holds a record with a time. -/
structure Run where
  offset : ℕ
  /-- Past its checkpoint. -/
  end_ : ℕ
  /-- Where the owner's state stands at `offset`. -/
  chain : ℤ
  first : ℤ
  last : ℤ
  deriving DecidableEq, Repr

/-- What the layer asks of an owner's record type, a message with a oneof. -/
structure Traits (T : Type*) where
  startField : ℕ
  checkpointField : ℕ
  known : ℕ → Bool
  /-- The record's ordering key. -/
  time : T → Option ℤ
  /-- The owner's encoding of its times against its state, in file order. -/
  toDisk : T → ℤ → T × ℤ
  toMemory : T → ℤ → T × ℤ
  setStart : FileStart → T
  serialize : T → Bytes
  parse : Bytes → Option T

/-- A record as a frame holds it, or why it is none. -/
def Traits.decode {T : Type*} (o : Traits T) (raw : Raw) : Except EStop T :=
  if o.known raw.field = false then .error .unknown
  else
    match o.parse raw.frame with
    | none => .error .body
    | some r =>
      -- a length garbled to claim the frames after it gives itself away re-measured
      if raw.field ≠ o.startField ∧ raw.field ≠ o.checkpointField ∧ (o.serialize r).length ≠ raw.frame.length then
        .error .body
      else .ok r

/-- An owner whose records, those it writes, are read back as they were written. -/
structure Owner (T : Type*) extends Traits T where
  own : T → Prop
  start_pos : 0 < startField
  start_lt : startField < 16
  checkpoint_pos : 0 < checkpointField
  checkpoint_lt : checkpointField < 16
  start_ne : startField ≠ checkpointField
  known_start : known startField = true
  known_checkpoint : known checkpointField = true
  own_toDisk : ∀ r s, own r → own (toDisk r s).1
  toMemory_toDisk : ∀ r s, own r → toMemory (toDisk r s).1 s = (r, (toDisk r s).2)
  /-- A record is the frame of its member, if it has one. -/
  serialize_eq : ∀ r, own r → serialize r ≠ [] → ∃ field body, serialize r = frame field body ∧ 0 < field ∧
    field < 536870912 ∧ known field = true ∧ field ≠ startField ∧ field ≠ checkpointField
  parse_serialize : ∀ r, own r → serialize r ≠ [] → parse (serialize r) = some r
  parse_start : ∀ f : FileStart, f.InRange →
    parse (encodeStart startField f) = some (setStart { f with crc := startCrc f })
  /-- A FileStart sets the owner's state, and has no time. -/
  toMemory_start : ∀ f s c, toMemory (setStart { f with crc := c }) s =
    (setStart { f with crc := c }, (toDisk (setStart f) s).2)
  time_start : ∀ f, time (setStart f) = none
  parse_checkpoint : ∀ crc, ∃ r, parse (encodeCheckpoint checkpointField crc) = some r ∧ ∀ s, (toMemory r s).2 = s

variable {T : Type*}

instance : Coe (Owner T) (Traits T) := ⟨Owner.toTraits⟩

/-- A span of times with one more in it. -/
def widen (span : Option (ℤ × ℤ)) (t : ℤ) : ℤ × ℤ :=
  match span with
  | none => (t, t)
  | some (first, last) => (min first t, max last t)

/-- One run in the making. -/
structure Appender (T : Type*) where
  out : Bytes := []
  chain : ℤ
  /-- The records in it, as they were given. -/
  noted : List T := []
  /-- Its times, once it holds a record with one. -/
  span : Option (ℤ × ℤ) := none

namespace Appender

/-- A new file's FileStart, every field written. -/
def start (o : Traits T) (f : FileStart) (a : Appender T) : Appender T :=
  { a with
    out := a.out ++ encodeStart o.startField f
    chain := (o.toDisk (o.setStart f) a.chain).2 }

/-- Whether a record's disk form has no frame. -/
def refuses (o : Traits T) (disk : T) : Bool :=
  decide (maxFrameBytes < (o.serialize disk).length ∨ (o.serialize disk).length = 0)

/-- A record on the end of the run; one with no frame is left out. -/
def tryAdd (o : Traits T) (a : Appender T) (r : T) : Appender T :=
  let (disk, chain) := o.toDisk r a.chain
  if refuses o disk then a
  else
    { out := a.out ++ o.serialize disk
      chain
      noted := a.noted ++ [(o.toMemory disk a.chain).1]
      span := match o.time r with
        | none => a.span
        | some t => some (widen a.span t) }

/-- The run's bytes, ended by its checkpoint. -/
def sealed (o : Traits T) (a : Appender T) : Bytes :=
  a.out ++ encodeCheckpoint o.checkpointField (calc32c a.out)

/-- The run it is in its file, when it holds a record with a time. -/
def run (a : Appender T) (offset end_ : ℕ) (chain : ℤ) : Option Run :=
  a.span.map fun (first, last) => ⟨offset, end_, chain, first, last⟩

end Appender

/-- What one sealed run is made of: a file's first has its FileStart. -/
structure Piece (T : Type*) where
  start : Option FileStart := none
  records : List T

/-- A part's first bytes. -/
def Piece.opened (o : Traits T) (chain : ℤ) (part : Piece T) : Appender T :=
  match part.start with
  | none => { chain }
  | some f => ({ chain } : Appender T).start o f

def Piece.appender (o : Traits T) (chain : ℤ) (part : Piece T) : Appender T :=
  part.records.foldl (Appender.tryAdd o) (part.opened o chain)

/-- What an append is made into: the bytes, the owner's state after them, each run that holds a record
with a time, and each sealed run's records. -/
structure Built (T : Type*) where
  bytes : Bytes := []
  chain : ℤ := 0
  runs : List Run := []
  noted : List (List T) := []

/-- One more run, sealed, for a file that holds `size` bytes before the append. -/
def Built.add (o : Traits T) (size : ℕ) (b : Built T) (part : Piece T) : Built T :=
  let a := part.appender o b.chain
  let offset := size + b.bytes.length
  let bytes := b.bytes ++ a.sealed o
  { bytes
    chain := a.chain
    runs := b.runs ++ (a.run offset (size + bytes.length) b.chain).toList
    noted := b.noted ++ [a.noted] }

/-- A new file's first run, sealed on its own: its FileStart, the prologue right after it, then its
records. -/
structure Opening (T : Type*) where
  start : FileStart
  prologue : List T
  records : List T

/-- The runs an append comes to. -/
def partsOf (opening : Option (Opening T)) (run : List T) : List (Piece T) :=
  (match opening with
    | none => []
    | some first => [⟨some first.start, first.prologue ++ first.records⟩]) ++ [⟨none, run⟩]

/-- The bytes of one append to a file holding `size` bytes, the owner's state at `chain`: with opening,
the file's first run, then `run`, sealed. -/
def buildAppend (o : Traits T) (size : ℕ) (chain : ℤ) (opening : Option (Opening T)) (run : List T) : Built T :=
  (partsOf opening run).foldl (Built.add o size) { chain }

/-- A file's runs, laid one after the other. -/
def lay (o : Traits T) (parts : List (Piece T)) : Built T := parts.foldl (Built.add o 0) {}

section Lay

variable {o : Traits T}

@[simp] theorem Built.add_bytes (size : ℕ) (b : Built T) (part : Piece T) :
    (b.add o size part).bytes = b.bytes ++ (part.appender o b.chain).sealed o := rfl

@[simp] theorem Built.add_chain (size : ℕ) (b : Built T) (part : Piece T) :
    (b.add o size part).chain = (part.appender o b.chain).chain := rfl

@[simp] theorem Built.add_noted (size : ℕ) (b : Built T) (part : Piece T) :
    (b.add o size part).noted = b.noted ++ [(part.appender o b.chain).noted] := rfl

/-- An append goes on as its file does: what is built for a file of its size is what the file's own
runs would be. -/
def Built.after (file b : Built T) : Built T :=
  { b with bytes := file.bytes ++ b.bytes, runs := file.runs ++ b.runs, noted := file.noted ++ b.noted }

theorem Built.after_add (file b : Built T) (part : Piece T) :
    (file.after b).add o 0 part = file.after (b.add o file.bytes.length part) := by
  simp only [after, add, List.append_assoc, Nat.zero_add, List.length_append]

theorem Built.after_foldl (file b : Built T) (parts : List (Piece T)) :
    parts.foldl (Built.add o 0) (file.after b) = file.after (parts.foldl (Built.add o file.bytes.length) b) := by
  induction parts generalizing b with
  | nil => rfl
  | cons part parts ih => rw [List.foldl_cons, List.foldl_cons, after_add, ih]

theorem lay_append (parts : List (Piece T)) (opening : Option (Opening T)) (run : List T) :
    lay o (parts ++ partsOf opening run) = (lay o parts).after
      (buildAppend o (lay o parts).bytes.length (lay o parts).chain opening run) := by
  have hself : (lay o parts).after { chain := (lay o parts).chain } = lay o parts := by
    simp [Built.after]
  rw [lay, List.foldl_append, buildAppend, ← Built.after_foldl, hself]
  rfl

end Lay

end OpcHub.Records
