import OpcHub.Records.Append
import OpcHub.Records.Scan

/-! The first-open scan's way through a live file's records: frame by frame from
its FileStart, keeping what the last good checkpoint proved. What is here is a
scan that holds all of the file's bytes. Over the runs an owner laid it keeps
each run; over one torn, and then perhaps filled up with zero bytes, it keeps
the runs before it and nothing else. -/

namespace OpcHub.Records

open List Appender Cursor

variable {T : Type*}

/-- What the first-open scan keeps of a file, with where the owner's state resumes and each append
holding a record with a time. -/
structure ScannedFile extends Scanned where
  /-- None when nothing was kept. -/
  start : Option FileStart := none
  chain : ℤ := 0
  runs : List Run := []
  deriving DecidableEq, Repr

/-- The owner's records parsed once, held until their checkpoint proves them. -/
structure Decoder (T : Type*) where
  state : ℤ := 0
  pending : List T := []
  /-- Those handed on, in file order. -/
  proved : List T := []

namespace Decoder

def decode (o : Traits T) (raw : Raw) (d : Decoder T) : Except EStop (Option ℤ × Decoder T) :=
  match o.decode raw with
  | .error stop => .error stop
  | .ok r =>
    let (r, state) := o.toMemory r d.state
    .ok (o.time r, { d with state, pending := d.pending ++ [r] })

def sealed (d : Decoder T) : Decoder T := { d with proved := d.proved ++ d.pending, pending := [] }

def dropped (d : Decoder T) : Decoder T := { d with pending := [] }

end Decoder

/-- The longest frame a FileStart takes. -/
def maxStartFrame : ℕ := 24

/-- The scan between two frames. -/
structure Progress (T : Type*) where
  y : ScannedFile
  /-- The next frame's. -/
  offset : ℕ := 0
  begun : Option FileStart := none
  archive : Bool := false
  /-- Of the append since the last checkpoint. -/
  crc : UInt32 := 0
  /-- The append's, once it holds a record with a time. -/
  run : Option Run := none
  decoder : Decoder T := {}

namespace Progress

/-- A scan that has read nothing. -/
def fresh (fileSize : ℕ) : Progress T where
  y := { size := 0, fileSize, stop := .end, stopOffset := 0 }

def stopped (stop : EStop) (p : Progress T) : Progress T :=
  { p with y := { p.y with stop, stopOffset := p.offset } }

def advance (raw : Raw) (p : Progress T) : Progress T := { p with offset := p.offset + raw.frame.length }

/-- The file's first frame, its FileStart. -/
def first (o : Traits T) (consumes : Bool) (raw : Raw) (p : Progress T) : Except (Progress T) (Progress T) :=
  match if raw.field = o.startField then decodeStart raw.body else none with
  | none => .error (p.stopped .noFileStart)
  | some start =>
    match p.decoder.decode o raw with
    | .error stop => .error (p.stopped stop)
    | .ok (_, decoder) =>
      let p := { p with begun := some start, decoder }
      if start.generation ≠ 0 then
        -- an archive has no checkpoints: all of it is kept
        let y := { p.y with start := some start, size := p.y.fileSize, stopOffset := p.y.fileSize }
        let p := { p with archive := true, y }
        if consumes then .ok ({ p with decoder := p.decoder.sealed }.advance raw) else .error p
      else .ok ({ p with crc := extend32c p.crc raw.frame }.advance raw)

/-- A frame of an archive. -/
def archived (o : Traits T) (raw : Raw) (p : Progress T) : Except (Progress T) (Progress T) :=
  match p.decoder.decode o raw with
  | .error stop => .error (p.stopped stop)
  | .ok (_, decoder) => .ok ({ p with decoder := decoder.sealed }.advance raw)

def checkpoint (raw : Raw) (p : Progress T) : Except (Progress T) (Progress T) :=
  match decodeCheckpoint raw.body with
  | none => .error (p.stopped .body)
  | some stored =>
    if stored ≠ p.crc then .error (p.stopped .crc)
    else
      let p := { p with decoder := p.decoder.sealed }.advance raw
      let runs := p.y.runs ++ (p.run.map fun run => { run with end_ := p.offset }).toList
      let y := { p.y with start := p.y.start <|> p.begun, size := p.offset, chain := p.decoder.state, runs }
      .ok { p with y, run := none, crc := 0 }

/-- The append's run with one more time in it; it starts where the kept bytes end. -/
def spanned (p : Progress T) (t : ℤ) : Run :=
  let run := p.run.getD ⟨p.y.size, 0, p.y.chain, t, t⟩
  { run with first := min run.first t, last := max run.last t }

def record (o : Traits T) (raw : Raw) (p : Progress T) : Except (Progress T) (Progress T) :=
  match p.decoder.decode o raw with
  | .error stop => .error (p.stopped stop)
  | .ok (t, decoder) =>
    let run := match t with
      | none => p.run
      | some t => some (p.spanned t)
    .ok ({ p with decoder, crc := extend32c p.crc raw.frame, run }.advance raw)

/-- One frame: the scan goes on past it, or is through. -/
def take (o : Traits T) (consumes : Bool) (raw : Raw) (p : Progress T) : Except (Progress T) (Progress T) :=
  if p.begun = none then p.first o consumes raw
  else if p.archive then p.archived o raw
  -- the owner writes one
  else if raw.field = o.startField then .error (p.stopped .secondStart)
  else if raw.field = o.checkpointField then p.checkpoint raw
  else p.record o raw

/-- Why a scan stops where no frame is read: a first frame cut short is a FileStart only when a
FileStart could fill it. -/
def judge (o : Traits T) (bytes : Bytes) (e : Stopped) (p : Progress T) : EStop :=
  if e.stop = .length ∧ p.offset = 0 then
    if bytes.head? ≠ some (UInt8.ofNat (makeTag o.startField)) then .noFileStart
    else if maxStartFrame < e.needed then .badLength
    else .length
  else e.stop

/-- The frames of `bytes`, the rest of the file. -/
def framesIn (o : Traits T) (consumes : Bool) : (fuel : ℕ) → Bytes → Progress T → Progress T
  | 0, _, p => p
  | fuel + 1, bytes, p =>
    match Cursor.next bytes with
    | .error e => p.stopped (p.judge o bytes e)
    | .ok raw =>
      match p.take o consumes raw with
      | .error p => p
      | .ok p => framesIn o consumes fuel (bytes.drop raw.frame.length) p

def frames (o : Traits T) (consumes : Bool) (bytes : Bytes) (p : Progress T) : Progress T :=
  framesIn o consumes (bytes.length + 1) bytes p

end Progress

section Frames

variable {o : Traits T} {consumes : Bool} {bytes : Bytes} {p q : Progress T}

open Progress

theorem framesIn_eq {fuel fuel' : ℕ} (h : bytes.length < fuel) (h' : bytes.length < fuel') :
    p.framesIn o consumes fuel bytes = p.framesIn o consumes fuel' bytes := by
  induction fuel generalizing bytes p fuel' with
  | zero => omega
  | succ fuel ih =>
    obtain ⟨fuel', rfl⟩ : ∃ n, fuel' = n + 1 := ⟨fuel' - 1, by omega⟩
    simp only [framesIn]
    split
    · rfl
    · rename_i raw hraw
      split
      · rfl
      · obtain ⟨hpre, hlen⟩ := next_length hraw
        have := hpre.length_le
        apply ih <;> rw [length_drop] <;> omega

theorem frames_of_error {e : Stopped} (h : Cursor.next bytes = .error e) :
    p.frames o consumes bytes = p.stopped (p.judge o bytes e) := by
  simp only [frames, framesIn, h]

theorem frames_of_take_error {raw : Raw} (h : Cursor.next bytes = .ok raw) (ht : p.take o consumes raw = .error q) :
    p.frames o consumes bytes = q := by
  simp only [frames, framesIn, h, ht]

theorem frames_of_take {raw : Raw} (h : Cursor.next bytes = .ok raw) (ht : p.take o consumes raw = .ok q) :
    p.frames o consumes bytes = q.frames o consumes (bytes.drop raw.frame.length) := by
  obtain ⟨hpre, hlen⟩ := next_length h
  have := hpre.length_le
  rw [frames, framesIn, h]
  dsimp only
  rw [ht]
  apply framesIn_eq <;> rw [length_drop] <;> omega

theorem frames_frame {field : ℕ} {body tail : Bytes} (h : Cursor.Framed field body)
    (ht : p.take o consumes ⟨field, frame field body, body⟩ = .ok q) :
    p.frames o consumes (frame field body ++ tail) = q.frames o consumes tail := by
  rw [frames_of_take (next_frame h tail) ht, drop_left]

end Frames

theorem makeTag_lt {field : ℕ} (h : field < 16) : makeTag field < 128 := by
  unfold makeTag
  omega

/-- The frame of a short body, for a field whose tag is one byte. -/
theorem frame_eq {field : ℕ} {body : Bytes} (hf : field < 16) (hbody : body.length < 128) :
    frame field body = UInt8.ofNat (makeTag field) :: UInt8.ofNat body.length :: body := by
  simp [frame, writeVarint, makeTag_lt hf, hbody]

theorem short_framed {field : ℕ} {body : Bytes} (hpos : 0 < field) (hf : field < 16) (hbody : body.length < 128) :
    Cursor.Framed field body := by
  refine ⟨hpos, by omega, ?_⟩
  rw [frame_eq hf hbody, length_cons, length_cons]
  unfold maxFrameBytes
  omega

/-- What the scan knows before a run: what it kept, the records proved, and those of the run already
pending, a FileStart's. -/
structure Base (T : Type*) where
  y : ScannedFile
  begun : FileStart
  pending : List T := []
  proved : List T := []

/-- The scan amid a run, as far as `a` has written it. -/
def Base.amid (base : Base T) (a : Appender T) : Progress T where
  y := base.y
  offset := base.y.size + a.out.length
  begun := some base.begun
  crc := calc32c a.out
  run := a.run base.y.size 0 base.y.chain
  decoder := { state := a.chain, pending := base.pending ++ a.noted, proved := base.proved }

/-- What the scan knows once the run is sealed. -/
def Base.next (o : Traits T) (base : Base T) (a : Appender T) : Base T where
  y := { base.y with
    start := base.y.start <|> some base.begun
    size := base.y.size + (a.sealed o).length
    chain := a.chain
    runs := base.y.runs ++ (a.run base.y.size (base.y.size + (a.sealed o).length) base.y.chain).toList }
  begun := base.begun
  proved := base.proved ++ (base.pending ++ a.noted)

/-- A record its owner writes that has a frame of its own, the owner's state at `s`. -/
structure Framing (o : Owner T) (s : ℤ) (r : T) (field : ℕ) (body : Bytes) : Prop where
  own : o.own r
  framed : Cursor.Framed field body
  known : o.known field = true
  start : field ≠ o.startField
  checkpoint : field ≠ o.checkpointField
  disk : o.serialize (o.toDisk r s).1 = frame field body

/-- A run with a record and its frame on the end. -/
def Appender.added (o : Traits T) (r : T) (bytes : Bytes) (a : Appender T) : Appender T where
  out := a.out ++ bytes
  chain := (o.toDisk r a.chain).2
  noted := a.noted ++ [r]
  span := match o.time r with
    | none => a.span
    | some t => some (widen a.span t)

/-- The bytes a run goes on with from `a` until it is `b` and sealed: its records' frames, then its
checkpoint. -/
inductive Lays (o : Owner T) : Appender T → Bytes → Appender T → Prop where
  | checkpoint (a : Appender T) : Lays o a (encodeCheckpoint o.checkpointField (calc32c a.out)) a
  | record {a b : Appender T} {bytes : Bytes} {r : T} {field : ℕ} {body : Bytes} (hr : Framing o a.chain r field body)
      (h : Lays o (a.added o r (frame field body)) bytes b) : Lays o a (frame field body ++ bytes) b

section Laid

variable {o : Owner T} {consumes : Bool} {base : Base T} {a b : Appender T} {r : T} {s : ℤ} {field : ℕ}
  {body bytes : Bytes}

theorem Framing.decode (h : Framing o s r field body) :
    o.decode ⟨field, frame field body, body⟩ = .ok (o.toDisk r s).1 := by
  have hne : o.serialize (o.toDisk r s).1 ≠ [] := by
    rw [h.disk, ← length_pos_iff, frame_length]
    have := varintSize32_pos body.length
    omega
  have hparse := o.parse_serialize _ (o.own_toDisk r s h.own) hne
  simp only [Traits.decode, h.known, Bool.true_eq_false, if_false, ← h.disk, hparse, ne_eq, not_true_eq_false,
    and_false]

/-- What adding a record comes to: nothing, or its frame on the end of the run. -/
theorem tryAdd_cases (a : Appender T) (hown : o.own r) :
    a.tryAdd o r = a ∨ ∃ field body, Framing o a.chain r field body ∧
      a.tryAdd o r = a.added o r (frame field body) := by
  by_cases hrefuses : refuses o (o.toDisk r a.chain).1
  · exact .inl (by simp [tryAdd, hrefuses])
  · refine .inr ?_
    have hsize := hrefuses
    simp only [refuses, decide_eq_true_eq, not_or, not_lt, length_eq_zero_iff] at hsize
    obtain ⟨field, body, hframe, hpos, hlt, hknown, hstart, hcheckpoint⟩ :=
      o.serialize_eq _ (o.own_toDisk r a.chain hown) hsize.2
    refine ⟨field, body, ⟨hown, ⟨hpos, hlt, hframe ▸ hsize.1⟩, hknown, hstart, hcheckpoint, hframe⟩, ?_⟩
    cases htime : o.time r <;>
      simp [tryAdd, added, hrefuses, o.toMemory_toDisk r a.chain hown, hframe, htime]

theorem Lays.sealed (h : Lays o a bytes b) : b.sealed o = a.out ++ bytes := by
  induction h with
  | checkpoint a => rfl
  | record hr _ ih => rw [ih, added, append_assoc]

theorem lays_foldl {rs : List T} (hown : ∀ r ∈ rs, o.own r) (a : Appender T) :
    ∃ bytes, Lays o a bytes (rs.foldl (tryAdd o) a) := by
  induction rs generalizing a with
  | nil => exact ⟨_, .checkpoint a⟩
  | cons r rs ih =>
    obtain ⟨bytes, hlays⟩ := ih (fun r h => hown r (mem_cons_of_mem _ h)) (a.tryAdd o r)
    rw [foldl_cons]
    obtain hsame | ⟨field, body, hr, hadd⟩ := tryAdd_cases a (hown r mem_cons_self)
    · rw [hsame] at hlays ⊢
      exact ⟨bytes, hlays⟩
    · rw [hadd] at hlays ⊢
      exact ⟨_, .record hr hlays⟩

theorem Piece.lays (part : Piece T) (hown : ∀ r ∈ part.records, o.own r) (chain : ℤ) :
    ∃ bytes, Lays o (part.opened o chain) bytes (part.appender o chain) :=
  lays_foldl hown _

theorem spanned_amid (base : Base T) (a : Appender T) (t : ℤ) : (base.amid a).spanned t =
      ⟨base.y.size, 0, base.y.chain, (widen a.span t).1, (widen a.span t).2⟩ := by
  cases hspan : a.span <;> simp [Progress.spanned, Base.amid, widen, run, hspan]

theorem take_record (h : Framing o a.chain r field body) :
    (base.amid a).take o consumes ⟨field, frame field body, body⟩ =
      .ok (base.amid (a.added o r (frame field body))) := by
  have htake : (base.amid a).take o consumes ⟨field, frame field body, body⟩ =
      (base.amid a).record o ⟨field, frame field body, body⟩ := by
    simp [Progress.take, Base.amid, h.start, h.checkpoint]
  have hdecoder : (base.amid a).decoder.decode o ⟨field, frame field body, body⟩ =
      .ok (o.time r, { (base.amid a).decoder with
        state := (o.toDisk r a.chain).2, pending := (base.amid a).decoder.pending ++ [r] }) := by
    have hstate : (base.amid a).decoder.state = a.chain := rfl
    simp only [Decoder.decode, h.decode, hstate, o.toMemory_toDisk r a.chain h.own]
  rw [htake, Progress.record, hdecoder]
  cases htime : o.time r <;>
    simp [Base.amid, Progress.advance, extend32c_calc32c, Nat.add_assoc, run, added, htime,
      ← spanned_amid]

theorem checkpoint_framed (o : Owner T) (crc : UInt32) :
    Cursor.Framed o.checkpointField (crcTag :: writeLittleEndian32 crc) :=
  short_framed o.checkpoint_pos o.checkpoint_lt (by simp)

theorem frames_checkpoint (tail : Bytes) :
    (base.amid a).frames o consumes (encodeCheckpoint o.checkpointField (calc32c a.out) ++ tail) =
      ((base.next o a).amid { chain := a.chain }).frames o consumes tail := by
  refine frames_frame (checkpoint_framed o _) ?_
  have hne := o.start_ne.symm
  cases hspan : a.span <;>
    simp [Progress.take, Progress.checkpoint, Base.amid, Base.next, hne, Progress.advance, Decoder.sealed, hspan,
      sealed, run, encodeCheckpoint, Nat.add_assoc, calc32c]

theorem frames_part (h : Lays o a bytes b) (tail : Bytes) :
    (base.amid a).frames o consumes (bytes ++ tail) =
      ((base.next o b).amid { chain := b.chain }).frames o consumes tail := by
  induction h with
  | checkpoint a => exact frames_checkpoint tail
  | record hr _ ih => rw [append_assoc, frames_frame hr.framed (take_record hr), ih]

end Laid

/-- A FileStart as the file holds it. -/
def FileStart.checked (f : FileStart) : FileStart := { f with crc := startCrc f }

/-- A FileStart's own base: nothing is kept, and the record is pending. -/
def Base.opening (o : Traits T) (fileSize : ℕ) (f : FileStart) : Base T where
  y := (Progress.fresh (T := T) fileSize).y
  begun := f.checked
  pending := [o.setStart f.checked]

/-- What the scan knows of a file's runs, once they are proved. -/
def Base.of (o : Traits T) (fileSize : ℕ) (f : FileStart) (b : Built T) : Base T where
  y :=
    { size := b.bytes.length, fileSize, stop := .end, stopOffset := 0, start := some f.checked, chain := b.chain
      runs := b.runs }
  begun := f.checked
  proved := o.setStart f.checked :: b.noted.flatten

/-- A live file's runs: the first has the file's FileStart. -/
def liveParts (f : FileStart) (first : List T) (rest : List (List T)) : List (Piece T) :=
  ⟨some f, first⟩ :: rest.map fun records => ⟨none, records⟩

/-- A live file's runs, of records its owner writes. -/
structure Writable (o : Owner T) (f : FileStart) (first : List T) (rest : List (List T)) : Prop where
  range : f.InRange
  live : f.generation = 0
  own_first : ∀ r ∈ first, o.own r
  own_rest : ∀ records ∈ rest, ∀ r ∈ records, o.own r

theorem Writable.of_subset {o : Owner T} {f : FileStart} {first : List T} {rest done : List (List T)}
    (h : Writable o f first rest) (hsub : done ⊆ rest) : Writable o f first done :=
  { h with own_rest := fun rs hrs => h.own_rest rs (hsub hrs) }

section Live

variable {o : Owner T} {consumes : Bool} {f : FileStart} {first : List T} {rest : List (List T)}

theorem FileStart.InRange.checked (h : f.InRange) : f.checked.InRange := { h with }

theorem startBody_length_le (f : FileStart) : (startBody f).length ≤ 22 := by
  have := writeVarint_length_le 10 (uint64 f.ts)
  have := writeVarint_length_le 5 f.generation
  simp only [startBody, length_cons, length_append, writeLittleEndian32_length]
  omega

theorem start_framed (o : Owner T) (f : FileStart) : Cursor.Framed o.startField (startBody f) :=
  short_framed o.start_pos o.start_lt ((startBody_length_le f).trans_lt (by decide))

theorem decode_start (h : f.InRange) :
    o.decode ⟨o.startField, encodeStart o.startField f, startBody f.checked⟩ = .ok (o.setStart f.checked) := by
  simp only [Traits.decode, o.known_start, Bool.true_eq_false, if_false, o.parse_start f h, ne_eq,
    not_true_eq_false, false_and]
  rfl

/-- The scan's way past the FileStart. -/
theorem frames_start (h : f.InRange) (hlive : f.generation = 0) (fileSize : ℕ) (tail : Bytes) :
    (Progress.fresh fileSize).frames o consumes (encodeStart o.startField f ++ tail) =
      ((Base.opening o fileSize f).amid (({ chain := 0 } : Appender T).start o f)).frames
        o consumes tail := by
  refine frames_frame (start_framed o _) ?_
  have hstart : decodeStart (startBody f.checked) = some f.checked := decodeStart_encode h
  have hdecode := decode_start (o := o) h
  have hmemory := o.toMemory_start f 0 (startCrc f)
  change o.toMemory (o.setStart f.checked) 0 = (o.setStart f.checked, _) at hmemory
  change Progress.take o.toTraits consumes
    ⟨o.startField, encodeStart o.startField f, startBody f.checked⟩ (Progress.fresh fileSize) = _
  have hgeneration : f.checked.generation = 0 := hlive
  simp [Progress.take, Progress.first, Progress.fresh, hstart, Decoder.decode, hdecode, hmemory, hgeneration,
    Progress.advance, Base.amid, Base.opening, start, run]

theorem lay_cons (o : Traits T) (f : FileStart) (first : List T) (rest : List (List T)) (records : List T) :
    lay o (liveParts f first (rest ++ [records])) = (lay o (liveParts f first rest)).add o 0 ⟨none, records⟩ := by
  simp [lay, liveParts]

theorem next_opening (o : Traits T) (fileSize : ℕ) (f : FileStart) (first : List T) :
    (Base.opening o fileSize f).next o ((⟨some f, first⟩ : Piece T).appender o 0) =
      Base.of o fileSize f (lay o (liveParts f first [])) := by
  simp [Base.opening, Base.next, Base.of, lay, liveParts, Built.add, Progress.fresh]

theorem next_of (o : Traits T) (fileSize : ℕ) (f : FileStart) (b : Built T) (records : List T) :
    (Base.of o fileSize f b).next o ((⟨none, records⟩ : Piece T).appender o b.chain) =
      Base.of o fileSize f (b.add o 0 ⟨none, records⟩) := by
  simp [Base.next, Base.of, Built.add]

/-- The scan keeps every run a live file was laid with, and goes on behind them. -/
theorem frames_lay (h : Writable o f first rest) (fileSize : ℕ) (tail : Bytes) :
    (Progress.fresh fileSize).frames o consumes
        ((lay o (liveParts f first rest)).bytes ++ tail) =
      ((Base.of o fileSize f (lay o (liveParts f first rest))).amid
        { chain := (lay o (liveParts f first rest)).chain }).frames o consumes tail := by
  induction rest using List.reverseRecOn generalizing tail with
  | nil =>
    obtain ⟨bytes, hlays⟩ := Piece.lays ⟨some f, first⟩ h.own_first 0
    have hbytes : (lay o (liveParts f first [])).bytes = encodeStart o.startField f ++ bytes := hlays.sealed
    rw [hbytes, append_assoc, frames_start h.range h.live, ← next_opening]
    exact frames_part hlays tail
  | append_singleton rest records ih =>
    obtain ⟨bytes, hlays⟩ := Piece.lays ⟨none, records⟩ (h.own_rest records (by simp))
      (lay o (liveParts f first rest)).chain
    rw [lay_cons, Built.add_bytes, append_assoc, ih (h.of_subset (subset_append_left _ _)), ← next_of,
      hlays.sealed]
    exact frames_part hlays tail

end Live

end OpcHub.Records
