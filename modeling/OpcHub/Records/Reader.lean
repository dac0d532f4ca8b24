import OpcHub.Records.Fetch

/-! A run's records, each whole and with its times absolute, from bytes fetched
a window at a time. A frame longer than a window is read whole, the window grown
to it. Whatever the windows, the records are those of the run's own bytes, and a
run its owner laid gives back what was put in it. -/

namespace OpcHub.Records

open List Cursor Appender

variable {T : Type*}

/-- What a reader's next step comes to. -/
inductive Next (T : Type*) where
  | record (r : T)
  | more
  | end_

/-- A run being read. -/
structure Reader where
  run : Run
  buffer : Buffer
  offset : ℕ
  state : ℤ
  wants : Option Window := none
  stop : Option EStop := none
  /-- The last record's member. -/
  field : ℕ := 0

namespace Reader

def ofRun (window : ℕ → ℕ) (run : Run) : Reader where
  run
  buffer := ⟨[], run.offset⟩
  offset := run.offset
  state := run.chain
  wants := if run.offset < run.end_ then some ⟨run.offset, min (window run.offset) (run.end_ - run.offset)⟩ else none

/-- Fewer bytes than wanted: the file no longer holds them. -/
def feed (w : Window) (bytes : Bytes) (r : Reader) : Reader :=
  match r.buffer.feed w bytes with
  | none => { r with stop := some .short, wants := none }
  | some buffer => { r with buffer, wants := none }

def next (o : Traits T) (window : ℕ → ℕ) (r : Reader) : Next T × Reader :=
  if r.stop.isSome then (.end_, r)
  else if r.wants.isSome then (.more, r)
  else if r.run.end_ ≤ r.offset then (.end_, { r with stop := some .end })
  else
    match Cursor.next (r.buffer.from_ r.offset) with
    | .ok raw =>
      let r := { r with field := raw.field }
      match o.decode raw with
      | .error stop => (.end_, { r with stop := some stop })
      | .ok x =>
        let (x, state) := o.toMemory x r.state
        let offset := r.offset + raw.frame.length
        (.record x, { r with state, offset, buffer := r.buffer.release window offset })
    | .error e =>
      let held := r.buffer.held
      -- the next window, or what completes a frame cut short, when the run can hold it
      if held < r.run.end_ ∧ (e.stop = .end ∨ e.stop = .length ∧ r.offset + e.needed ≤ r.run.end_) then
        let needed := if e.stop = .end then 1 else r.offset + e.needed - held
        (.more, { r with wants := some ⟨held, min (max (window held) needed) (r.run.end_ - held)⟩ })
      else (.end_, { r with stop := some e.stop })

/-- Every record of the run with its member, and why reading ended. -/
def all (o : Traits T) (window : ℕ → ℕ) (file : Bytes) : (fuel : ℕ) → Reader → Option (List (ℕ × T) × EStop)
  | 0, _ => none
  | fuel + 1, r =>
    match r.next o window with
    | (.record x, r) => (all o window file fuel r).map fun (xs, stop) => ((r.field, x) :: xs, stop)
    | (.more, r) =>
      match r.wants with
      | none => none
      | some w => all o window file fuel (r.feed w (fetchNow file w))
    | (.end_, r) => r.stop.map fun stop => ([], stop)

end Reader

/-- A run of a file, read through. -/
def readRun (o : Traits T) (window : ℕ → ℕ) (file : Bytes) (run : Run) : Option (List (ℕ × T) × EStop) :=
  (Reader.ofRun window run).all o window file (2 * (run.end_ - run.offset) + 1)

/-- The owner's own records: a merge passes over the layer's two. -/
def ownOf (o : Traits T) (xs : List (ℕ × T)) : List T :=
  (xs.filter fun x => decide (x.1 ≠ o.startField ∧ x.1 ≠ o.checkpointField)).map Prod.snd

/-- The records of bytes that are all there, the owner's state at `state`. -/
def readIn (o : Traits T) : (fuel : ℕ) → Bytes → ℤ → List (ℕ × T) × EStop
  | 0, _, _ => ([], .end)
  | fuel + 1, bytes, state =>
    match Cursor.next bytes with
    | .error e => ([], e.stop)
    | .ok raw =>
      match o.decode raw with
      | .error stop => ([], stop)
      | .ok x =>
        let rest := readIn o fuel (bytes.drop raw.frame.length) (o.toMemory x state).2
        ((raw.field, (o.toMemory x state).1) :: rest.1, rest.2)

def read (o : Traits T) (bytes : Bytes) (state : ℤ) : List (ℕ × T) × EStop := readIn o (bytes.length + 1) bytes state

section Read

variable {o : Traits T} {bytes : Bytes} {state : ℤ}

theorem readIn_eq {fuel fuel' : ℕ} (h : bytes.length < fuel) (h' : bytes.length < fuel') :
    readIn o fuel bytes state = readIn o fuel' bytes state := by
  induction fuel generalizing bytes state fuel' with
  | zero => omega
  | succ fuel ih =>
    obtain ⟨fuel', rfl⟩ : ∃ n, fuel' = n + 1 := ⟨fuel' - 1, by omega⟩
    simp only [readIn]
    split
    · rfl
    · rename_i raw hraw
      split
      · rfl
      · obtain ⟨hpre, hlen⟩ := next_length hraw
        have := hpre.length_le
        have hfewer : ∀ x, readIn o fuel (bytes.drop raw.frame.length) x = readIn o fuel' (bytes.drop raw.frame.length) x := by
          intro x
          apply ih <;> rw [length_drop] <;> omega
        rw [hfewer]

theorem read_of_error {e : Stopped} (h : Cursor.next bytes = .error e) : read o bytes state = ([], e.stop) := by
  simp only [read, readIn, h]

theorem read_of_decode_error {raw : Raw} {stop : EStop} (h : Cursor.next bytes = .ok raw)
    (hdecode : o.decode raw = .error stop) : read o bytes state = ([], stop) := by
  simp only [read, readIn, h, hdecode]

theorem read_of_decode {raw : Raw} {x : T} (h : Cursor.next bytes = .ok raw) (hdecode : o.decode raw = .ok x) :
    read o bytes state = ((raw.field, (o.toMemory x state).1) ::
      (read o (bytes.drop raw.frame.length) (o.toMemory x state).2).1,
      (read o (bytes.drop raw.frame.length) (o.toMemory x state).2).2) := by
  obtain ⟨hpre, hlen⟩ := next_length h
  have := hpre.length_le
  have hfuel : readIn o bytes.length (bytes.drop raw.frame.length) (o.toMemory x state).2 =
      read o (bytes.drop raw.frame.length) (o.toMemory x state).2 := by
    apply readIn_eq <;> rw [length_drop] <;> omega
  rw [read, readIn, h]
  dsimp only
  rw [hdecode]
  dsimp only
  rw [hfuel]

end Read

section Windows

variable {o : Traits T} {window : ℕ → ℕ} {file : Bytes} {r : Reader}

/-- A reader amid its run, which the file holds. -/
structure Reader.Follows (file : Bytes) (r : Reader) : Prop where
  holds : r.buffer.Holds file r.offset
  held_le : r.buffer.held ≤ r.run.end_
  end_le : r.run.end_ ≤ file.length
  stop : r.stop = none
  wants : ∀ w ∈ r.wants, w.offset = r.buffer.held ∧ 0 < w.size ∧ r.buffer.held + w.size ≤ r.run.end_

/-- The run's bytes still to read. -/
def Reader.rest (file : Bytes) (r : Reader) : Bytes := slice file r.offset r.run.end_

theorem Reader.Follows.rest_eq (h : r.Follows file) :
    r.rest file = r.buffer.from_ r.offset ++ slice file r.buffer.held r.run.end_ := by
  have hfrom : r.buffer.from_ r.offset = slice file r.offset r.buffer.held := by
    have hrest := h.holds.rest
    have hlen := congrArg length hrest
    rw [length_append, length_drop, length_drop] at hlen
    have := h.holds.held_le
    rw [slice, hrest, take_append_of_le_length (by omega), take_of_length_le (by omega)]
  rw [hfrom, slice_append file h.holds.offset_le h.held_le]
  rfl

/-- A window past what the reader holds. -/
def Reader.await (n : ℕ) (r : Reader) : Reader := { r with wants := some ⟨r.buffer.held, n⟩ }

open Reader

/-- What a step of a reader with no window to wait for comes to: a record of its run, a window wanted,
or the end of what the run's bytes hold. -/
theorem Reader.Follows.next (h : r.Follows file) (hwants : r.wants = none) (hwindow : ∀ n, 0 < window n) (o : Traits T) :
    (∃ x r', r.next o window = (.record x, r') ∧ r'.Follows file ∧ r'.run = r.run ∧ r.offset < r'.offset ∧
        r'.offset ≤ r.run.end_ ∧ r'.buffer.held = r.buffer.held ∧
        read o (r.rest file) r.state =
          ((r'.field, x) :: (read o (r'.rest file) r'.state).1, (read o (r'.rest file) r'.state).2)) ∨
    (∃ n, r.next o window = (.more, r.await n) ∧ 0 < n ∧ r.buffer.held + n ≤ r.run.end_) ∨
    ∃ r' stop, r.next o window = (.end_, r') ∧ r'.stop = some stop ∧ read o (r.rest file) r.state = ([], stop) := by
  have hrest := h.rest_eq
  unfold Reader.next
  rw [h.stop, hwants]
  simp only [Option.isSome_none, Bool.false_eq_true, if_false]
  by_cases hend : r.run.end_ ≤ r.offset
  · refine .inr (.inr ⟨_, .end, if_pos hend, rfl, ?_⟩)
    have hnil : r.rest file = [] := by
      rw [rest, slice, Nat.sub_eq_zero_of_le hend, take_zero]
    have hnone : Cursor.next [] = .error ⟨.end, 0⟩ := rfl
    rw [hnil, read_of_error hnone]
  · rw [if_neg hend]
    cases hnext : Cursor.next (r.buffer.from_ r.offset) with
    | ok raw =>
      have hwhole : Cursor.next (r.rest file) = .ok raw := by
        rw [hrest]
        exact next_append hnext
      dsimp only
      cases hdecode : o.decode raw with
      | error stop => exact .inr (.inr ⟨_, stop, rfl, rfl, read_of_decode_error hwhole hdecode⟩)
      | ok x =>
        obtain ⟨hpre, htwo⟩ := next_length hnext
        have hlen := hpre.length_le
        have hbase := h.holds.base_le
        have hle := h.held_le
        have hinside : r.offset + raw.frame.length ≤ r.buffer.held := by
          simp only [Buffer.from_, Buffer.held, length_drop] at *
          omega
        have hholds : r.buffer.Holds file (r.offset + raw.frame.length) :=
          ⟨h.holds.bytes, by omega, hinside, h.holds.held_le⟩
        refine .inl ⟨_, _, rfl, ⟨hholds.release window, ?_, h.end_le, rfl, by simp⟩, rfl, by simp; omega,
          hinside.trans hle, hholds.held_release window, ?_⟩
        · rw [hholds.held_release]
          exact hle
        · rw [read_of_decode hwhole hdecode]
          simp only [rest, slice_drop]
    | error e =>
      dsimp only
      by_cases hmore : r.buffer.held < r.run.end_ ∧
          (e.stop = .end ∨ e.stop = .length ∧ r.offset + e.needed ≤ r.run.end_)
      · have := hwindow r.buffer.held
        refine .inr (.inl ⟨min (max (window r.buffer.held) (if e.stop = .end then 1 else r.offset + e.needed - r.buffer.held))
          (r.run.end_ - r.buffer.held), ?_, by omega, by omega⟩)
        rw [if_pos hmore, await, h.stop]
      · refine .inr (.inr ⟨_, e.stop, if_neg hmore, rfl, ?_⟩)
        refine read_of_error ?_
        rw [hrest]
        by_cases hheld : r.buffer.held < r.run.end_
        · have hno : ¬ (e.stop = .end ∨ e.stop = .length ∧ r.offset + e.needed ≤ r.run.end_) := fun hstop =>
            hmore ⟨hheld, hstop⟩
          rw [not_or] at hno
          by_cases hlength : e.stop = .length
          · -- the run cannot hold the frame
            refine next_append_length hnext hlength ?_
            have hshort : r.run.end_ < r.offset + e.needed := Nat.not_le.mp fun hle => hno.2 ⟨hlength, hle⟩
            rw [← hrest, rest, slice, length_take, length_drop]
            omega
          · exact next_append_error hnext hlength hno.1
        · rw [slice, Nat.sub_eq_zero_of_le (Nat.not_lt.mp hheld), take_zero, append_nil]
          exact hnext

/-- However the run is cut into windows, its records are those of its bytes. -/
theorem Reader.Follows.all (h : r.Follows file) (hwindow : ∀ n, 0 < window n) (o : Traits T) {fuel : ℕ}
    (hfuel : (r.run.end_ - r.offset) + (r.run.end_ - r.buffer.held) < fuel) :
    r.all o window file fuel = some (read o (r.rest file) r.state) := by
  induction fuel generalizing r with
  | zero => omega
  | succ fuel ih =>
    have hfeed : ∀ n, 0 < n → r.buffer.held + n ≤ r.run.end_ →
        ((r.await n).feed ⟨r.buffer.held, n⟩ (fetchNow file ⟨r.buffer.held, n⟩)).all o window file fuel =
          some (read o (r.rest file) r.state) := by
      intro n hpos hle
      obtain ⟨b, hb, hholds, hheld⟩ := h.holds.feed (hle.trans h.end_le)
      rw [feed, await, hb]
      have hfed : Reader.Follows file { r with buffer := b, wants := none } :=
        ⟨hholds, by dsimp only; omega, h.end_le, h.stop, by simp⟩
      exact ih hfed (by dsimp only; omega)
    rw [all]
    cases hwants : r.wants with
    | some w =>
      obtain ⟨hoffset, hpos, hle⟩ := h.wants w hwants
      obtain ⟨n, rfl⟩ : ∃ n, w = ⟨r.buffer.held, n⟩ := ⟨w.size, by rw [← hoffset]⟩
      have hmore : r.next o window = (.more, r.await n) := by
        rw [Reader.next, if_neg (by simp [h.stop]), if_pos (by simp [hwants]), Reader.await, ← hwants]
      rw [hmore]
      exact hfeed n hpos hle
    | none =>
      obtain ⟨x, r', hnext, hfollows, hrun, hlt, hle, hheld, hread⟩ | ⟨n, hnext, hpos, hle⟩ | ⟨r', stop, hnext, hstop, hread⟩ :=
        h.next hwants hwindow o
      · rw [hnext, hread]
        dsimp only
        rw [ih hfollows (by rw [hrun, hheld]; omega)]
        rfl
      · rw [hnext]
        exact hfeed n hpos hle
      · rw [hnext, hread]
        dsimp only
        rw [hstop]
        rfl

theorem readRun_eq (hwindow : ∀ n, 0 < window n) {run : Run} (hle : run.offset ≤ run.end_)
    (hend : run.end_ ≤ file.length) (o : Traits T) :
    readRun o window file run = some (read o (slice file run.offset run.end_) run.chain) := by
  have hfollows : Reader.Follows file (ofRun window run) := by
    refine ⟨⟨List.nil_prefix, le_rfl, le_rfl, hle.trans hend⟩, hle, hend, rfl, ?_⟩
    intro w hw
    have := hwindow run.offset
    simp only [ofRun, Option.mem_def] at hw
    split at hw
    · cases hw
      refine ⟨rfl, by dsimp only; omega, ?_⟩
      simp only [ofRun, Buffer.held, length_nil]
      omega
    · simp at hw
  refine hfollows.all hwindow o ?_
  simp only [ofRun, Buffer.held, length_nil]
  omega

end Windows

/-- What a read of a run serves: the owner's own records, when it is read through. -/
def served (o : Traits T) (window : ℕ → ℕ) (file : Bytes) (run : Run) : Option (List T) :=
  (readRun o window file run).bind fun (xs, stop) => if stop = .end then some (ownOf o xs) else none

/-- Whether a run of the records has times. -/
def timed (o : Traits T) (records : List T) : Bool := records.any fun r => (o.time r).isSome

section Laid

variable {o : Owner T} {a b : Appender T} {f : FileStart} {first : List T} {rest : List (List T)} {part : Piece T}
  {bytes : Bytes}

theorem read_frame {o : Traits T} {field : ℕ} {body : Bytes} {x : T} (hframed : Cursor.Framed field body)
    (hdecode : o.decode ⟨field, frame field body, body⟩ = .ok x) (tail : Bytes) (state : ℤ) :
    read o (frame field body ++ tail) state = ((field, (o.toMemory x state).1) ::
      (read o tail (o.toMemory x state).2).1, (read o tail (o.toMemory x state).2).2) := by
  rw [read_of_decode (next_frame hframed tail) hdecode, drop_left]

theorem read_checkpoint (o : Owner T) (crc : UInt32) (state : ℤ) :
    ownOf o (read o.toTraits (encodeCheckpoint o.checkpointField crc) state).1 = [] ∧
      (read o.toTraits (encodeCheckpoint o.checkpointField crc) state).2 = .end := by
  obtain ⟨x, hparse, -⟩ := o.parse_checkpoint crc
  have hdecode : o.decode ⟨o.checkpointField, encodeCheckpoint o.checkpointField crc,
      crcTag :: writeLittleEndian32 crc⟩ = .ok x := by
    simp [Traits.decode, o.known_checkpoint, hparse]
  have hread := read_frame (checkpoint_framed o crc) hdecode [] state
  rw [append_nil] at hread
  have hnil : ∀ s, read o.toTraits [] s = ([], .end) := fun s => read_of_error (e := ⟨.end, 0⟩) rfl
  change read o.toTraits (encodeCheckpoint o.checkpointField crc) state = _ at hread
  rw [hread, hnil]
  simp [ownOf]

theorem read_sealed (h : Lays o a bytes b) :
    b.noted = a.noted ++ ownOf o (read o bytes a.chain).1 ∧
      (read o.toTraits bytes a.chain).2 = .end := by
  induction h with
  | checkpoint a =>
    obtain ⟨hnone, hend⟩ := read_checkpoint o (calc32c a.out) a.chain
    exact ⟨by rw [hnone, append_nil], hend⟩
  | @record a b bytes r field body hr _ ih =>
    obtain ⟨hnoted, hend⟩ := ih
    rw [read_frame hr.framed hr.decode, o.toMemory_toDisk r a.chain hr.own]
    refine ⟨?_, hend⟩
    rw [hnoted]
    simp [ownOf, added, hr.start, hr.checkpoint]

theorem read_part (hown : ∀ r ∈ part.records, o.own r) (hstart : ∀ f ∈ part.start, f.InRange) (chain : ℤ) :
    ownOf o (read o ((part.appender o chain).sealed o) chain).1 =
        (part.appender o chain).noted ∧
      (read o.toTraits ((part.appender o chain).sealed o) chain).2 = .end := by
  obtain ⟨bytes, hlays⟩ := part.lays hown chain
  obtain ⟨hnoted, hend⟩ := read_sealed hlays
  rw [hlays.sealed]
  obtain ⟨start, records⟩ := part
  cases start with
  | none => exact ⟨hnoted.symm, hend⟩
  | some f =>
    have hmemory := o.toMemory_start f chain (startCrc f)
    change o.toMemory (o.setStart f.checked) chain = (o.setStart f.checked, _) at hmemory
    change ownOf _ (read _ (frame o.startField (startBody f.checked) ++ bytes) chain).1 = _ ∧
      (read _ (frame o.startField (startBody f.checked) ++ bytes) chain).2 = _
    rw [read_frame (start_framed o f.checked) (decode_start (hstart f rfl)), hmemory, hnoted]
    refine ⟨?_, hend⟩
    simp [ownOf, Piece.opened, start]

theorem Lays.span_isSome (h : Lays o a bytes b) (hspan : a.span.isSome = timed o a.noted) :
    b.span.isSome = timed o b.noted := by
  induction h with
  | checkpoint a => exact hspan
  | @record a b bytes r field body hr _ ih =>
    refine ih ?_
    cases htime : o.time r <;> simp [added, timed, htime, hspan]

theorem appender_span (hown : ∀ r ∈ part.records, o.own r) (chain : ℤ) :
    (part.appender o chain).span.isSome = timed o (part.appender o chain).noted := by
  obtain ⟨bytes, hlays⟩ := part.lays hown chain
  refine hlays.span_isSome ?_
  obtain ⟨start, records⟩ := part
  cases start <;> rfl

theorem served_add {b : Built T} {file : Bytes} {window : ℕ → ℕ} (hwindow : ∀ n, 0 < window n)
    (hown : ∀ r ∈ part.records, o.own r) (hstart : ∀ f ∈ part.start, f.InRange)
    (hfile : (b.add o 0 part).bytes <+: file)
    (hb : b.runs.map (served o window file) = (b.noted.filter (timed o)).map some) :
    (b.add o 0 part).runs.map (served o window file) =
      ((b.add o 0 part).noted.filter (timed o)).map some := by
  have hspan := appender_span (o := o) hown b.chain
  rw [Built.add_noted, filter_append, map_append, ← hb]
  simp only [Built.add, map_append]
  congr 1
  cases hrun : (part.appender o b.chain).span with
  | none =>
    simp [run, hrun, ← hspan]
  | some times =>
    obtain ⟨hread, hstop⟩ := read_part hown hstart b.chain
    obtain ⟨more, rfl⟩ := hfile
    have hslice : slice (b.bytes ++ (part.appender o b.chain).sealed o ++ more) (0 + b.bytes.length)
        (0 + (b.bytes ++ (part.appender o b.chain).sealed o).length) =
          (part.appender o b.chain).sealed o := by
      simp [slice, append_assoc]
    have hserved : served o window (b.bytes ++ (part.appender o b.chain).sealed o ++ more)
        ⟨0 + b.bytes.length, 0 + (b.bytes ++ (part.appender o b.chain).sealed o).length, b.chain,
          times.1, times.2⟩ = some (part.appender o b.chain).noted := by
      rw [served, readRun_eq hwindow (by simp) (by simp), hslice]
      simp [hstop, hread]
    simp [run, hrun, ← hspan, ← hserved]

theorem served_lay (h : Writable o f first rest) {file : Bytes} {window : ℕ → ℕ} (hwindow : ∀ n, 0 < window n)
    (hfile : (lay o (liveParts f first rest)).bytes <+: file) :
    (lay o (liveParts f first rest)).runs.map (served o window file) =
      ((lay o (liveParts f first rest)).noted.filter (timed o)).map some := by
  induction rest using reverseRecOn with
  | nil => exact served_add hwindow h.own_first (by simpa using h.range) hfile rfl
  | append_singleton rest records ih =>
    rw [lay_cons] at hfile ⊢
    exact served_add hwindow (h.own_rest records (by simp)) (by simp) hfile
      (ih (h.of_subset (subset_append_left _ _)) ((prefix_append _ _).trans hfile))

end Laid

end OpcHub.Records
