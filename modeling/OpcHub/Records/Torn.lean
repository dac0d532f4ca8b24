import OpcHub.Records.Frames

/-! The scan of a live file cut at any byte, and then perhaps filled up with
zero bytes, as a crash leaves one. A torn run proves nothing: its checkpoint is
not there, or is not its own, and what is garbled of it is followed by zero
bytes only. So the scan keeps the whole runs before it. A torn FileStart is the
exception: zero bytes can make it a frame, and the scan then takes the file for
another program's. -/

namespace OpcHub.Records

open List Cursor Progress Base UInt8

variable {T : Type*}

/-- A run that is not there whole is cut. -/
theorem lt_of_not_starts {run bytes tail : Bytes} {c : ℕ} (hrun : run <+: bytes) (h : ¬ run <+: bytes.take c ++ tail) :
    c < run.length := by
  by_contra hc
  exact h ((prefix_take_iff.mpr ⟨hrun, Nat.not_lt.mp hc⟩).trans (prefix_append _ _))

/-- A scan that stopped at `offset` or past it, having kept what it had before the run. -/
structure Base.Kept (base : Base T) (offset : ℕ) (p : Progress T) : Prop where
  y : p.y = { base.y with stop := p.y.stop, stopOffset := p.y.stopOffset }
  proved : p.decoder.proved = base.proved
  le : offset ≤ p.y.stopOffset

section Torn

variable {o : Owner T} {consumes : Bool} {base : Base T} {a : Appender T} {p : Progress T}

variable {offset : ℕ}

theorem Base.kept_stopped (hy : p.y = base.y) (hproved : p.decoder.proved = base.proved)
    (hle : offset ≤ p.offset) (stop : EStop) : base.Kept offset (p.stopped stop) :=
  ⟨by simp only [stopped, hy], hproved, hle⟩

theorem next_zero (z : ℕ) : Cursor.next (replicate (z + 1) 0) = .error ⟨.empty, 0⟩ := by
  simp [Cursor.next, Cursor.head, replicate_succ]

theorem next_zeros (z : ℕ) : ∃ e, Cursor.next (replicate z 0) = .error e := by
  cases z with
  | zero => exact ⟨_, rfl⟩
  | succ z => exact ⟨_, next_zero z⟩

theorem frames_zeros (hy : p.y = base.y) (hproved : p.decoder.proved = base.proved)
    (hle : offset ≤ p.offset) (z : ℕ) :
    base.Kept offset (p.frames o consumes (replicate z 0)) := by
  obtain ⟨e, he⟩ := next_zeros z
  rw [frames_of_error he]
  exact kept_stopped hy hproved hle _

theorem take_record_kept {raw : Raw} (hstart : raw.field ≠ o.startField) (hcheckpoint : raw.field ≠ o.checkpointField) :
    (∃ stop, (base.amid a).take o consumes raw = .error ((base.amid a).stopped stop)) ∨
      ∃ q, (base.amid a).take o consumes raw = .ok q ∧ q.y = base.y ∧
        q.decoder.proved = base.proved ∧ (base.amid a).offset ≤ q.offset := by
  have htake : (base.amid a).take o consumes raw = (base.amid a).record o raw := by
    simp [Progress.take, amid, hstart, hcheckpoint]
  rw [htake, record]
  cases hdecode : (base.amid a).decoder.decode o raw with
  | error stop => exact .inl ⟨stop, rfl⟩
  | ok x =>
    obtain ⟨t, decoder⟩ := x
    refine .inr ⟨_, rfl, rfl, ?_, Nat.le_add_right _ _⟩
    simp only [Decoder.decode] at hdecode
    split at hdecode
    · simp at hdecode
    · simp only [Except.ok.injEq, Prod.mk.injEq] at hdecode
      rw [← hdecode.2]
      rfl

variable {field c n z : ℕ} {body : Bytes}

theorem frames_torn_record (hframed : Cursor.Framed field body)
    (hstart : field ≠ o.startField) (hcheckpoint : field ≠ o.checkpointField)
    (hc : c < (frame field body).length) (z : ℕ) :
    base.Kept (base.amid a).offset
      ((base.amid a).frames o consumes ((frame field body).take c ++ replicate z 0)) := by
  cases hnext : Cursor.next ((frame field body).take c ++ replicate z 0) with
  | error e =>
    rw [frames_of_error hnext]
    exact kept_stopped rfl rfl le_rfl _
  | ok raw =>
    obtain ⟨hfield, hle, -⟩ := next_take_zeros hframed hc hnext
    obtain ⟨stop, ht⟩ | ⟨q, ht, hy, hproved, hoffset⟩ :
        (∃ stop, (base.amid a).take o consumes raw = .error ((base.amid a).stopped stop)) ∨ _ :=
      take_record_kept (hfield ▸ hstart) (hfield ▸ hcheckpoint)
    · rw [frames_of_take_error hnext ht]
      exact kept_stopped rfl rfl le_rfl _
    · -- what was left of the frame is gone through, and zero bytes follow
      rw [frames_of_take hnext ht, drop_append, drop_of_length_le (by simp; omega), nil_append,
        drop_replicate]
      exact frames_zeros hy hproved hoffset _

/-- A body that reads as a checkpoint's is the one written for what it holds. -/
theorem decodeCheckpoint_eq_some {crc : UInt32} (h : decodeCheckpoint body = some crc) :
    body = crcTag :: writeLittleEndian32 crc := by
  unfold decodeCheckpoint at h
  split at h
  · rename_i tag b₀ b₁ b₂ b₃
    split at h
    · rename_i htag
      rw [← Option.some.inj h, writeLittleEndian32_read, htag]
    · simp at h
  · simp at h

theorem varintSize32_of_lt {v : ℕ} (h : v < 128) : varintSize32 v = 1 := by simp [varintSize32, writeVarint, h]

theorem readVarint32_short {v : ℕ} (h : v < 128) (rest : Bytes) :
    readVarint32 (ofNat v :: rest) = some (v, varintSize32 v) := by
  have hwrite : writeVarint 5 v = [ofNat v] := by simp [writeVarint, h]
  have hread : readVarint32 (writeVarint 5 v ++ rest) = some (v, varintSize32 v) := readVarint32_write (by omega)
  rwa [hwrite] at hread

theorem tag_ne_zero (hf : field < 16) (rest : Bytes) : (ofNat (makeTag field) :: rest).head? ≠ some 0 := by
  have hzero := head?_writeVarint_ne_zero field rest
  rwa [writeVarint, if_pos (makeTag_lt hf), singleton_append] at hzero

theorem head_short (hpos : 0 < field) (hf : field < 16) (hn : n < 128) (bytes : Bytes) :
    Cursor.head (ofNat (makeTag field) :: ofNat n :: bytes) = .ok ⟨field, 2, n⟩ := by
  have htag := makeTag_lt hf
  rw [head_of_tag (tag_ne_zero hf _) hpos (readVarint32_short htag _), varintSize32_of_lt htag, drop_one,
    tail_cons, readVarint32_short hn]
  dsimp only
  rw [varintSize32_of_lt hn, if_neg (by simp [maxFrameBytes]; omega)]

theorem next_tag (hpos : 0 < field) (hf : field < 16) :
    Cursor.next [ofNat (makeTag field)] = .error ⟨.length, 2⟩ := by
  have htag := makeTag_lt hf
  rw [Cursor.next, head_of_tag (tag_ne_zero hf _) hpos (readVarint32_short htag _), varintSize32_of_lt htag]
  rfl

/-- A frame read of a field whose tag is one byte, when its length is one byte too. -/
theorem next_short (hpos : 0 < field) (hf : field < 16) (hn : n < 128) (bytes : Bytes) :
    Cursor.next (ofNat (makeTag field) :: ofNat n :: bytes) =
      if bytes.length < n then .error ⟨.length, n + 2⟩
      else .ok ⟨field, ofNat (makeTag field) :: ofNat n :: bytes.take n, bytes.take n⟩ := by
  rw [Cursor.next, head_short hpos hf hn]
  simp only [length_cons, Nat.add_comm 2 n, drop_succ_cons, drop_zero, take_succ_cons]
  congr 1
  exact propext ⟨fun h => by omega, fun h => by omega⟩

theorem next_lost (hpos : 0 < field) (hf : field < 16) (bytes : Bytes) :
    Cursor.next (ofNat (makeTag field) :: 0 :: bytes) =
      .ok ⟨field, [ofNat (makeTag field), 0], []⟩ := by
  have h := next_short hpos hf (show 0 < 128 by decide) bytes
  simpa using h

/-- A short frame cut short and filled up with zero bytes: it is no frame, or its length is lost, or it
is one of its length. -/
theorem next_torn_short (hf : field < 16) (hbody : body.length < 128) (hc : 0 < c) :
    ((frame field body).take c ++ replicate z 0 = [ofNat (makeTag field)] ∧ c = 1 ∧ z = 0) ∨
    (∃ more, (frame field body).take c ++ replicate z 0 = ofNat (makeTag field) :: 0 :: more ∧ c = 1 ∧ 0 < z) ∨
    (frame field body).take c ++ replicate z 0 =
      ofNat (makeTag field) :: ofNat body.length :: (body.take (c - 2) ++ replicate z 0) ∧ 2 ≤ c := by
  rw [frame_eq hf hbody]
  match c, z, hc with
  | 1, 0, _ => exact .inl ⟨rfl, rfl, rfl⟩
  | 1, z + 1, _ => exact .inr (.inl ⟨replicate z 0, rfl, rfl, Nat.succ_pos z⟩)
  | k + 2, z, _ => exact .inr (.inr ⟨rfl, Nat.le_add_left 2 k⟩)

/-- A short frame cut short and filled up with zero bytes that is read with its own body is whole. -/
theorem short_of_isPrefix (hpos : 0 < field) (hf : field < 16) (hbody : body.length < 128)
    (hne : body ≠ []) {raw : Raw} (hnext : Cursor.next ((frame field body).take c ++ replicate z 0) = .ok raw)
    (hraw : raw.body = body) : frame field body <+: (frame field body).take c ++ replicate z 0 := by
  obtain rfl | hc := Nat.eq_zero_or_pos c
  · obtain ⟨e, he⟩ := next_zeros z
    rw [take_zero, nil_append, he] at hnext
    simp at hnext
  obtain ⟨heq, -, -⟩ | ⟨more, heq, -, -⟩ | ⟨heq, -⟩ := next_torn_short (z := z) hf hbody hc
  · rw [heq, next_tag hpos hf] at hnext
    simp at hnext
  · rw [heq, next_lost hpos hf] at hnext
    cases hnext
    exact absurd hraw.symm hne
  · rw [heq] at hnext ⊢
    rw [next_short hpos hf hbody] at hnext
    split at hnext
    · simp at hnext
    · cases hnext
      rw [frame_eq hf hbody]
      refine cons_prefix_cons.mpr ⟨rfl, cons_prefix_cons.mpr ⟨rfl, ?_⟩⟩
      have hpre := take_prefix body.length (body.take (c - 2) ++ replicate z 0)
      dsimp only at hraw
      rwa [hraw] at hpre

/-- A torn checkpoint, and zero bytes: one that reads as its run's is whole. -/
theorem frames_torn_checkpoint (hwhole : ¬ encodeCheckpoint o.checkpointField (calc32c a.out) <+:
      (encodeCheckpoint o.checkpointField (calc32c a.out)).take c ++ replicate z 0) :
    base.Kept (base.amid a).offset ((base.amid a).frames o consumes
      ((encodeCheckpoint o.checkpointField (calc32c a.out)).take c ++ replicate z 0)) := by
  have hc : c < (encodeCheckpoint o.checkpointField (calc32c a.out)).length :=
    lt_of_not_starts (prefix_refl _) hwhole
  cases hnext : Cursor.next ((encodeCheckpoint o.checkpointField (calc32c a.out)).take c ++ replicate z 0) with
  | error e =>
    rw [frames_of_error hnext]
    exact kept_stopped rfl rfl le_rfl _
  | ok raw =>
    obtain ⟨hfield, -, -⟩ := next_take_zeros (checkpoint_framed o _) hc hnext
    have hcrc : decodeCheckpoint raw.body ≠ some (calc32c a.out) := by
      exact fun hdecode => hwhole (short_of_isPrefix o.checkpoint_pos o.checkpoint_lt (by simp) (by simp) hnext
        (decodeCheckpoint_eq_some hdecode))
    have htake : ∃ stop, (base.amid a).take o consumes raw = .error ((base.amid a).stopped stop) := by
      have hne := o.start_ne.symm
      simp only [Progress.take, amid, hfield, hne, reduceCtorEq, if_false, Bool.false_eq_true, if_true,
        Progress.checkpoint]
      cases hdecode : decodeCheckpoint raw.body with
      | none => exact ⟨_, rfl⟩
      | some stored =>
        rw [hdecode] at hcrc
        exact ⟨.crc, if_pos fun h => hcrc (congrArg some h)⟩
    obtain ⟨stop, ht⟩ := htake
    rw [frames_of_take_error hnext ht]
    exact kept_stopped rfl rfl le_rfl _

theorem Base.Kept.mono {m : ℕ} (h : base.Kept n p) (hle : m ≤ n) : base.Kept m p := ⟨h.y, h.proved, hle.trans h.le⟩

/-- A torn run proves nothing. -/
theorem frames_torn {b : Appender T} {bytes : Bytes} (h : Lays o a bytes b)
    (hwhole : ¬ bytes <+: bytes.take c ++ replicate z 0) :
    base.Kept (base.amid a).offset
      ((base.amid a).frames o consumes (bytes.take c ++ replicate z 0)) := by
  induction h generalizing c with
  | checkpoint a => exact frames_torn_checkpoint hwhole
  | @record a b rest r field body hr _ ih =>
    rw [take_append] at hwhole ⊢
    obtain hc | hc := Nat.lt_or_ge c (frame field body).length
    · rw [Nat.sub_eq_zero_of_le hc.le, take_zero, append_nil]
      exact frames_torn_record hr.framed hr.start hr.checkpoint hc z
    · rw [take_of_length_le hc, append_assoc] at hwhole ⊢
      rw [frames_frame hr.framed (take_record hr)]
      rw [prefix_append_right_inj] at hwhole
      refine (ih hwhole).mono ?_
      simp [Appender.added, amid]

end Torn

/-- The whole runs a file begins with, laid on those of `b`. -/
def whole (o : Traits T) (file : Bytes) : List (Piece T) → Built T → Built T
  | [], b => b
  | part :: parts, b =>
    if (b.add o 0 part).bytes <+: file then whole o file parts (b.add o 0 part) else b

section Cut

variable {o : Owner T} {consumes : Bool} {f : FileStart} {fileSize : ℕ}

theorem foldl_add_bytes (o : Traits T) (parts : List (Piece T)) (b : Built T) :
    b.bytes <+: (parts.foldl (Built.add o 0) b).bytes := by
  induction parts generalizing b with
  | nil => exact prefix_refl _
  | cons part parts ih => exact (prefix_append _ _).trans (ih (b.add o 0 part))

/-- What is left of a cut file past a run it holds whole is the rest of the runs, cut. -/
theorem take_append_replicate {run rest : Bytes} {c z : ℕ}
    (h : run <+: (run ++ rest).take c ++ replicate z (0 : UInt8)) :
    ∃ c' z', (run ++ rest).take c ++ replicate z 0 = run ++ (rest.take c' ++ replicate z' 0) := by
  obtain hc | hc := Nat.lt_or_ge c run.length
  · -- the zero bytes stand for the run's last
    refine ⟨0, z - (run.length - c), ?_⟩
    obtain ⟨tail, htail⟩ := h
    rw [take_append_of_le_length hc.le] at htail ⊢
    have hdrop := congrArg (drop run.length) htail
    rw [drop_left, drop_append, drop_of_length_le (length_take_le c run |>.trans hc.le), nil_append,
      drop_replicate, length_take, Nat.min_eq_left hc.le] at hdrop
    rw [← htail, hdrop, take_zero, nil_append]
  · exact ⟨c - run.length, z, by
      rw [take_append, take_of_length_le hc, append_assoc]⟩

/-- The scan of a cut file keeps the whole runs it begins with. -/
theorem frames_cut {rest : List (List T)} (hown : ∀ records ∈ rest, ∀ r ∈ records, o.own r) (b : Built T)
    {bytes : Bytes} {c z : ℕ}
    (hbytes : ((rest.map fun records => (⟨none, records⟩ : Piece T)).foldl (Built.add o 0) b).bytes =
      b.bytes ++ bytes) :
    (of o fileSize f (whole o (b.bytes ++ (bytes.take c ++ replicate z 0))
      (rest.map fun records => ⟨none, records⟩) b)).Kept b.bytes.length
        (((of o fileSize f b).amid { chain := b.chain }).frames o consumes
          (bytes.take c ++ replicate z 0)) := by
  induction rest generalizing b bytes c z with
  | nil =>
    obtain rfl : bytes = [] := by simpa using hbytes
    rw [take_nil, nil_append]
    exact frames_zeros rfl rfl (Nat.le_add_right _ _) z
  | cons records rest ih =>
    have hrecords := hown records mem_cons_self
    have hrest : ∀ records ∈ rest, ∀ r ∈ records, o.own r := fun rs h => hown rs (mem_cons_of_mem _ h)
    rw [map_cons, foldl_cons] at hbytes
    obtain ⟨more, hmore⟩ := foldl_add_bytes o (rest.map fun records => (⟨none, records⟩ : Piece T))
      (b.add o 0 ⟨none, records⟩)
    rw [← hmore, Built.add_bytes, append_assoc] at hbytes
    obtain rfl := append_cancel_left hbytes
    obtain ⟨run, hlays⟩ := Piece.lays ⟨none, records⟩ hrecords b.chain
    have hpart : ((⟨none, records⟩ : Piece T).appender o b.chain).sealed o = run := hlays.sealed
    rw [map_cons, whole, hpart]
    split
    · rename_i hpre
      rw [Built.add_bytes, hpart, prefix_append_right_inj] at hpre
      obtain ⟨c', z', hcut⟩ := take_append_replicate hpre
      have hrun := ih hrest (b.add o 0 ⟨none, records⟩) (c := c') (z := z') hmore.symm
      rw [Built.add_bytes, hpart, append_assoc] at hrun
      have hnext : ((of o fileSize f b).amid { chain := b.chain }).frames o consumes _ = _ :=
        frames_part hlays (more.take c' ++ replicate z' 0)
      rw [hcut, hnext, next_of]
      exact hrun.mono (by simp)
    · rename_i hpre
      rw [Built.add_bytes, hpart, prefix_append_right_inj] at hpre
      -- the run is torn: what is there of it is its own bytes, and zero bytes
      have hc := lt_of_not_starts (prefix_append _ _) hpre
      rw [take_append_of_le_length hc.le] at hpre ⊢
      exact (frames_torn hlays hpre).mono (Nat.le_add_right _ _)

end Cut

/-- A scan's outcome that keeps the runs of `b`, with the file's FileStart if there is one. -/
structure Keeps (o : Traits T) (fileSize : ℕ) (f : FileStart) (b : Built T) (p : Progress T) : Prop where
  y : p.y =
    { size := b.bytes.length, fileSize, stop := p.y.stop, stopOffset := p.y.stopOffset
      start := b.noted.head?.map fun _ => f.checked
      chain := b.chain
      runs := b.runs }
  proved : p.decoder.proved = (b.noted.head?.map fun _ => o.setStart f.checked).toList ++ b.noted.flatten

/-- Zero bytes that make a torn FileStart a frame, and not its own. -/
structure Garbled (frame : Bytes) (c z : ℕ) : Prop where
  pos : 0 < c
  lt : c < frame.length
  framed : c = 1 ∧ 0 < z ∨ frame.length ≤ c + z
  other : ¬ frame <+: frame.take c ++ List.replicate z 0

section File

variable {o : Owner T} {consumes : Bool} {f : FileStart} {first : List T} {rest : List (List T)} {fileSize : ℕ}
  {p : Progress T} {b : Built T}

theorem Keeps.of_kept {offset : ℕ} (hb : b.noted ≠ []) (h : (of o fileSize f b).Kept offset p) :
    Keeps o fileSize f b p := by
  obtain ⟨x, xs, hx⟩ := exists_cons_of_ne_nil hb
  refine ⟨?_, ?_⟩
  · rw [h.y]
    simp [of, hx]
  · rw [h.proved]
    simp [of, hx]

/-- Nothing is kept of a file amid its first run. -/
theorem Keeps.of_opening {offset : ℕ} (h : (opening o fileSize f).Kept offset p) :
    Keeps o fileSize f {} p :=
  ⟨h.y, h.proved⟩

theorem whole_noted (o : Traits T) (file : Bytes) (parts : List (Piece T)) (b : Built T) (hb : b.noted ≠ []) :
    (whole o file parts b).noted ≠ [] := by
  induction parts generalizing b with
  | nil => exact hb
  | cons part parts ih =>
    rw [whole]
    split
    · exact ih _ (by simp)
    · exact hb

theorem foldl_tryAdd_out (o : Traits T) (rs : List T) (a : Appender T) : a.out <+: (rs.foldl (Appender.tryAdd o) a).out := by
  induction rs generalizing a with
  | nil => exact prefix_refl _
  | cons r rs ih =>
    refine List.IsPrefix.trans ?_ (ih (a.tryAdd o r))
    simp only [Appender.tryAdd]
    split
    · exact prefix_refl _
    · exact prefix_append _ _

/-- A live file begins with its FileStart's frame. -/
theorem lay_start (o : Traits T) (f : FileStart) (first : List T) (rest : List (List T)) :
    encodeStart o.startField f <+: (lay o (liveParts f first rest)).bytes := by
  have hfirst : encodeStart o.startField f <+: (lay o (liveParts f first [])).bytes :=
    (foldl_tryAdd_out o first (({ chain := 0 } : Appender T).start o f)).trans (prefix_append _ _)
  exact hfirst.trans (foldl_add_bytes o _ _)

variable {file : Bytes}

/-- A cut file that begins with its FileStart keeps its whole runs. -/
theorem frames_file (h : Writable o f first rest) {c z : ℕ}
    (hfile : file = (lay o (liveParts f first rest)).bytes.take c ++ replicate z 0)
    (hstart : encodeStart o.startField f <+: file) :
    Keeps o fileSize f (whole o file (liveParts f first rest) {})
        ((fresh fileSize).frames o consumes file) ∧
      0 < ((fresh fileSize).frames o.toTraits consumes file).y.stopOffset := by
  obtain ⟨run, hlays⟩ := Piece.lays ⟨some f, first⟩ h.own_first 0
  have hrun : (lay o (liveParts f first [])).bytes = encodeStart o.startField f ++ run := hlays.sealed
  obtain ⟨more, hmore⟩ := foldl_add_bytes o (rest.map fun records => (⟨none, records⟩ : Piece T))
    (lay o (liveParts f first []))
  have hbytes : (lay o (liveParts f first rest)).bytes = encodeStart o.startField f ++ (run ++ more) := by
    rw [← append_assoc, ← hrun, hmore]
    rfl
  have hpos : 0 < (encodeStart o.startField f).length := by
    rw [encodeStart, frame_length]
    have := varintSize32_pos (makeTag o.startField)
    omega
  rw [hbytes] at hfile
  obtain ⟨c', z', hcut⟩ := take_append_replicate (hfile ▸ hstart)
  rw [hcut] at hfile
  have hadd : (({} : Built T).add o 0 ⟨some f, first⟩) = lay o (liveParts f first []) := rfl
  rw [liveParts, whole, hadd, hrun]
  simp only [hfile, frames_start h.range h.live, prefix_append_right_inj]
  split
  · rename_i hwhole
    obtain ⟨c'', z'', hcut'⟩ := take_append_replicate hwhole
    have hkept : (of o fileSize f _).Kept _ (frames o.toTraits consumes _ _) :=
      frames_cut h.own_rest (lay o (liveParts f first [])) (c := c'') (z := z'') hmore.symm
    rw [hrun, append_assoc] at hkept
    have hnext : ((opening o fileSize f).amid (({ chain := 0 } : Appender T).start o f)).frames
        o consumes _ = _ := frames_part hlays (more.take c'' ++ replicate z'' 0)
    rw [next_opening] at hnext
    rw [hcut', hnext]
    refine ⟨Keeps.of_kept (whole_noted _ _ _ _ (by simp [← hadd])) hkept, lt_of_lt_of_le ?_ hkept.le⟩
    rw [length_append]
    omega
  · rename_i hwhole
    have hc := lt_of_not_starts (prefix_append _ _) hwhole
    rw [take_append_of_le_length hc.le] at hwhole ⊢
    have hkept : (opening o fileSize f).Kept _ (frames o.toTraits consumes _ _) :=
      frames_torn hlays hwhole
    exact ⟨Keeps.of_opening hkept, lt_of_lt_of_le (Nat.add_pos_right _ hpos) hkept.le⟩

/-- A cut file that does not begin with its FileStart keeps nothing. -/
theorem whole_eq_empty (hstart : ¬ encodeStart o.startField f <+: file) :
    whole o file (liveParts f first rest) {} = {} := by
  have hadd : (({} : Built T).add o 0 ⟨some f, first⟩) = lay o (liveParts f first []) := rfl
  rw [liveParts, whole, hadd, if_neg fun h => hstart ((lay_start _ _ _ _).trans h)]

theorem decodeStart_nil : decodeStart [] = none := by
  decide +kernel

theorem frames_noFileStart {raw : Raw} (hnext : Cursor.next file = .ok raw) (hnone : decodeStart raw.body = none) :
    (Progress.fresh fileSize : Progress T).frames o consumes file = (Progress.fresh fileSize).stopped .noFileStart := by
  refine frames_of_take_error hnext ?_
  simp [Progress.take, Progress.fresh, Progress.first, hnone]

/-- A torn FileStart: the scan stops at it, as at a torn frame, or as at another program's. -/
theorem frames_torn_start (hrange : f.InRange) (hlive : f.generation = 0) {c z : ℕ}
    (hstart : ¬ encodeStart o.startField f <+: (encodeStart o.startField f).take c ++ replicate z 0) :
    ∃ stop, (fresh fileSize : Progress T).frames o consumes
        ((encodeStart o.startField f).take c ++ replicate z 0) = (fresh fileSize).stopped stop ∧
      (Garbled (encodeStart o.startField f) c z ∧ stop = .noFileStart ∨
        ¬ Garbled (encodeStart o.startField f) c z ∧
          (stop = .length ∨ stop = .empty ∨ (encodeStart o.startField f).take c ++ replicate z (0 : UInt8) = [])) := by
  have hframe : encodeStart o.startField f = frame o.startField (startBody f.checked) := rfl
  rw [hframe] at hstart ⊢
  have hlt : c < (frame o.startField (startBody f.checked)).length :=
    lt_of_not_starts (prefix_refl _) hstart
  have hbody := startBody_length_le f.checked
  have hshort : (startBody f.checked).length < 128 := by omega
  have hlen : (frame o.startField (startBody f.checked)).length = (startBody f.checked).length + 2 := by
    rw [frame_eq o.start_lt hshort, length_cons, length_cons]
  obtain rfl | hc := Nat.eq_zero_or_pos c
  · have hgarbled : ¬ Garbled (frame o.startField (startBody f.checked)) 0 z := fun h => Nat.lt_irrefl _ h.pos
    cases z with
    | zero => exact ⟨.end, rfl, .inr ⟨hgarbled, .inr (.inr rfl)⟩⟩
    | succ z => exact ⟨.empty, frames_of_error (next_zero z), .inr ⟨hgarbled, .inr (.inl rfl)⟩⟩
  obtain ⟨heq, rfl, rfl⟩ | ⟨more, heq, rfl, hz⟩ | ⟨heq, htwo⟩ := next_torn_short (z := z) o.start_lt hshort hc
  · refine ⟨.length, ?_, .inr ⟨fun h => ?_, .inl rfl⟩⟩
    · rw [heq, frames_of_error (next_tag o.start_pos o.start_lt)]
      simp [judge, fresh, maxStartFrame]
    · obtain ⟨-, hz⟩ | hle := h.framed <;> omega
  · exact ⟨.noFileStart, by rw [heq, frames_noFileStart (next_lost o.start_pos o.start_lt more) decodeStart_nil],
      .inl ⟨⟨hc, hlt, .inl ⟨rfl, hz⟩, hstart⟩, rfl⟩⟩
  · have hnext := next_short o.start_pos o.start_lt hshort
      ((startBody f.checked).take (c - 2) ++ replicate z 0)
    have hroom : ((startBody f.checked).take (c - 2) ++ replicate z (0 : UInt8)).length = c - 2 + z := by
      rw [length_append, length_take, length_replicate]
      omega
    split at hnext
    · refine ⟨.length, ?_, .inr ⟨fun h => ?_, .inl rfl⟩⟩
      · rw [heq, frames_of_error hnext]
        have hneeded : ¬ maxStartFrame < (startBody f.checked).length + 2 := by
          unfold maxStartFrame
          omega
        simp [judge, fresh, hneeded]
      · obtain ⟨hone, -⟩ | hle := h.framed <;> omega
    · have hfill : ((startBody f.checked).take (c - 2) ++ replicate z 0).take (startBody f.checked).length =
          zeroFilled (startBody f.checked) (c - 2) := by
        have hcount : min ((startBody f.checked).length - min (c - 2) (startBody f.checked).length) z =
            (startBody f.checked).length - (c - 2) := by omega
        have htake : ((startBody f.checked).take (c - 2)).take (startBody f.checked).length =
            (startBody f.checked).take (c - 2) := take_of_length_le (length_take_le' _ _)
        rw [zeroFilled, take_append, htake, take_replicate, length_take, hcount]
      rw [hfill] at hnext
      have hne : zeroFilled (startBody f.checked) (c - 2) ≠ startBody f.checked := fun hsame =>
        hstart (short_of_isPrefix o.start_pos o.start_lt hshort (by simp [startBody]) (heq ▸ hnext) hsame)
      exact ⟨.noFileStart, by
          rw [heq, frames_noFileStart hnext
            (decodeStart_zeroFilled (show f.checked.generation = 0 from hlive) hrange.checked rfl hne)],
        .inl ⟨⟨hc, hlt, .inr (by omega), hstart⟩, rfl⟩⟩

end File

end OpcHub.Records
