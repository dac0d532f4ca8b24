import OpcHub.Records.Cursor

/-! A file's FileStart: the start of its day and its generation, each under its
own checksum, so that a reader trusts neither until it matches. Every field is
written. One cut short and filled up with zero bytes reads as no FileStart. -/

namespace OpcHub.Records

open List

/-- The FileStart message. -/
structure FileStart where
  /-- The start of the file's day, an int64. -/
  ts : ℤ := 0
  /-- 0 for a live file, a uint32. -/
  generation : ℕ := 0
  crc : UInt32 := 0
  deriving DecidableEq, Repr

/-- An int64's bits. -/
def uint64 (t : ℤ) : ℕ := (t % 18446744073709551616).toNat

/-- The int64 of 64 bits. -/
def int64 (value : ℕ) : ℤ :=
  if value % 18446744073709551616 < 9223372036854775808 then ↑(value % 18446744073709551616)
  else ↑(value % 18446744073709551616) - 18446744073709551616

def writeLittleEndian64 (value : ℕ) : Bytes :=
  (List.range 8).map fun i => UInt8.ofNat (value / 256 ^ i)

/-- The checksum of its time and generation, each little-endian. -/
def startCrc (start : FileStart) : UInt32 :=
  calc32c (writeLittleEndian64 (uint64 start.ts) ++ writeLittleEndian32 (UInt32.ofNat start.generation))

/-- Its body, every field written. -/
def startBody (start : FileStart) : Bytes :=
  0x08 :: (writeVarint 10 (uint64 start.ts) ++ 0x10 :: (writeVarint 5 start.generation ++
    0x1D :: writeLittleEndian32 start.crc))

def encodeStart (field : ℕ) (start : FileStart) : Bytes :=
  frame field (startBody { start with crc := startCrc start })

/-- The bytes a field takes that the message does not know, by its wire type; a group's is refused. -/
def skipField (tag : ℕ) (bytes : Bytes) : Option ℕ :=
  if tag / 8 = 0 then none
  else
    match tag % 8 with
    | 0 => (readVarint 10 bytes).map Prod.snd
    | 1 => if 8 ≤ bytes.length then some 8 else none
    | 2 =>
      (readVarint 5 bytes).bind fun (length, size) =>
        if size + length ≤ bytes.length then some (size + length) else none
    | 5 => if 4 ≤ bytes.length then some 4 else none
    | _ => none

/-- One field of a FileStart's body after another, the last of a field's standing. -/
def mergeStart : (fuel : ℕ) → Bytes → FileStart → Option FileStart
  | _, [], y => some y
  | 0, _ :: _, _ => none
  | fuel + 1, bytes, y =>
    (readVarint 5 bytes).bind fun (tag, size) =>
      let rest := bytes.drop size
      if tag = 0x08 then
        (readVarint 10 rest).bind fun (value, size) => mergeStart fuel (rest.drop size) { y with ts := int64 value }
      else if tag = 0x10 then
        (readVarint 10 rest).bind fun (value, size) =>
          mergeStart fuel (rest.drop size) { y with generation := value % 4294967296 }
      else if tag = 0x1D then
        if 4 ≤ rest.length then mergeStart fuel (rest.drop 4) { y with crc := readLittleEndian32 rest } else none
      else (skipField tag rest).bind fun size => mergeStart fuel (rest.drop size) y

/-- A FileStart from its body, none unless its checksum matches. -/
def decodeStart (body : Bytes) : Option FileStart :=
  (mergeStart body.length body {}).filter fun y => y.crc == startCrc y

/-- A FileStart its owner can write. -/
structure FileStart.InRange (start : FileStart) : Prop where
  le_ts : -9223372036854775808 ≤ start.ts
  ts_lt : start.ts < 9223372036854775808
  generation_lt : start.generation < 4294967296

section Decode

variable {start y : FileStart} {bytes rest : Bytes} {fuel : ℕ}

theorem int64_uint64 {t : ℤ} (hle : -9223372036854775808 ≤ t) (hlt : t < 9223372036854775808) :
    int64 (uint64 t) = t := by
  unfold int64 uint64
  split <;> omega

/-- An int64's arithmetic wraps, so a delta undoes exactly. -/
def wrap (t : ℤ) : ℤ := int64 (uint64 t)

theorem le_wrap (t : ℤ) : -9223372036854775808 ≤ wrap t := by
  unfold wrap int64 uint64
  split <;> omega

theorem wrap_lt (t : ℤ) : wrap t < 9223372036854775808 := by
  unfold wrap int64 uint64
  split <;> omega

theorem wrap_add_wrap_sub {t : ℤ} (s : ℤ) (hle : -9223372036854775808 ≤ t) (hlt : t < 9223372036854775808) :
    wrap (s + wrap (t - s)) = t := by
  unfold wrap int64 uint64
  split <;> split <;> omega

theorem uint64_lt (t : ℤ) : uint64 t < 18446744073709551616 := by
  unfold uint64
  omega

theorem readVarint_ts (t : ℤ) (more : Bytes) :
    readVarint 10 (writeVarint 10 (uint64 t) ++ more) = some (uint64 t, (writeVarint 10 (uint64 t)).length) :=
  readVarint_write (by decide) ((uint64_lt t).trans (by decide)) le_rfl

/-- One step for each of the message's own fields. -/
theorem mergeStart_ts {v size : ℕ} (h : readVarint 10 rest = some (v, size)) :
    mergeStart (fuel + 1) (0x08 :: rest) y = mergeStart fuel (rest.drop size) { y with ts := int64 v } := by
  simp [mergeStart, readVarint, h, Nat.add_comm 1]

theorem mergeStart_generation {v size : ℕ} (h : readVarint 10 rest = some (v, size)) :
    mergeStart (fuel + 1) (0x10 :: rest) y =
      mergeStart fuel (rest.drop size) { y with generation := v % 4294967296 } := by
  simp [mergeStart, readVarint, h, Nat.add_comm 1]

theorem mergeStart_crc (h : 4 ≤ rest.length) :
    mergeStart (fuel + 1) (0x1D :: rest) y = mergeStart fuel (rest.drop 4) { y with crc := readLittleEndian32 rest } := by
  simp [mergeStart, readVarint, h]

theorem mergeStart_nil : mergeStart fuel [] y = some y := by
  cases fuel <;> rfl

theorem mergeStart_zero : mergeStart fuel (0 :: rest) y = none := by
  cases fuel with
  | zero => rfl
  | succ fuel => simp [mergeStart, readVarint, skipField]

theorem startCrc_congr (h : start.ts = y.ts) (hgeneration : start.generation = y.generation) :
    startCrc start = startCrc y := by
  rw [startCrc, startCrc, h, hgeneration]

theorem mergeStart_body (h : start.InRange) : mergeStart (fuel + 3) (startBody start) {} = some start := by
  rw [startBody, mergeStart_ts (readVarint_ts _ _), drop_left]
  have hgeneration := h.generation_lt
  rw [mergeStart_generation (readVarint_write (by decide) (by omega) (by decide)), drop_left,
    mergeStart_crc (by simp)]
  have hcrc := readLittleEndian32_write start.crc []
  rw [append_nil] at hcrc
  rw [drop_of_length_le (by simp), mergeStart_nil]
  simp [hcrc, int64_uint64 h.le_ts h.ts_lt, Nat.mod_eq_of_lt hgeneration]

theorem three_le_startBody (start : FileStart) : ∃ fuel, (startBody start).length = fuel + 3 :=
  ⟨(startBody start).length - 3, by simp [startBody]; omega⟩

theorem decodeStart_body (h : start.InRange) (hcrc : start.crc = startCrc start) :
    decodeStart (startBody start) = some start := by
  obtain ⟨fuel, hfuel⟩ := three_le_startBody start
  rw [decodeStart, hfuel, mergeStart_body h]
  simp [Option.filter, ← hcrc]

theorem decodeStart_encode (h : start.InRange) :
    decodeStart (startBody { start with crc := startCrc start }) = some { start with crc := startCrc start } :=
  decodeStart_body { h with } rfl

/-- A live file's body cut short and filled up with zero bytes. -/
def zeroFilled (body : Bytes) (k : ℕ) : Bytes := body.take k ++ List.replicate (body.length - k) 0

/-- Its fields after the time, zeros from some byte on: nothing is read of them, or a checksum that is
theirs only when nothing was cut. -/
theorem mergeStart_tail (crc : UInt32) (i : ℕ) :
    mergeStart (fuel + 2) ((0x10 :: 0x00 :: 0x1D :: writeLittleEndian32 crc).take i ++ replicate (7 - i) 0) y = none ∨
      ∃ c, mergeStart (fuel + 2) ((0x10 :: 0x00 :: 0x1D :: writeLittleEndian32 crc).take i ++
          replicate (7 - i) 0) y = some { y with generation := 0, crc := c } ∧
        (c = crc → (0x10 :: 0x00 :: 0x1D :: writeLittleEndian32 crc).take i ++ replicate (7 - i) 0 =
          0x10 :: 0x00 :: 0x1D :: writeLittleEndian32 crc) := by
  have hgeneration : ∀ {rest : Bytes} {fuel : ℕ}, mergeStart (fuel + 1) (0x10 :: 0x00 :: rest) y =
      mergeStart fuel rest { y with generation := 0 } := by
    intro rest fuel
    rfl
  obtain _ | _ | _ | e := i
  · exact .inl (by rw [take_zero, nil_append, replicate_succ, mergeStart_zero])
  · refine .inl ?_
    rw [take_succ_cons, take_zero, cons_append, nil_append, replicate_succ, hgeneration,
      replicate_succ, mergeStart_zero]
  · refine .inl ?_
    rw [take_succ_cons, take_succ_cons, take_zero, cons_append, cons_append, nil_append,
      hgeneration, replicate_succ, mergeStart_zero]
  · refine .inr ⟨readLittleEndian32 ((writeLittleEndian32 crc).take e ++ replicate (4 - e) 0), ?_, fun hc => ?_⟩
    · rw [take_succ_cons, take_succ_cons, take_succ_cons, cons_append, cons_append,
        cons_append, hgeneration, Nat.add_sub_add_right 4 3 e, mergeStart_crc (by simp; omega),
        drop_of_length_le (by simp; omega), mergeStart_nil]
    · have hfour : ((writeLittleEndian32 crc).take e ++ replicate (4 - e) 0).length = 4 := by
        simp
        omega
      simp only [take_succ_cons, cons_append, cons.injEq, true_and, Nat.add_sub_add_right 4 3 e]
      obtain ⟨b₀, b₁, b₂, b₃, hbytes⟩ := length_eq_four.mp hfour
      rw [hbytes] at hc ⊢
      rw [← hc, writeLittleEndian32_read]

/-- What is read of it has the checksum of another, or nothing is. -/
theorem decodeStart_zeroFilled (hgeneration : start.generation = 0) (hrange : start.InRange)
    (hcrc : start.crc = startCrc start) {k : ℕ} (hne : zeroFilled (startBody start) k ≠ startBody start) :
    decodeStart (zeroFilled (startBody start) k) = none := by
  obtain ⟨fuel, hfuel⟩ := three_le_startBody start
  have hlength : (zeroFilled (startBody start) k).length = (startBody start).length := by
    simp [zeroFilled]
    omega
  have hbody : startBody start = 0x08 :: (writeVarint 10 (uint64 start.ts) ++
      (0x10 :: 0x00 :: 0x1D :: writeLittleEndian32 start.crc)) := by
    simp [startBody, hgeneration, writeVarint]
  rw [decodeStart, hlength, hfuel]
  -- by the field the cut falls in
  cases k with
  | zero =>
    rfl
  | succ j =>
    have hsize : (startBody start).length = (writeVarint 10 (uint64 start.ts)).length + 8 := by
      simp [hbody]
    have hfill : zeroFilled (startBody start) (j + 1) = 0x08 :: ((writeVarint 10 (uint64 start.ts) ++
        (0x10 :: 0x00 :: 0x1D :: writeLittleEndian32 start.crc)).take j ++
          replicate ((startBody start).length - (j + 1)) 0) := by
      rw [zeroFilled]
      nth_rewrite 1 [hbody]
      rfl
    obtain hj | hj := Nat.lt_or_ge j (writeVarint 10 (uint64 start.ts)).length
    · obtain ⟨m, hm⟩ : ∃ m, (startBody start).length - (j + 1) = m + 2 :=
        ⟨(startBody start).length - (j + 1) - 2, by omega⟩
      have hten := writeVarint_length_le 10 (uint64 start.ts)
      obtain ⟨v, -, hread⟩ : ∃ v, v < 128 ^ j ∧ readVarint 10 ((writeVarint 10 (uint64 start.ts)).take j ++
          0 :: replicate (m + 1) 0) = some (v, j + 1) :=
        readVarint_take_zero hj (by omega)
      rw [hfill, take_append_of_le_length hj.le, hm, replicate_succ, mergeStart_ts hread,
        drop_append, drop_of_length_le (by rw [length_take]; omega), nil_append,
        length_take, Nat.min_eq_left hj.le, Nat.add_sub_cancel_left, drop_one, tail_cons,
        replicate_succ, mergeStart_zero]
      rfl
    · obtain ⟨i, rfl⟩ := Nat.exists_eq_add_of_le hj
      rw [take_append, take_of_length_le (Nat.le_add_right _ _), Nat.add_sub_cancel_left,
        append_assoc, hsize] at hfill
      have hcount : (writeVarint 10 (uint64 start.ts)).length + 8 - ((writeVarint 10 (uint64 start.ts)).length + i + 1) =
          7 - i := by omega
      rw [hcount] at hfill
      rw [hfill, mergeStart_ts (readVarint_ts _ _), drop_left]
      obtain hnone | ⟨c, hsome, hsame⟩ := mergeStart_tail start.crc i
      · rw [hnone]
        rfl
      · rw [hsome]
        have hc : c ≠ start.crc := fun hc => hne (by rw [hfill, hsame hc, hbody])
        have hts := int64_uint64 hrange.le_ts hrange.ts_lt
        have hsum : startCrc { ts := int64 (uint64 start.ts), generation := 0, crc := c } = start.crc := by
          rw [hcrc]
          exact startCrc_congr hts hgeneration.symm
        simp only [Option.filter, hsum, beq_eq_false_iff_ne.mpr hc, Bool.false_eq_true, if_false]

end Decode

end OpcHub.Records
