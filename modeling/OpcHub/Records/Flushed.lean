import OpcHub.Records.Start

/-! An owner's last flush, in a file of its own: two slots written in turn, each
under its checksum and a sequence number, so that a write torn by a crash leaves
the other to be read. A write that failed is made again over the same slot. -/

namespace OpcHub.Records

/-- What a slot holds: a time in ns since 1970, a sequence number and a day. -/
structure Stored where
  time : Int64
  sequence : UInt32
  recover : Int32
  deriving DecidableEq, Repr

def slotSize : ℕ := 20

def readLittleEndian64 (bytes : Bytes) : ℕ := (bytes.take 8).foldr (fun b n => b.toNat + 256 * n) 0

/-- What the crc is of. -/
def Stored.covered (s : Stored) : Bytes :=
  writeLittleEndian64 s.time.toUInt64.toNat ++ (writeLittleEndian32 s.sequence ++ writeLittleEndian32 s.recover.toUInt32)

def Stored.bytes (s : Stored) : Bytes := s.covered ++ writeLittleEndian32 (calc32c s.covered)

def parse (bytes : Bytes) : Option Stored :=
  if bytes.length < slotSize then none
  else if readLittleEndian32 (bytes.drop 16) ≠ calc32c (bytes.take 16) then none
  else some {
    time := (UInt64.ofNat (readLittleEndian64 bytes)).toInt64
    sequence := readLittleEndian32 (bytes.drop 8)
    recover := (readLittleEndian32 (bytes.drop 12)).toInt32 }

/-- The last flush as it is held in memory; at first none, so that slot 0 is the first written. -/
structure Flushed where
  time : Option Int64 := none
  recover : Option Int32 := none
  sequence : UInt32 := 0
  slot : Bool := true
  deriving DecidableEq, Repr

def Flushed.of : Option Stored → Bool → Flushed
  | some x, slot => { time := some x.time, recover := some x.recover, sequence := x.sequence, slot }
  | none, _ => {}

/-- The flush it is of. -/
def Flushed.stored (f : Flushed) : Option Stored :=
  f.time.bind fun time => f.recover.map fun recover => { time, sequence := f.sequence, recover }

@[simp] theorem Flushed.stored_of (x : Option Stored) (slot : Bool) : (of x slot).stored = x := by cases x <;> rfl

/-- From the file's two slots. The sequence wraps, so the later of two is the one ahead by less than half
its range. -/
def Flushed.load (disk : Bool → Bytes) : Flushed :=
  let first := parse (disk false)
  let second := (parse (disk true)).any fun b => first.all fun a => 0 < (b.sequence - a.sequence).toInt32
  .of (parse (disk second)) second

/-- One write, into the slot the last one isn't in. -/
structure Slot where
  index : Bool
  stored : Stored

def Flushed.next (f : Flushed) (time : Int64) (recover : Int32) : Slot where
  index := !f.slot
  stored := { time := f.time.elim time fun last => if time < last then last else time, sequence := f.sequence + 1, recover }

def Flushed.wrote (slot : Slot) : Flushed := .of (some slot.stored) slot.index

/-- The file and what is in memory; with it the slot last written or loaded, and those begun since. -/
structure FlushedFile where
  disk : Bool → Bytes := fun _ => []
  flushed : Flushed := {}
  settled : Option Stored := none
  begun : List Stored := []

/-- A write that completes, or stops after some of its bytes; or the owner starts again. -/
inductive Round where
  | write (time : Int64) (recover : Int32) (stopped : Option ℕ)
  | restart

namespace FlushedFile

variable (s : FlushedFile)

/-- A slot's bytes once a write of it stopped. -/
def torn (slot : Slot) (n : ℕ) : Bytes := slot.stored.bytes.take n ++ (s.disk slot.index).drop n

def step : Round → FlushedFile
  | .write time recover none =>
    let slot := s.flushed.next time recover
    { disk := Function.update s.disk slot.index slot.stored.bytes, flushed := .wrote slot,
      settled := some slot.stored, begun := [] }
  | .write time recover (some n) =>
    let slot := s.flushed.next time recover
    { s with disk := Function.update s.disk slot.index (s.torn slot n), begun := slot.stored :: s.begun }
  | .restart =>
    let f := Flushed.load s.disk
    { s with flushed := f, settled := f.stored, begun := [] }

/-- No CRC collision: what a stopped write leaves is a slot only when it is the one written or the one it
found. -/
def Apart : Round → Prop
  | .write time recover (some n) =>
    let slot := s.flushed.next time recover
    parse (s.torn slot n) = none ∨ s.torn slot n = slot.stored.bytes ∨ s.torn slot n = s.disk slot.index
  | _ => True

end FlushedFile

theorem readLittleEndian64_write (value : ℕ) (rest : Bytes) :
    readLittleEndian64 (writeLittleEndian64 value ++ rest) = value % 18446744073709551616 := by
  simp [readLittleEndian64, writeLittleEndian64, List.range_succ]
  omega

theorem parse_bytes (s : Stored) : parse s.bytes = some s := by
  have hlen : s.covered.length = 16 := by simp [Stored.covered, writeLittleEndian64]
  have h64 : (writeLittleEndian64 s.time.toUInt64.toNat).length = 8 := by simp [writeLittleEndian64]
  have hcrc : readLittleEndian32 (s.bytes.drop 16) = calc32c (s.bytes.take 16) := by
    exact readLittleEndian32_write _ []
  have hrest : s.bytes.drop 8 = writeLittleEndian32 s.sequence ++ (writeLittleEndian32 s.recover.toUInt32 ++
      writeLittleEndian32 (calc32c s.covered)) := by
    rw [Stored.bytes, Stored.covered, List.append_assoc, List.drop_left' h64, List.append_assoc]
  have hrecover : s.bytes.drop 12 = writeLittleEndian32 s.recover.toUInt32 ++ writeLittleEndian32 (calc32c s.covered) := by
    rfl
  have htime : readLittleEndian64 s.bytes = s.time.toUInt64.toNat % 18446744073709551616 := by
    rw [Stored.bytes, Stored.covered, List.append_assoc, readLittleEndian64_write]
  rw [parse, if_neg (by simp [Stored.bytes, hlen, slotSize]), if_neg (not_not.2 hcrc), htime, hrest, hrecover]
  simp

open Flushed

/-- A slot is loaded when the other holds none, or the one before it. -/
theorem Flushed.load_eq {disk : Bool → Bytes} {i : Bool}
    (h : ∀ a, parse (disk !i) = some a → ∃ b, parse (disk i) = some b ∧ b.sequence = a.sequence + 1) :
    load disk = .of (parse (disk i)) i := by
  have hahead : ∀ n : UInt32, 0 < (n + 1 - n).toInt32 ∧ ¬ 0 < (n - (n + 1)).toInt32 := by
    intro n
    rw [show n + 1 - n = 1 by grind, show n - (n + 1) = -1 by grind]
    decide
  cases i with
  | true =>
    cases hfirst : parse (disk false) with
    | none => cases hsecond : parse (disk true) <;> simp [load, hfirst, hsecond, of]
    | some a =>
      obtain ⟨b, hb, hab⟩ := h a hfirst
      simp only [load, hfirst, hb, hab, Option.any_some, Option.all_some, (hahead a.sequence).1, decide_true]
  | false =>
    cases hsecond : parse (disk true) with
    | none => simp [load, hsecond]
    | some a =>
      obtain ⟨b, hb, hab⟩ := h a hsecond
      simp only [load, hsecond, hb, hab, Option.any_some, Option.all_some, (hahead a.sequence).2, decide_false]

/-- What holds between rounds: the slot in memory is on disk, and the other holds none, the one before it or
one begun since. -/
structure FlushedFile.Sound (s : FlushedFile) : Prop where
  flushed : s.flushed = .of s.settled s.flushed.slot
  here : parse (s.disk s.flushed.slot) = s.settled
  other : ∀ x, parse (s.disk !s.flushed.slot) = some x →
    (∃ y, s.settled = some y ∧ y.sequence = x.sequence + 1) ∨ x.sequence = s.flushed.sequence + 1 ∧ x ∈ s.begun

namespace FlushedFile

variable {s : FlushedFile}

theorem Sound.sequence (h : s.Sound) {x : Stored} (hx : s.settled = some x) : s.flushed.sequence = x.sequence := by
  rw [h.flushed, hx]
  rfl

/-- A start takes up the slot last written, or a later one begun since. -/
theorem Sound.load (h : s.Sound) : ∃ i, load s.disk = .of (parse (s.disk i)) i ∧
    (parse (s.disk i) = s.settled ∨ ∃ x ∈ s.begun, parse (s.disk i) = some x) ∧
    ∀ a, parse (s.disk !i) = some a → ∃ b, parse (s.disk i) = some b ∧ b.sequence = a.sequence + 1 := by
  by_cases hnew : ∃ x ∈ s.begun, parse (s.disk !s.flushed.slot) = some x ∧ x.sequence = s.flushed.sequence + 1
  · obtain ⟨x, hx, hparse, hahead⟩ := hnew
    have hback : ∀ a, parse (s.disk !!s.flushed.slot) = some a →
        ∃ b, parse (s.disk !s.flushed.slot) = some b ∧ b.sequence = a.sequence + 1 := by
      intro a ha
      rw [Bool.not_not, h.here] at ha
      exact ⟨x, hparse, by rw [hahead, h.sequence ha]⟩
    exact ⟨_, load_eq hback, .inr ⟨x, hx, hparse⟩, hback⟩
  · have hback : ∀ a, parse (s.disk !s.flushed.slot) = some a →
        ∃ b, parse (s.disk s.flushed.slot) = some b ∧ b.sequence = a.sequence + 1 := by
      intro a ha
      rw [h.here]
      exact (h.other a ha).resolve_right fun hb => hnew ⟨a, hb.2, ha, hb.1⟩
    exact ⟨_, load_eq hback, .inl h.here, hback⟩

theorem Sound.step (h : s.Sound) {r : Round} (hr : s.Apart r) : (s.step r).Sound := by
  cases r with
  | restart =>
    obtain ⟨i, hload, -, hback⟩ := h.load
    cases hx : parse (s.disk i) with
    | none =>
      have hboth : ∀ j, parse (s.disk j) = none := by
        intro j
        obtain rfl | rfl := Bool.eq_or_eq_not j i
        · exact hx
        · refine Option.eq_none_iff_forall_ne_some.2 fun a ha => ?_
          obtain ⟨b, hb, -⟩ := hback a ha
          cases hx.symm.trans hb
      simp only [FlushedFile.step, hload, hx, stored_of]
      exact ⟨rfl, hboth true, fun a ha => by cases (hboth _).symm.trans ha⟩
    | some x =>
      simp only [FlushedFile.step, hload, hx, stored_of]
      refine ⟨rfl, hx, fun a ha => .inl ?_⟩
      obtain ⟨b, hb, hab⟩ := hback a ha
      exact ⟨b, hx.symm.trans hb, hab⟩
  | write time recover stopped =>
    cases stopped with
    | none =>
      refine ⟨rfl, ?_, fun x hx => .inl ⟨_, rfl, ?_⟩⟩
      · simp [FlushedFile.step, wrote, of, parse_bytes]
      · simp [FlushedFile.step, wrote, of, next, h.here] at hx ⊢
        rw [h.sequence hx]
    | some n =>
      refine ⟨h.flushed, ?_, fun x hx => ?_⟩
      · simp [FlushedFile.step, next, h.here]
      · replace hx : parse (s.torn (s.flushed.next time recover) n) = some x := by
          rw [← hx]
          exact congrArg parse (Function.update_self (!s.flushed.slot) (s.torn _ n) s.disk).symm
        obtain hnone | hnew | hold := hr
        · cases hnone.symm.trans hx
        · rw [hnew, parse_bytes] at hx
          cases hx
          exact .inr ⟨rfl, List.mem_cons_self⟩
        · rw [hold] at hx
          exact (h.other x hx).imp_right fun hb => ⟨hb.1, List.mem_cons_of_mem _ hb.2⟩

/-- What the rounds make of an owner that never flushed, without a collision. -/
inductive Run : FlushedFile → Prop
  | start : Run {}
  | step {s : FlushedFile} {r : Round} (h : Run s) (hr : s.Apart r) : Run (s.step r)

theorem Run.sound (h : Run s) : s.Sound := by
  induction h with
  | start => exact ⟨rfl, rfl, fun x hx => by cases hx⟩
  | step h hr ih => exact ih.step hr

/-- A start at any point finds the flush last written or taken up, or one begun since; and the next is never
timed before the former. -/
theorem load_settled_or_begun (h : Run s) :
    ((Flushed.load s.disk).stored = s.settled ∨ ∃ x ∈ s.begun, (Flushed.load s.disk).stored = some x) ∧
      ∀ time recover, ∀ x, s.settled = some x → x.time ≤ (s.flushed.next time recover).stored.time := by
  refine ⟨?_, fun time recover x hx => ?_⟩
  · obtain ⟨i, hload, hor, -⟩ := h.sound.load
    rwa [hload, Flushed.stored_of]
  · rw [h.sound.flushed, hx]
    simp only [Flushed.next, Flushed.of, Option.elim_some]
    split_ifs with hlt
    · exact Int64.le_refl _
    · exact Int64.not_lt.1 hlt

/-- A write that failed with its slot whole, and one after it, the clock set back, that failed before its first byte. -/
def retried : FlushedFile := (({} : FlushedFile).step (.write 100 0 (some 20))).step (.write 50 0 (some 0))

theorem retried_run : Run retried :=
  .step (r := .write 50 0 (some 0)) (.step (r := .write 100 0 (some 20)) .start (Or.inr (Or.inl (by decide +kernel))))
    (Or.inr (Or.inr (by decide +kernel)))

/-- The earlier attempt is what a start finds, and the later was timed before it. -/
theorem retried_earlier : Run retried ∧ retried.settled = none ∧
    (Flushed.load retried.disk).stored = some ⟨100, 1, 0⟩ ∧ retried.begun = [⟨50, 1, 0⟩, ⟨100, 1, 0⟩] :=
  ⟨retried_run, by decide +kernel⟩

theorem retried_loads : (Flushed.load retried.disk).stored = retried.settled ∨
    ∃ x ∈ retried.begun, (Flushed.load retried.disk).stored = some x :=
  (load_settled_or_begun retried_run).1

end FlushedFile

end OpcHub.Records
