import OpcHub.Lib.Find
import OpcHub.Records.Crc

/-! Frames of the record layer: a field's tag, a length and a body, and the
checkpoint frame that closes an append, whose first three bytes are its mark.
A checkpoint's bytes are read back by position: the mark, room for the stored
checksum, and the checksum itself, little-endian. -/

namespace OpcHub.Records

open Lib List

/-- Why reading stopped. -/
inductive EStop where
  | end | length | badLength | tag | body | empty | unknown | short
  -- the scan's alone
  | noFileStart | crc | secondStart
  deriving DecidableEq, Repr

/-- Bytes of a file a reader wants next. -/
structure Window where
  offset : ℕ
  size : ℕ
  deriving DecidableEq, Repr

def windowBytes : ℕ := 1 <<< 20

/-- The longest frame the layer writes or reads, 16 MB. -/
def maxFrameBytes : ℕ := 16 <<< 20

def checkpointBytes : ℕ := 7

/-- Little-endian, as `WriteLittleEndian32ToArray` leaves it. -/
def writeLittleEndian32 (value : UInt32) : Bytes :=
  [UInt8.ofNat value.toNat, UInt8.ofNat (value.toNat / 256), UInt8.ofNat (value.toNat / 65536),
    UInt8.ofNat (value.toNat / 16777216)]

/-- The number in the first four bytes; the callers make sure they are there. -/
def readLittleEndian32 : Bytes → UInt32
  | b₀ :: b₁ :: b₂ :: b₃ :: _ =>
    UInt32.ofNat (b₀.toNat + 256 * b₁.toNat + 65536 * b₂.toNat + 16777216 * b₃.toNat)
  | _ => 0

/-- A base-128 varint of at most `width` bytes. -/
def writeVarint : (width : ℕ) → ℕ → Bytes
  | 0, _ => []
  | width + 1, value =>
    if value < 128 then [UInt8.ofNat value]
    else UInt8.ofNat (value % 128 + 128) :: writeVarint width (value / 128)

/-- The tag of a length-delimited field. -/
def makeTag (field : ℕ) : ℕ := field * 8 + 2

def frame (field : ℕ) (body : Bytes) : Bytes :=
  writeVarint 5 (makeTag field) ++ writeVarint 5 body.length ++ body

/-- `Checkpoint.crc`, a fixed32. -/
def crcTag : UInt8 := 0x0D

def encodeCheckpoint (field : ℕ) (crc : UInt32) : Bytes :=
  frame field (crcTag :: writeLittleEndian32 crc)

def decodeCheckpoint : Bytes → Option UInt32
  | [tag, b₀, b₁, b₂, b₃] =>
    if tag = crcTag then some (readLittleEndian32 [b₀, b₁, b₂, b₃]) else none
  | _ => none

/-- A checkpoint frame's first three bytes, by which a scan past damage finds one. -/
def checkpointMark (field : ℕ) : Bytes := [UInt8.ofNat (makeTag field), 0x05, crcTag]

/-- The checksum a checkpoint starting at `p` would hold. -/
def storedAt (bytes : Bytes) (p : ℕ) : UInt32 := readLittleEndian32 (bytes.drop (p + 3))

@[simp] theorem checkpointMark_length (field : ℕ) : (checkpointMark field).length = 3 := rfl

theorem checkpointMark_ne_nil (field : ℕ) : checkpointMark field ≠ [] := by
  simp [checkpointMark]

@[simp] theorem writeLittleEndian32_length (value : UInt32) : (writeLittleEndian32 value).length = 4 := rfl

@[simp] theorem readLittleEndian32_write (value : UInt32) (rest : Bytes) :
    readLittleEndian32 (writeLittleEndian32 value ++ rest) = value := by
  have hv : value.toNat < 4294967296 := value.toNat_lt
  apply UInt32.toNat.inj
  simp only [writeLittleEndian32, cons_append, readLittleEndian32, UInt8.toNat_ofNat',
    UInt32.toNat_ofNat', nil_append]
  omega

theorem writeLittleEndian32_read (b₀ b₁ b₂ b₃ : UInt8) (rest : Bytes) :
    writeLittleEndian32 (readLittleEndian32 (b₀ :: b₁ :: b₂ :: b₃ :: rest)) = [b₀, b₁, b₂, b₃] := by
  have h₀ : b₀.toNat < 256 := b₀.toNat_lt
  have h₁ : b₁.toNat < 256 := b₁.toNat_lt
  have h₂ : b₂.toNat < 256 := b₂.toNat_lt
  have h₃ : b₃.toNat < 256 := b₃.toNat_lt
  simp only [writeLittleEndian32, readLittleEndian32, UInt32.toNat_ofNat', List.cons.injEq,
    and_true]
  refine ⟨?_, ?_, ?_, ?_⟩ <;> apply UInt8.toNat.inj <;> rw [UInt8.toNat_ofNat'] <;> omega

@[simp] theorem decodeCheckpoint_encode (crc : UInt32) :
    decodeCheckpoint (crcTag :: writeLittleEndian32 crc) = some crc := by
  have h := readLittleEndian32_write crc []
  exact congrArg some h

/-- A checkpoint frame lies at `p` exactly when its mark does, with room for the checksum, and
the checksum read there is its own. -/
theorem occursAt_checkpoint {field : ℕ} {bytes : Bytes} {p : ℕ} {crc : UInt32} :
    OccursAt (checkpointMark field ++ writeLittleEndian32 crc) bytes p ↔
      OccursAt (checkpointMark field) bytes p ∧ p + checkpointBytes ≤ bytes.length ∧
        storedAt bytes p = crc := by
  constructor
  · intro h
    have hl := h.add_length_le (by simp [checkpointMark])
    obtain ⟨rest, hr⟩ := h
    refine ⟨⟨writeLittleEndian32 crc ++ rest, ?_⟩, ?_, ?_⟩
    · rw [← hr, append_assoc]
    · simpa [checkpointBytes] using hl
    · rw [storedAt, ← drop_drop, ← hr, append_assoc]
      exact readLittleEndian32_write crc rest
  · rintro ⟨⟨rest, hr⟩, hl, hs⟩
    have hrest : 4 ≤ rest.length := by
      have := congrArg List.length hr
      simp only [length_append, checkpointMark_length, length_drop] at this
      unfold checkpointBytes at hl
      omega
    have hd : bytes.drop (p + 3) = rest := by
      rw [← drop_drop, ← hr]
      rfl
    match rest, hrest with
    | b₀ :: b₁ :: b₂ :: b₃ :: more, _ =>
      refine ⟨more, ?_⟩
      rw [← hr, ← hs, storedAt, hd, writeLittleEndian32_read]
      simp

end OpcHub.Records
