import OpcHub.Records.Framing

/-! The first-open scan past the kept prefix of a live file. The scan has kept
the file through its last good checkpoint; what follows is searched, a window at
a time, for an append its owner sealed, which makes the stop damage that must be
kept and not a torn flush to be cut. Offsets are the file's own. -/

namespace OpcHub.Records

open Lib

/-- What the first-open scan keeps of a file. -/
structure Scanned where
  /-- Through the last good checkpoint. -/
  size : ℕ
  fileSize : ℕ
  stop : EStop
  stopOffset : ℕ
  sealedAfter : Option ℕ := none
  deriving DecidableEq, Repr

/-- Whether what lies past `size` must be kept. -/
def Scanned.keep (y : Scanned) : Bool :=
  -- a first frame no torn FileStart leaves
  let foreign := y.stopOffset == 0 && y.stop != .length && y.stop != .empty
  decide (y.size < y.fileSize) && (y.sealedAfter.isSome || foreign)

/-- Why `truncate` leaves a file as it is. -/
inductive TruncateError where
  | kept
  | resized (now scanned : ℕ)
  deriving DecidableEq, Repr

/-- Cuts a file to its kept prefix, before the first append to it. -/
def truncate (file : Bytes) (y : Scanned) : Except TruncateError (Bytes × Scanned) :=
  if y.keep then .error .kept
  else if y.size = y.fileSize then .ok (file, y)
  else if file.length ≠ y.fileSize then .error (.resized file.length y.fileSize)
  else .ok (file.take y.size, { y with fileSize := y.size })

def sealedWindowBytes : ℕ := 64 <<< 10

/-- A span the search extends from a checkpoint candidate on. -/
structure Span where
  crc : UInt32 := 0
  spanned : Bool := false
  deriving DecidableEq, Repr

/-- The scanner in its search for a sealed append. -/
structure Scanner where
  y : Scanned
  buffer : Bytes := []
  /-- Where `buffer` starts in the file. -/
  base : ℕ
  wants : Option Window := none
  short : Bool := false
  spans : List Span
  /-- How far into `buffer` the spans reach. -/
  done : ℕ := 0
  deriving DecidableEq, Repr

def Scanner.feed (s : Scanner) (bytes : Bytes) : Scanner :=
  match s.wants with
  | none => s
  | some w =>
    if bytes.length < w.size then { s with short := true, wants := none }
    else { s with buffer := s.buffer ++ bytes.take w.size, wants := none }

/-- The scanner as the records phase hands it over. -/
def Scanner.start (window : ℕ) (y : Scanned) : Scanner where
  y
  base := y.size
  wants := some ⟨y.size, min window (y.fileSize - y.size)⟩
  spans := [{}]

/-- Brings the spans up to `stop`, an offset into the buffer. -/
def Scanner.extend (s : Scanner) (stop : ℕ) : Scanner :=
  if stop ≤ s.done then s
  else
    let bytes := (s.buffer.drop s.done).take (stop - s.done)
    { s with
      spans := s.spans.map fun span => { crc := extend32c span.crc bytes, spanned := true }
      done := stop }

/-- A span is forked; the oldest of more than 64 goes. -/
def fork {α : Type*} (spans : List α) (span : α) : List α :=
  let spans := spans ++ [span]
  if spans.length > 64 then spans.tail else spans

/-- The search through the buffered candidates: whether one sealed a span. -/
def Scanner.candidates (field : ℕ) : (fuel : ℕ) → Scanner → Bool × Scanner
  | 0, s => (false, s)
  | fuel + 1, s =>
    match find (checkpointMark field) s.buffer s.done with
    | none => (false, s)
    | some p =>
      if p + checkpointBytes ≤ s.buffer.length then
        let s := s.extend p
        let stored := storedAt s.buffer p
        if s.spans.any fun span => span.spanned && span.crc == stored then
          (true, { s with y := { s.y with sealedAfter := some (s.base + p + checkpointBytes) } })
        else
          let s := s.extend (p + checkpointBytes)
          Scanner.candidates field fuel { s with spans := fork s.spans {} }
      else (false, s)

/-- One window of the search; false while it wants bytes. -/
def Scanner.sealed (field window : ℕ) (s : Scanner) : Bool × Scanner :=
  match s.candidates field (s.buffer.length + 1) with
  | (true, s) => (true, s)
  | (false, s) =>
    let held := s.base + s.buffer.length
    if held ≥ s.y.fileSize then (true, s)
    else
      -- the rest could start a mark
      let rest := if s.buffer.length ≥ checkpointBytes then s.buffer.length - (checkpointBytes - 1) else 0
      let s := s.extend (max s.done rest)
      (false, { s with
        base := s.base + s.done
        buffer := s.buffer.drop s.done
        done := 0
        wants := some ⟨held, min window (s.y.fileSize - held)⟩ })

inductive ScanError where
  /-- The file could not be read through to scan. -/
  | short
  | fuel
  deriving DecidableEq, Repr

/-- The bytes of an open file a window names, as far as it holds them. -/
def fetchNow (file : Bytes) (w : Window) : Bytes := (file.drop w.offset).take w.size

/-- Feeds the scanner what it wants until the search is through. -/
def Scanner.run (field window : ℕ) (file : Bytes) : (fuel : ℕ) → Scanner → Except ScanError Scanned
  | 0, _ => .error .fuel
  | fuel + 1, s =>
    let s := match s.wants with
      | some w => s.feed (fetchNow file w)
      | none => s
    if s.short then .error .short
    else
      match s.sealed field window with
      | (true, s) => .ok s.y
      | (false, s) => s.run field window file fuel

/-- The scan of `file` from the stop its records phase left in `y`. -/
def scanSealed (field window : ℕ) (file : Bytes) (y : Scanned) : Except ScanError Scanned :=
  if y.size < y.fileSize then (Scanner.start window y).run field window file (file.length + 1)
  else .ok y

end OpcHub.Records
