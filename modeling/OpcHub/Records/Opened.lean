import OpcHub.Records.FileState
import OpcHub.Records.Recover

/-! The scan as what opens a live file. Whatever the file holds, what the scan keeps
lies in it, so the process starts from a part of the file; and a file of whole appends
is known as they left it. -/

namespace OpcHub.Records

open List Progress

variable {T : Type*} {o : Traits T} {consumes : Bool} {window : ℕ → ℕ} {sealedWindow : ℕ} {file : Bytes}

/-- What a scan amid the records has kept of a file of `n` bytes. -/
structure Progress.Within (n : ℕ) (p : Progress T) : Prop where
  size_le : p.y.size ≤ n
  fileSize : p.y.fileSize = n
  unsealed : p.y.sealedAfter = none

/-- Where a frame leaves the scan, whether it goes on or not. -/
def Progress.after : Except (Progress T) (Progress T) → Progress T
  | .ok p => p
  | .error p => p

section Within

variable {n : ℕ} {p : Progress T} (h : p.Within n) (raw : Raw)

include h

theorem Progress.Within.stopped (stop : EStop) : (p.stopped stop).Within n := ⟨h.size_le, h.fileSize, h.unsealed⟩

theorem Progress.Within.first : (after (p.first o consumes raw)).Within n := by
  unfold Progress.first
  split
  · exact h.stopped _
  · split
    · exact h.stopped _
    · split_ifs
      · exact ⟨h.fileSize.le, h.fileSize, h.unsealed⟩
      · exact ⟨h.fileSize.le, h.fileSize, h.unsealed⟩
      · exact ⟨h.size_le, h.fileSize, h.unsealed⟩

theorem Progress.Within.archived : (after (p.archived o raw)).Within n := by
  unfold Progress.archived
  split
  · exact h.stopped _
  · exact ⟨h.size_le, h.fileSize, h.unsealed⟩

theorem Progress.Within.record : (after (p.record o raw)).Within n := by
  unfold Progress.record
  split
  · exact h.stopped _
  · exact ⟨h.size_le, h.fileSize, h.unsealed⟩

variable (hle : p.offset + raw.frame.length ≤ n)

include hle

/-- A checkpoint keeps the file through its own frame. -/
theorem Progress.Within.checkpoint : (after (p.checkpoint raw)).Within n := by
  unfold Progress.checkpoint
  split
  · exact h.stopped _
  · split_ifs
    · exact h.stopped _
    · exact ⟨hle, h.fileSize, h.unsealed⟩

theorem Progress.Within.take : (after (p.take o consumes raw)).Within n := by
  unfold Progress.take
  split_ifs
  · exact h.first raw
  · exact h.archived raw
  · exact h.stopped _
  · exact h.checkpoint raw hle
  · exact h.record raw

end Within

variable {s s' : Reading T}

/-- A turn of the scan keeps bytes of the file, and asks for more of it. -/
theorem Reading.Follows.within_records (h : s.Follows file) (hin : s.p.Within file.length) {fuel : ℕ} {done : Bool}
    (hturn : Reading.records o consumes window fuel s = (done, s')) : s'.p.Within file.length ∧ (done = false →
      s'.Follows file ∧ ∃ n, s'.wants = some ⟨s'.buffer.held, n⟩ ∧ s'.buffer.held + n ≤ file.length) := by
  induction fuel generalizing s with
  | zero =>
    cases hturn
    exact ⟨hin, nofun⟩
  | succ fuel ih =>
    rw [Reading.records] at hturn
    cases hnext : Cursor.next (s.buffer.from_ s.p.offset) with
    | error e =>
      simp only [hnext] at hturn
      split at hturn
      · cases hturn
        refine ⟨hin, fun _ => ⟨⟨h.holds, h.size⟩, _, rfl, ?_⟩⟩
        have := h.size
        dsimp only
        omega
      · cases hturn
        exact ⟨hin.stopped _, nofun⟩
    | ok raw =>
      have hlen := (Cursor.next_length hnext).1.length_le
      have hbase := h.holds.base_le
      have hoffset := h.holds.offset_le
      have hheld := h.holds.held_le
      simp only [Buffer.from_, Buffer.held, length_drop] at hlen hoffset hheld
      have htaken : (after (s.p.take o consumes raw)).Within file.length := hin.take raw (by omega)
      simp only [hnext] at hturn
      cases htake : s.p.take o consumes raw with
      | error p =>
        rw [htake] at htaken hturn
        cases hturn
        exact ⟨htaken, nofun⟩
      | ok p =>
        rw [htake] at htaken hturn
        obtain ⟨hp, hsize⟩ := take_offset htake
        have hholds : s.buffer.Holds file p.offset := by
          refine ⟨h.holds.bytes, by omega, ?_, h.holds.held_le⟩
          rw [Buffer.held]
          omega
        exact ih ⟨hholds.release window, hsize.trans h.size⟩ htaken hturn

theorem Reading.Follows.within_run (h : s.Follows file) (hin : s.p.Within file.length) {fuel : ℕ} {p : Progress T}
    (hrun : Reading.run o consumes window file fuel s = .ok p) : p.Within file.length := by
  induction fuel generalizing s with
  | zero => cases hrun
  | succ fuel ih =>
    rw [Reading.run] at hrun
    cases hturn : Reading.records o consumes window (s.buffer.bytes.length + 1) s with
    | mk done s' =>
      obtain ⟨hkept, hmore⟩ := h.within_records hin hturn
      rw [hturn] at hrun
      cases done with
      | true =>
        cases hrun
        exact hkept
      | false =>
        obtain ⟨hfollows, n, hwants, hle⟩ := hmore rfl
        obtain ⟨b, hfeed, hholds, -⟩ := hfollows.holds.feed hle
        simp only [hwants, hfeed] at hrun
        exact ih (s := { s' with buffer := b, wants := none }) ⟨hholds, hfollows.size⟩ hkept hrun

/-- What a scan keeps lies in the file. -/
theorem scan_size_le (hsealed : 0 < sealedWindow) {p : Progress T}
    (h : scan o consumes window sealedWindow file = .ok p) : p.y.size ≤ file.length := by
  unfold scan at h
  split at h
  · cases h
  · rename_i p' hrun
    have hfresh : Reading.Follows (T := T) file { p := fresh file.length } :=
      ⟨⟨List.nil_prefix, le_rfl, le_rfl, Nat.zero_le _⟩, rfl⟩
    have hkept := hfresh.within_run ⟨Nat.zero_le _, rfl, rfl⟩ hrun
    dsimp only at h
    by_cases hlt : p'.y.size < file.length
    · rw [scanSealed_eq hsealed hkept.fileSize hkept.unsealed hlt] at h
      cases h
      exact hlt.le
    · rw [scanSealed, if_neg (by rw [hkept.fileSize]; exact hlt)] at h
      cases h
      exact hkept.size_le

/-- The scan as a process opens its files with it; one that fails keeps nothing. -/
def Traits.opener (o : Traits T) (window : ℕ → ℕ) (hsealed : 0 < sealedWindow) : Opener ℤ Run where
  scan file := ((scan o true window sealedWindow file).map fun p => p.y.toScanned).toOption.getD
    ⟨0, file.length, .end, 0, none⟩
  chain file := ((scan o true window sealedWindow file).map fun p => p.y.chain).toOption.getD 0
  runs file := ((scan o true window sealedWindow file).map fun p => p.y.runs).toOption.getD []
  size_le file := by
    cases h : scan o true window sealedWindow file with
    | error e => exact Nat.zero_le _
    | ok p => exact scan_size_le hsealed h

/-- A file of whole appends is opened as they left it: all of it is kept, with its runs and the owner's state. -/
theorem open_appendAll (o : Owner T) (hwindow : ∀ n, 0 < window n) (hsealed : 0 < sealedWindow) {x : Append T}
    {xs : List (Append T)} (hwrites : ∀ y ∈ x :: xs, y.Writes o) :
    (o.toTraits.opener window hsealed).open_ (some (appendAll o.toTraits (x :: xs) {}).bytes) =
      { file :=
          { size := (appendAll o.toTraits (x :: xs) {}).bytes.length
            chain := (appendAll o.toTraits (x :: xs) {}).chain
            runs := (appendAll o.toTraits (x :: xs) {}).runs }
        log := [⟨(appendAll o.toTraits (x :: xs) {}).bytes, (appendAll o.toTraits (x :: xs) {}).chain,
          (appendAll o.toTraits (x :: xs) {}).runs⟩] } := by
  obtain ⟨p, hscan, hkeeps, -⟩ := scan_lay (Append.writable hwrites) true hwindow hsealed
  rw [appendAll_eq]
  have hy := hkeeps.y
  generalize p.y.stop = stop at hy
  generalize p.y.stopOffset = stopOffset at hy
  simp [Opener.open_, Traits.opener, Append.parts, hscan, hy, Except.map, Except.toOption, Scanned.keep]

/-- A flush that finds a file of whole appends goes on where they end, from the owner's state they left. -/
theorem prepare_appendAll (o : Owner T) (hwindow : ∀ n, 0 < window n) (hsealed : 0 < sealedWindow) {x : Append T}
    {xs : List (Append T)} (hwrites : ∀ y ∈ x :: xs, y.Writes o) (changed : Bool) (build : ℕ → ℤ → Appended ℤ Run) :
    (({ disk := some (appendAll o.toTraits (x :: xs) {}).bytes } : Live ℤ Run).prepare
        (o.toTraits.opener window hsealed) changed build).pending =
      some { offset := (appendAll o.toTraits (x :: xs) {}).bytes.length
             restart := false
             built := build (appendAll o.toTraits (x :: xs) {}).bytes.length
               (appendAll o.toTraits (x :: xs) {}).chain } := by
  simp [Live.prepare, Live.reopen, open_appendAll o hwindow hsealed hwrites, Live.append, FileState.verify]

end OpcHub.Records
