import OpcHub.Records.Sealed
import OpcHub.Records.Torn

/-! The scan in the windows it fetches. It holds a stretch of the file, lets go
of what it has scanned, and asks for more where a frame is cut short. However
the file is cut into windows it goes through the same frames as a scan that
holds all of it, and then searches what lies past the kept bytes. -/

namespace OpcHub.Records

open List Progress Cursor

variable {T : Type*}

/-- A stretch of a file. -/
structure Buffer where
  bytes : Bytes := []
  base : ℕ := 0
  deriving DecidableEq, Repr

namespace Buffer

/-- Through where the bytes reach. -/
def held (b : Buffer) : ℕ := b.base + b.bytes.length

def from_ (b : Buffer) (offset : ℕ) : Bytes := b.bytes.drop (offset - b.base)

/-- What is read is let go, a window at a time. -/
def release (window : ℕ → ℕ) (offset : ℕ) (b : Buffer) : Buffer :=
  if window b.base < offset - b.base then ⟨b.bytes.drop (offset - b.base), offset⟩ else b

/-- The window wanted, none for bytes fewer than that. -/
def feed (w : Window) (bytes : Bytes) (b : Buffer) : Option Buffer :=
  if bytes.length < w.size then none else some { b with bytes := b.bytes ++ bytes.take w.size }

/-- A stretch of `file` that has the next frame's offset in it. -/
structure Holds (file : Bytes) (offset : ℕ) (b : Buffer) : Prop where
  bytes : b.bytes <+: file.drop b.base
  base_le : b.base ≤ offset
  offset_le : offset ≤ b.held
  held_le : b.held ≤ file.length

variable {file : Bytes} {offset : ℕ} {b : Buffer}

variable (h : Holds file offset b)
include h

theorem Holds.rest : file.drop offset = b.from_ offset ++ file.drop b.held := by
  obtain ⟨more, hmore⟩ := h.bytes
  have hheld : file.drop b.held = more := by
    rw [held, ← drop_drop, ← hmore, drop_left]
  have hoffset := h.offset_le
  unfold held at hoffset
  have hsplit : offset = b.base + (offset - b.base) := by
    have := h.base_le
    omega
  rw [hheld, from_, hsplit, ← drop_drop, ← hmore, Nat.add_sub_cancel_left,
    drop_append_of_le_length (by omega)]

theorem Holds.release (window : ℕ → ℕ) : Holds file offset (b.release window offset) := by
  unfold Buffer.release
  split
  · have hrest := h.rest
    have hoffset := h.offset_le
    have hheld := h.held_le
    have hsame : (⟨b.bytes.drop (offset - b.base), offset⟩ : Buffer).held = b.held := by
      simp only [held, length_drop] at hoffset ⊢
      omega
    refine ⟨?_, le_rfl, ?_, ?_⟩
    · rw [hrest]
      exact prefix_append _ _
    · rw [hsame]
      exact hoffset
    · rw [hsame]
      exact hheld
  · exact h

theorem Holds.held_release (window : ℕ → ℕ) : (b.release window offset).held = b.held := by
  unfold Buffer.release
  split
  · have hoffset := h.offset_le
    simp only [held, length_drop] at hoffset ⊢
    omega
  · rfl

theorem Holds.feed {n : ℕ} (hn : b.held + n ≤ file.length) :
    ∃ b', b.feed ⟨b.held, n⟩ (fetchNow file ⟨b.held, n⟩) = some b' ∧ Holds file offset b' ∧ b'.held = b.held + n := by
  have hlen : (fetchNow file ⟨b.held, n⟩).length = n := by
    simp only [fetchNow, length_take, length_drop]
    omega
  obtain ⟨more, hmore⟩ := h.bytes
  have hheld : file.drop b.held = more := by
    rw [held, ← drop_drop, ← hmore, drop_left]
  refine ⟨{ b with bytes := b.bytes ++ more.take n }, ?_, ⟨?_, h.base_le, ?_, ?_⟩, ?_⟩
  · rw [Buffer.feed, if_neg (by rw [hlen]; exact Nat.lt_irrefl n), take_of_length_le hlen.le, fetchNow]
    rw [hheld]
  · rw [← hmore]
    exact (prefix_append_right_inj _).mpr (List.take_prefix _ _)
  all_goals
    have hmoreLen := congrArg length hheld
    have := h.offset_le
    simp only [held, length_append, length_take, length_drop] at hmoreLen hn this ⊢
    omega

end Buffer

/-- The scan amid its records, with the bytes it holds. -/
structure Reading (T : Type*) where
  p : Progress T
  buffer : Buffer := {}
  wants : Option Window := none

namespace Reading

/-- The frames the buffer holds; false while the scan wants bytes. -/
def records (o : Traits T) (consumes : Bool) (window : ℕ → ℕ) : (fuel : ℕ) → Reading T → Bool × Reading T
  | 0, s => (true, s)
  | fuel + 1, s =>
    let bytes := s.buffer.from_ s.p.offset
    match Cursor.next bytes with
    | .error e =>
      let stop := s.p.judge o bytes e
      let held := s.buffer.held
      if (stop = .length ∨ stop = .end) ∧ held < s.p.y.fileSize then
        -- more of the file to read: the first window, or the rest of a frame
        let needed := if stop = .length then s.p.offset + e.needed - held else 1
        (false, { s with wants := some ⟨held, min (max (window held) needed) (s.p.y.fileSize - held)⟩ })
      else (true, { s with p := s.p.stopped stop })
    | .ok raw =>
      match s.p.take o consumes raw with
      | .error p => (true, { s with p })
      | .ok p => records o consumes window fuel { s with p, buffer := s.buffer.release window p.offset }

/-- Feeds the scan what it wants until it is through with its records. -/
def run (o : Traits T) (consumes : Bool) (window : ℕ → ℕ) (file : Bytes) :
    (fuel : ℕ) → Reading T → Except ScanError (Progress T)
  | 0, _ => .error .fuel
  | fuel + 1, s =>
    match s.records o consumes window (s.buffer.bytes.length + 1) with
    | (true, s) => .ok s.p
    | (false, s) =>
      match s.wants with
      | none => .error .short
      | some w =>
        match s.buffer.feed w (fetchNow file w) with
        | none => .error .short
        | some buffer => run o consumes window file fuel { s with buffer, wants := none }

end Reading

/-- A file whose first frame, as far as a window holds it, is never judged too soon. -/
def Opens (o : Traits T) (file : Bytes) : Prop :=
  ∀ bytes e, bytes <+: file → Cursor.next bytes = .error e → e.stop = .length →
    bytes.head? = some (UInt8.ofNat (makeTag o.startField)) ∧ e.needed ≤ maxStartFrame

section Records

variable {o : Traits T} {consumes : Bool} {window : ℕ → ℕ} {file : Bytes} {s : Reading T}

theorem take_offset {p q : Progress T} {raw : Raw} (h : p.take o consumes raw = .ok q) :
    q.offset = p.offset + raw.frame.length ∧ q.y.fileSize = p.y.fileSize := by
  unfold Progress.take at h
  split_ifs at h
  · unfold first at h
    split at h
    · simp at h
    · split at h
      · simp at h
      · split_ifs at h <;> cases h <;> exact ⟨rfl, rfl⟩
  · unfold archived at h
    split at h
    · simp at h
    · cases h
      exact ⟨rfl, rfl⟩
  · unfold checkpoint at h
    split at h
    · simp at h
    · split_ifs at h
      cases h
      exact ⟨rfl, rfl⟩
  · unfold record at h
    split at h
    · simp at h
    · cases h
      exact ⟨rfl, rfl⟩

/-- The scan of a stretch of the file. -/
structure Reading.Follows (file : Bytes) (s : Reading T) : Prop where
  holds : s.buffer.Holds file s.p.offset
  size : s.p.y.fileSize = file.length

/-- What the scan comes to once it has all of the file. -/
def Reading.result (o : Traits T) (consumes : Bool) (file : Bytes) (s : Reading T) : Progress T :=
  s.p.frames o consumes (file.drop s.p.offset)

theorem judge_eq (hopens : Opens o file) {bytes : Bytes} (hbytes : bytes <+: file.drop s.p.offset)
    {e : Stopped} (he : Cursor.next bytes = .error e) : s.p.judge o bytes e = e.stop := by
  unfold judge
  split
  · rename_i hfirst
    obtain ⟨hstop, hoffset⟩ := hfirst
    rw [hoffset, drop_zero] at hbytes
    obtain ⟨hhead, hneeded⟩ := hopens bytes e hbytes he hstop
    rw [if_neg (not_not.mpr hhead), if_neg (Nat.not_lt.mpr hneeded), hstop]
  · rfl

open Reading

/-- A turn of the scan: it is through, or it wants a window past what it holds and has lost nothing. -/
theorem Reading.Follows.records (h : s.Follows file) (consumes : Bool) (hopens : Opens o file)
    (hwindow : ∀ n, 0 < window n) {fuel : ℕ} (hfuel : (s.buffer.from_ s.p.offset).length < fuel) :
    (∃ s', s.records o consumes window fuel = (true, s') ∧ s'.p = s.result o consumes file) ∨
      ∃ s' n, s.records o consumes window fuel = (false, s') ∧ s'.Follows file ∧
        s'.result o consumes file = s.result o consumes file ∧ s'.buffer.held = s.buffer.held ∧
        s'.wants = some ⟨s'.buffer.held, n⟩ ∧ 0 < n ∧ s'.buffer.held + n ≤ file.length := by
  induction fuel generalizing s with
  | zero => omega
  | succ fuel ih =>
    have hrest := h.holds.rest
    simp only [records]
    cases hnext : Cursor.next (s.buffer.from_ s.p.offset) with
    | error e =>
      dsimp only
      rw [judge_eq hopens (by rw [hrest]; exact prefix_append _ _) hnext]
      split
      · -- more of the file to read
        rename_i hmore
        obtain ⟨-, hheld⟩ := hmore
        rw [h.size] at hheld ⊢
        refine .inr ⟨_, _, rfl, ⟨h.holds, h.size⟩, rfl, rfl, rfl, ?_, ?_⟩
        · have := hwindow s.buffer.held
          omega
        · dsimp only
          omega
      · rename_i hmore
        refine .inl ⟨_, rfl, ?_⟩
        have hwhole : Cursor.next (file.drop s.p.offset) = .error e := by
          by_cases hstop : e.stop = .length ∨ e.stop = .end
          · -- the bytes held are all there is
            have hheld : file.length ≤ s.buffer.held := by
              rw [h.size] at hmore
              by_contra hlt
              exact hmore ⟨hstop, Nat.not_le.mp hlt⟩
            rw [hrest, drop_of_length_le hheld, append_nil]
            exact hnext
          · rw [not_or] at hstop
            rw [hrest]
            exact next_append_error hnext hstop.1 hstop.2
        dsimp only [result]
        rw [frames_of_error hwhole, judge_eq hopens (prefix_refl _) hwhole]
    | ok raw =>
      have hwhole : Cursor.next (file.drop s.p.offset) = .ok raw := by
        rw [hrest]
        exact next_append hnext
      dsimp only
      cases htake : s.p.take o consumes raw with
      | error p =>
        refine .inl ⟨_, rfl, ?_⟩
        rw [result, frames_of_take_error hwhole htake]
      | ok p =>
        obtain ⟨hoffset, hsize⟩ := take_offset htake
        obtain ⟨hpre, htwo⟩ := next_length hnext
        have hlen := hpre.length_le
        have hholds : s.buffer.Holds file p.offset := by
          refine ⟨h.holds.bytes, ?_, ?_, h.holds.held_le⟩
          · have := h.holds.base_le
            omega
          · simp only [Buffer.from_, Buffer.held, length_drop] at *
            omega
        have hfollows : Reading.Follows file { s with p, buffer := s.buffer.release window p.offset } :=
          ⟨hholds.release window, hsize.trans h.size⟩
        have hresult : result o consumes file { s with p, buffer := s.buffer.release window p.offset } =
            s.result o consumes file := by
          rw [result, result, frames_of_take hwhole htake, drop_drop, ← hoffset]
        have hfewer : ((s.buffer.release window p.offset).from_ p.offset).length < fuel := by
          have hrest' := congrArg length (hholds.release window).rest
          rw [length_append, length_drop, length_drop, hholds.held_release] at hrest'
          have hrest := congrArg length hrest
          rw [length_append, length_drop, length_drop] at hrest
          omega
        have hturn := ih hfollows hfewer
        rw [hresult] at hturn
        rw [hholds.held_release] at hturn
        exact hturn

/-- However the file is cut into windows, the scan goes through its frames. -/
theorem Reading.Follows.run (h : s.Follows file) (hopens : Opens o file) (hwindow : ∀ n, 0 < window n) {fuel : ℕ}
    (hfuel : file.length < s.buffer.held + fuel) :
    s.run o consumes window file fuel = .ok (s.result o consumes file) := by
  induction fuel generalizing s with
  | zero =>
    have := h.holds.held_le
    omega
  | succ fuel ih =>
    have hlen : (s.buffer.from_ s.p.offset).length < s.buffer.bytes.length + 1 := by
      rw [Buffer.from_, length_drop]
      omega
    obtain ⟨s', hs', hp⟩ | ⟨s', n, hs', hfollows, hresult, hheld, hwants, hpos, hle⟩ :=
      h.records consumes hopens hwindow hlen
    · rw [run, hs']
      dsimp only
      rw [hp]
    · obtain ⟨b, hfeed, hholds, hb⟩ := hfollows.holds.feed hle
      rw [run, hs']
      dsimp only
      rw [hwants]
      dsimp only
      rw [hfeed]
      dsimp only
      have hnext : Reading.Follows file { s' with buffer := b, wants := none } := ⟨hholds, hfollows.size⟩
      rw [ih hnext (by dsimp only; omega)]
      exact congrArg Except.ok hresult

end Records

/-- The first-open scan of a file: its records, then what lies past the kept ones. -/
def scan (o : Traits T) (consumes : Bool) (window : ℕ → ℕ) (sealedWindow : ℕ) (file : Bytes) :
    Except ScanError (Progress T) :=
  match Reading.run o consumes window file (file.length + 1) { p := Progress.fresh file.length } with
  | .error e => .error e
  | .ok p =>
    -- the records after the last checkpoint, which nothing proves
    let p := { p with decoder := p.decoder.dropped }
    match scanSealed o.checkpointField sealedWindow file p.y.toScanned with
    | .error e => .error e
    | .ok y => .ok { p with y := { p.y with toScanned := y } }

theorem scan_eq {o : Traits T} {consumes : Bool} {window : ℕ → ℕ} {sealedWindow : ℕ} {file : Bytes} {p : Progress T}
    (hopens : Opens o file) (hwindow : ∀ n, 0 < window n) (hsealed : 0 < sealedWindow)
    (hp : (fresh file.length).frames o consumes file = p) (hsize : p.y.fileSize = file.length)
    (hnone : p.y.sealedAfter = none) (hquiet : ∀ s q, ¬ SealedAppend o.checkpointField file p.y.size s q) :
    scan o consumes window sealedWindow file = .ok { p with decoder := p.decoder.dropped } := by
  have hfresh : Reading.Follows (T := T) file { p := fresh file.length } :=
    ⟨⟨List.nil_prefix, le_rfl, le_rfl, Nat.zero_le _⟩, rfl⟩
  have hrun : Reading.run o consumes window file (file.length + 1) { p := fresh file.length } = _ :=
    hfresh.run hopens hwindow (by simp [Buffer.held])
  have hresult : Reading.result o consumes file { p := fresh file.length } = p := by
    rw [← hp]
    rfl
  rw [hresult] at hrun
  simp only [scan, hrun]
  have htail : scanSealed o.checkpointField sealedWindow file p.y.toScanned = .ok p.y.toScanned := by
    by_cases hlt : p.y.size < file.length
    · rw [scanSealed_eq hsealed hsize hnone hlt]
      have hsearch : search o.checkpointField file p.y.size [p.y.size] = none := by
        rw [← Option.not_isSome_iff_eq_none, (seen_start _ _ _).search_isSome_iff]
        rintro ⟨s, q, -, hv⟩
        exact hquiet s q hv.append
      rw [hsearch, ← hnone]
    · rw [scanSealed, if_neg (by omega)]
  rw [htail]

end OpcHub.Records
