import OpcHub.Records.Scan

/-! The search for a sealed append without its windows. Each step looks at the
first mark from a position on, tries every span it still holds, and passes over
the whole candidate. The windowed scanner computes the same result: its spans
are those of the search brought up to the scanner's own position, and neither a
mark cut by a window nor a checksum carried over one is lost. -/

namespace OpcHub.Records

open Lib List Scanner

/-- The bytes of `file` from `a` up to `b`. -/
def slice (file : Bytes) (a b : ℕ) : Bytes := (file.drop a).take (b - a)

theorem slice_append (file : Bytes) {a b c : ℕ} (hab : a ≤ b) (hbc : b ≤ c) :
    slice file a b ++ slice file b c = slice file a c := by
  unfold slice
  have hc : c - a = (b - a) + (c - b) := by omega
  have hb : b = a + (b - a) := by omega
  rw [hc, take_add, drop_drop, ← hb]

theorem slice_self (file : Bytes) (a : ℕ) : slice file a a = [] := by
  simp [slice]

theorem slice_drop (file : Bytes) (a b n : ℕ) : (slice file a b).drop n = slice file (a + n) b := by
  simp only [slice, drop_take, drop_drop]
  congr 1
  omega

theorem slice_take {file : Bytes} {a b n : ℕ} (h : a + n ≤ b) : (slice file a b).take n = slice file a (a + n) := by
  simp only [slice, take_take]
  congr 1
  omega

theorem readLittleEndian32_take {bytes : Bytes} {n : ℕ} (h : 4 ≤ n) :
    readLittleEndian32 (bytes.take n) = readLittleEndian32 bytes := by
  obtain ⟨n, rfl⟩ : ∃ m, n = m + 4 := ⟨n - 4, by omega⟩
  match bytes with
  | [] | [_] | [_, _] | [_, _, _] => simp [readLittleEndian32]
  | _ :: _ :: _ :: _ :: _ => simp [readLittleEndian32]

/-- Whether the checksum stored at `p` is that of a span from one of `starts`. -/
def covers (file : Bytes) (starts : List ℕ) (p : ℕ) : Bool :=
  starts.any fun st => decide (st < p) && calc32c (slice file st p) == storedAt file p

section Search

variable (field : ℕ) (file : Bytes)

/-- The search from `pos` with the spans that begin at `starts`, the newest first: the end of the
first checkpoint that seals one. -/
def search (pos : ℕ) (starts : List ℕ) : Option ℕ :=
  match _h : find (checkpointMark field) file pos with
  | none => none
  | some p =>
    if _hp : p + checkpointBytes ≤ file.length then
      if covers file (starts.take 64) p then some (p + checkpointBytes)
      else search (p + checkpointBytes) ((p + checkpointBytes) :: starts)
    else none
termination_by file.length - pos
decreasing_by
  have := ((find_eq_some_iff (checkpointMark_ne_nil field)).mp _h).1
  unfold checkpointBytes at *
  omega

variable {field file}

theorem search_of_find_none {pos : ℕ} {starts : List ℕ}
    (h : find (checkpointMark field) file pos = none) : search field file pos starts = none := by
  rw [search]
  split
  · rfl
  · simp_all

theorem search_of_find_some {pos p : ℕ} {starts : List ℕ} (h : find (checkpointMark field) file pos = some p) :
    search field file pos starts =
      if p + checkpointBytes ≤ file.length then
        if covers file (starts.take 64) p then some (p + checkpointBytes)
        else search field file (p + checkpointBytes) ((p + checkpointBytes) :: starts)
      else none := by
  rw [search]
  split
  · simp_all
  · next q hq =>
    obtain rfl : q = p := by simpa using hq.symm.trans h
    simp

/-- The search may start past positions that hold no mark. -/
theorem search_eq_of_le {a b : ℕ} {starts : List ℕ} (hab : a ≤ b)
    (h : ∀ q, a ≤ q → q < b → ¬ OccursAt (checkpointMark field) file q) :
    search field file a starts = search field file b starts := by
  have hf := find_eq_find_of_le (checkpointMark_ne_nil field) hab h
  cases hb : find (checkpointMark field) file b with
  | none => rw [search_of_find_none hb, search_of_find_none (hf.trans hb)]
  | some p => rw [search_of_find_some hb, search_of_find_some (hf.trans hb)]

/-- A mark with no room for its checkpoint ends the search. -/
theorem search_eq_none {pos : ℕ} {starts : List ℕ}
    (h : ∀ p, pos ≤ p → OccursAt (checkpointMark field) file p → file.length < p + checkpointBytes) :
    search field file pos starts = none := by
  cases hp : find (checkpointMark field) file pos with
  | none => exact search_of_find_none hp
  | some p =>
    obtain ⟨hle, ho, -⟩ := (find_eq_some_iff (checkpointMark_ne_nil field)).mp hp
    rw [search_of_find_some hp, if_neg (by have := h p hle ho; omega)]

end Search

/-- The span from `st` as the scanner holds it at `pos`. -/
def spanAt (file : Bytes) (pos st : ℕ) : Span := ⟨calc32c (slice file st pos), decide (st < pos)⟩

/-- The scanner stands at `base + done` of `file` with the spans of `starts`. -/
structure Follows (file : Bytes) (y : Scanned) (starts : List ℕ) (s : Scanner) : Prop where
  result : s.y = y
  short : s.short = false
  buffer : s.buffer = slice file s.base (s.base + s.buffer.length)
  held : s.base + s.buffer.length ≤ file.length
  done : s.done ≤ s.buffer.length
  starts_le : ∀ st ∈ starts, st ≤ s.base + s.done
  spans : s.spans = (starts.take 64).reverse.map (spanAt file (s.base + s.done))

@[simp] theorem Scanner.extend_buffer (s : Scanner) (n : ℕ) : (s.extend n).buffer = s.buffer := by
  unfold Scanner.extend
  split <;> rfl

@[simp] theorem Scanner.extend_base (s : Scanner) (n : ℕ) : (s.extend n).base = s.base := by
  unfold Scanner.extend
  split <;> rfl

@[simp] theorem Scanner.extend_y (s : Scanner) (n : ℕ) : (s.extend n).y = s.y := by
  unfold Scanner.extend
  split <;> rfl

@[simp] theorem Scanner.extend_short (s : Scanner) (n : ℕ) : (s.extend n).short = s.short := by
  unfold Scanner.extend
  split <;> rfl

@[simp] theorem Scanner.extend_done (s : Scanner) (n : ℕ) : (s.extend n).done = max s.done n := by
  unfold Scanner.extend
  split
  · exact (max_eq_left ‹_›).symm
  · show n = max s.done n
    omega

variable {field : ℕ} {file : Bytes} {y : Scanned} {starts : List ℕ} {s : Scanner}

variable (h : Follows file y starts s)
include h

/-- Extending the spans inside the buffer keeps them those of `starts`. -/
theorem Follows.extend {n : ℕ} (hn : n ≤ s.buffer.length) : Follows file y starts (s.extend n) := by
  by_cases hd : n ≤ s.done
  · rwa [Scanner.extend, if_pos hd]
  have hs : ∀ st ∈ starts, st ≤ s.base + n := fun st hst => (h.starts_le st hst).trans (by omega)
  refine ⟨by simp [h.result], by simp [h.short], by simpa using h.buffer, by simpa using h.held,
    by simpa using max_le h.done hn, by simpa [max_eq_right (not_le.mp hd).le] using hs, ?_⟩
  have hbytes : (s.buffer.drop s.done).take (n - s.done) = slice file (s.base + s.done) (s.base + n) := by
    rw [h.buffer, slice_drop, slice_take (by omega)]
    congr 1
    omega
  rw [Scanner.extend, if_neg hd]
  simp only [h.spans, hbytes, map_map, map_inj_left, Function.comp_apply, spanAt]
  intro st hst
  have hle := h.starts_le st (mem_of_mem_take (mem_reverse.mp hst))
  rw [extend32c_calc32c, slice_append file hle (by omega)]
  simp only [Span.mk.injEq, true_and]
  exact (decide_eq_true (by omega)).symm

theorem Follows.occursAt_iff {q : ℕ} (hq : q + 3 ≤ s.buffer.length) :
    OccursAt (checkpointMark field) s.buffer q ↔ OccursAt (checkpointMark field) file (s.base + q) := by
  rw [h.buffer, slice, Nat.add_sub_cancel_left]
  exact occursAt_window hq

theorem Follows.storedAt_eq {p : ℕ}
    (hp : p + checkpointBytes ≤ s.buffer.length) : storedAt s.buffer p = storedAt file (s.base + p) := by
  unfold checkpointBytes at hp
  rw [storedAt, h.buffer, slice_drop, slice, readLittleEndian32_take (by omega), storedAt, Nat.add_assoc]

theorem Follows.any_eq_covers (crc : UInt32) (hc : crc = storedAt file (s.base + s.done)) :
    (s.spans.any fun span => span.spanned && span.crc == crc) =
      covers file (starts.take 64) (s.base + s.done) := by
  rw [h.spans, any_map, any_reverse, covers, hc]
  rfl

omit h

theorem fork_map {α β : Type*} (f : α → β) (l : List α) (x : α) : fork (l.map f) (f x) = (fork l x).map f := by
  unfold fork
  simp only [length_append, length_map, length_singleton]
  split_ifs <;> simp

/-- The spans held are the newest 64, oldest first. -/
theorem fork_take_reverse {α : Type*} (l : List α) (x : α) :
    fork (l.take 64).reverse x = ((x :: l).take 64).reverse := by
  unfold fork
  simp only [length_append, length_reverse, length_take, length_singleton]
  rw [take_succ_cons, reverse_cons]
  split_ifs with hl
  · have ht : l.take 64 = l.take 63 ++ [l[63]] := take_succ_eq_append_getElem (by omega)
    rw [ht, reverse_append]
    rfl
  · rw [take_of_length_le (by omega), take_of_length_le (by omega)]

/-- A failed candidate is taken as data, and a span starts after it. -/
theorem Follows.fork (h : Follows file y starts s) :
    Follows file y ((s.base + s.done) :: starts) { s with spans := fork s.spans {} } := by
  refine ⟨h.result, h.short, h.buffer, h.held, h.done, ?_, ?_⟩
  · simpa using h.starts_le
  · have hnew : ({} : Span) = spanAt file (s.base + s.done) (s.base + s.done) := by
      rw [spanAt, slice_self]
      simp [calc32c]
    rw [h.spans, hnew, fork_map, fork_take_reverse]

/-- The first mark of the buffer is the first of the file from the scanner's position on. -/
theorem Follows.find_eq (h : Follows file y starts s) {p : ℕ}
    (hp : find (checkpointMark field) s.buffer s.done = some p) :
    find (checkpointMark field) file (s.base + s.done) = some (s.base + p) := by
  obtain ⟨hle, ho, hmin⟩ := (find_eq_some_iff (checkpointMark_ne_nil field)).mp hp
  have hl := ho.add_length_le (checkpointMark_ne_nil field)
  rw [checkpointMark_length] at hl
  refine (find_eq_some_iff (checkpointMark_ne_nil field)).mpr
    ⟨by omega, (h.occursAt_iff hl).mp ho, fun q hq hqp => ?_⟩
  obtain ⟨r, rfl⟩ : ∃ r, q = s.base + r := ⟨q - s.base, by omega⟩
  rw [← h.occursAt_iff (by omega)]
  exact hmin r (by omega) (by omega)

/-- No candidate with room for its checkpoint is left in the buffer. -/
def Scanner.Exhausted (field : ℕ) (s : Scanner) : Prop :=
  ∀ p, s.done ≤ p → OccursAt (checkpointMark field) s.buffer p → s.buffer.length < p + checkpointBytes

/-- The candidates of one buffer: either one seals a span, as the search finds, or the search goes
on from where the scanner then stands. -/
theorem Follows.candidates (field : ℕ) (h : Follows file y starts s) (fuel : ℕ)
    (hf : s.buffer.length < s.done + fuel) :
    (∃ e s', s.candidates field fuel = (true, s') ∧ s'.y = { y with sealedAfter := some e } ∧
        search field file (s.base + s.done) starts = some e) ∨
      ∃ starts' s', s.candidates field fuel = (false, s') ∧ Follows file y starts' s' ∧
        s'.Exhausted field ∧ s'.base = s.base ∧ s'.buffer = s.buffer ∧
        search field file (s.base + s.done) starts = search field file (s'.base + s'.done) starts' := by
  induction fuel generalizing s starts with
  | zero =>
    have := h.done
    omega
  | succ fuel ih =>
    unfold Scanner.candidates
    cases hp : find (checkpointMark field) s.buffer s.done with
    | none =>
      refine .inr ⟨starts, s, rfl, h, fun p hd ho => ?_, rfl, rfl, rfl⟩
      exact absurd ho ((find_eq_none_iff (checkpointMark_ne_nil field)).mp hp p hd)
    | some p =>
      obtain ⟨hle, -, hmin⟩ := (find_eq_some_iff (checkpointMark_ne_nil field)).mp hp
      dsimp only
      by_cases hfit : p + checkpointBytes ≤ s.buffer.length
      · have h₁ := h.extend (n := p) (by omega)
        have hdone : (s.extend p).done = p := by simp [hle]
        have hstored := h.storedAt_eq hfit
        have hcov := h₁.any_eq_covers (storedAt s.buffer p)
          (by rw [hdone, extend_base, hstored])
        have hheld := h.held
        have hroom : s.base + p + checkpointBytes ≤ file.length := by omega
        rw [search_of_find_some (h.find_eq hp), if_pos hroom, if_pos hfit]
        simp only [extend_buffer, extend_base, extend_y, hcov, hdone]
        by_cases hc : covers file (starts.take 64) (s.base + p)
        · simp only [hc, if_true]
          exact .inl ⟨_, _, rfl, by simp only [h.result], rfl⟩
        · simp only [hc, Bool.false_eq_true, if_false]
          have h₂ := (h₁.extend (n := p + checkpointBytes) (by simpa using hfit)).fork
          have hmax : ((s.extend p).extend (p + checkpointBytes)).done = p + checkpointBytes := by
            simp [hle]
          simp only [extend_base, hmax, ← Nat.add_assoc] at h₂
          have := ih h₂ (by simp only [extend_buffer]; unfold checkpointBytes; omega)
          simpa only [extend_y, extend_base, extend_buffer, hmax,
            Nat.add_assoc] using this
      · rw [if_neg hfit]
        refine .inr ⟨starts, s, rfl, h, fun q hd ho => ?_, rfl, rfl, rfl⟩
        have : p ≤ q := not_lt.mp fun hlt => hmin q hd hlt ho
        omega

/-- The scanner wants the next bytes it does not hold. -/
def Scanner.WantsNext (file : Bytes) (window : ℕ) (s : Scanner) : Prop :=
  s.base + s.buffer.length < file.length ∧
    s.wants = some ⟨s.base + s.buffer.length, min window (file.length - (s.base + s.buffer.length))⟩

/-- One window: the search is through with its result, or goes on with the next. -/
theorem Follows.sealed (field window : ℕ) (h : Follows file y starts s) (hsize : y.fileSize = file.length)
    (hy : y.sealedAfter = none) :
    (∃ s', s.sealed field window = (true, s') ∧
        s'.y = { y with sealedAfter := search field file (s.base + s.done) starts }) ∨
      ∃ starts' s', s.sealed field window = (false, s') ∧ Follows file y starts' s' ∧
        s'.WantsNext file window ∧ s'.base + s'.buffer.length = s.base + s.buffer.length ∧
        search field file (s.base + s.done) starts = search field file (s'.base + s'.done) starts' := by
  unfold Scanner.sealed
  obtain ⟨e, s₁, hs₁, hy₁, hsearch⟩ | ⟨starts', s₁, hs₁, h₁, hex, hbase, hbuf, hsearch⟩ :=
    h.candidates field (s.buffer.length + 1) (by omega)
  · rw [hs₁]
    exact .inl ⟨s₁, rfl, by rw [hy₁, hsearch]⟩
  rw [hs₁, hsearch]
  dsimp only
  rw [← hbase, ← hbuf]
  have hend' : s₁.y.fileSize = file.length := by rw [h₁.result, hsize]
  rw [hend']
  by_cases hend : s₁.base + s₁.buffer.length ≥ file.length
  · -- the buffer holds the rest of the file
    rw [if_pos hend]
    refine .inl ⟨s₁, rfl, ?_⟩
    have hnone : search field file (s₁.base + s₁.done) starts' = none := by
      refine search_eq_none fun p hp ho => ?_
      by_contra hfit
      obtain ⟨q, rfl⟩ : ∃ q, p = s₁.base + q := ⟨p - s₁.base, by omega⟩
      unfold checkpointBytes at hfit
      have := hex q (by omega) ((h₁.occursAt_iff (by omega)).mpr ho)
      unfold checkpointBytes at this
      omega
    rw [hnone, h₁.result, ← hy]
  · rw [if_neg hend]
    refine .inr ⟨starts', _, rfl, ?_⟩
    generalize hrest : (if s₁.buffer.length ≥ checkpointBytes then
      s₁.buffer.length - (checkpointBytes - 1) else 0) = rest
    have hrest' : rest ≤ s₁.buffer.length - 6 := by
      unfold checkpointBytes at hrest
      split at hrest <;> omega
    have hd := h₁.done
    have h₂ := h₁.extend (n := max s₁.done rest) (by omega)
    have hdone : (s₁.extend (max s₁.done rest)).done = max s₁.done rest := by
      rw [extend_done]
      omega
    have hskip : search field file (s₁.base + s₁.done) starts' =
        search field file (s₁.base + max s₁.done rest) starts' := by
      refine search_eq_of_le (by omega) fun p hp hlt ho => ?_
      obtain ⟨q, rfl⟩ : ∃ q, p = s₁.base + q := ⟨p - s₁.base, by omega⟩
      have := hex q (by omega) ((h₁.occursAt_iff (by omega)).mpr ho)
      unfold checkpointBytes at this
      omega
    have hlen : s₁.base + max s₁.done rest + (s₁.buffer.drop (max s₁.done rest)).length =
        s₁.base + s₁.buffer.length := by
      rw [length_drop]
      omega
    simp only [extend_base, extend_buffer, hdone, Scanner.WantsNext, hlen,
      Nat.add_zero, hskip, extend_y, hend', and_true]
    refine ⟨⟨by simp [h₁.result], by simp [h₁.short], ?_, ?_, Nat.zero_le _, ?_, ?_⟩, by omega⟩
    · rw [hlen, ← slice_drop, ← h₁.buffer]
    · show s₁.base + _ + (s₁.buffer.drop _).length ≤ file.length
      omega
    · simpa only [hdone, extend_base, Nat.add_zero] using h₂.starts_le
    · simpa only [hdone, extend_base, Nat.add_zero] using h₂.spans

theorem Follows.feed (h : Follows file y starts s) {window : ℕ} (hw : s.WantsNext file window)
    {w : Window} (hwant : s.wants = some w) :
    Follows file y starts (s.feed (fetchNow file w)) ∧
      (s.feed (fetchNow file w)).base = s.base ∧ (s.feed (fetchNow file w)).done = s.done ∧
      (s.feed (fetchNow file w)).buffer.length =
        s.buffer.length + min window (file.length - (s.base + s.buffer.length)) := by
  obtain ⟨hlt, hwants⟩ := hw
  obtain rfl : w = _ := Option.some.inj (hwant.symm.trans hwants)
  generalize hn : min window (file.length - (s.base + s.buffer.length)) = n
  rw [hn] at hwants
  have hfetch : fetchNow file ⟨s.base + s.buffer.length, n⟩ =
      slice file (s.base + s.buffer.length) (s.base + s.buffer.length + n) := by
    simp [fetchNow, slice]
  have hlen : (fetchNow file ⟨s.base + s.buffer.length, n⟩).length = n := by
    simp only [fetchNow, length_take, length_drop]
    omega
  have hfeed : s.feed (fetchNow file ⟨s.base + s.buffer.length, n⟩) =
      { s with
        buffer := s.buffer ++ fetchNow file ⟨s.base + s.buffer.length, n⟩
        wants := none } := by
    rw [Scanner.feed, hwants]
    simp only [hlen, lt_irrefl, if_false]
    rw [take_of_length_le hlen.le]
  have hlen' : (s.buffer ++ fetchNow file ⟨s.base + s.buffer.length, n⟩).length =
      s.buffer.length + n := by rw [length_append, hlen]
  rw [hfeed]
  refine ⟨⟨h.result, h.short, ?_, ?_, ?_, h.starts_le, h.spans⟩, rfl, rfl, hlen'⟩
  · have hcat := slice_append file (a := s.base) (b := s.base + s.buffer.length)
      (c := s.base + s.buffer.length + n) (by omega) (by omega)
    rw [← h.buffer] at hcat
    rw [hlen', hfetch, hcat, Nat.add_assoc]
  · dsimp only
    omega
  · dsimp only
    have := h.done
    omega

/-- Run with a window for each byte still to read, the scan ends with the search's result. -/
theorem Follows.run (h : Follows file y starts s) {window fuel : ℕ} (hwindow : 0 < window)
    (hsize : y.fileSize = file.length) (hy : y.sealedAfter = none) (hw : s.WantsNext file window)
    (hf : file.length ≤ s.base + s.buffer.length + fuel) :
    s.run field window file fuel =
      .ok { y with sealedAfter := search field file (s.base + s.done) starts } := by
  induction fuel generalizing s starts with
  | zero =>
    have := hw.1
    omega
  | succ fuel ih =>
    obtain ⟨w, hwant⟩ : ∃ w, s.wants = some w := ⟨_, hw.2⟩
    obtain ⟨h₁, hbase, hdone, hlen⟩ := h.feed hw hwant
    rw [Scanner.run, hwant]
    rw [if_neg (by simp [h₁.short])]
    obtain ⟨s₂, hs₂, hy₂⟩ | ⟨starts', s₂, hs₂, h₂, hw₂, hheld, hsearch⟩ :=
      h₁.sealed field window hsize hy
    · rw [hs₂]
      dsimp only
      rw [hy₂, hbase, hdone]
    · rw [hbase, hdone] at hsearch
      rw [hs₂, hsearch]
      exact ih h₂ hw₂ (by omega)

/-- The scan in windows, of any size, is the search of the whole file from the kept size. -/
theorem scanSealed_eq {window : ℕ} (hwindow : 0 < window) (hsize : y.fileSize = file.length)
    (hy : y.sealedAfter = none) (hlt : y.size < file.length) :
    scanSealed field window file y =
      .ok { y with sealedAfter := search field file y.size [y.size] } := by
  have hstart : Follows file y [y.size] (Scanner.start window y) := by
    refine ⟨rfl, rfl, ?_, hlt.le, le_rfl, by simp [Scanner.start], ?_⟩
    · simp [Scanner.start, slice]
    · simp [Scanner.start, spanAt, slice, calc32c]
  have hw : (Scanner.start window y).WantsNext file window :=
    ⟨hlt, by simp [Scanner.start, hsize]⟩
  rw [scanSealed, if_pos (by omega)]
  exact hstart.run hwindow hsize hy hw (by omega)

end OpcHub.Records
