import Mathlib.Order.Interval.Finset.Nat
import OpcHub.Records.Search

/-! Which sealed appends the search past a stop can find. A candidate that
fails is passed over with all its bytes, so a mark that begins inside one is
never looked at. A sealed append is visible when its own checkpoint, and the one
it follows, are looked at and no more than 63 candidates lie in it; the scan
refuses the cut exactly when some sealed append is visible. -/

namespace OpcHub.Records

open Lib List

/-- A span of bytes past the kept size and the checkpoint frame that seals it: the span starts at
the kept size or right after a checkpoint frame, and the frame at `q` holds its checksum. -/
structure SealedAppend (field : ℕ) (file : Bytes) (size s q : ℕ) : Prop where
  nonempty : s < q
  start : s = size ∨ size + checkpointBytes ≤ s ∧
    ∃ crc, OccursAt (checkpointMark field ++ writeLittleEndian32 crc) file (s - checkpointBytes)
  checkpoint :
    OccursAt (checkpointMark field ++ writeLittleEndian32 (calc32c (slice file s q))) file q

/-- How often the mark occurs from `s` up to `q`. -/
def marksIn (field : ℕ) (file : Bytes) (s q : ℕ) : ℕ :=
  ((Finset.Ico s q).filter (OccursAt (checkpointMark field) file)).card

/-- A mark the search looks at: it has room for its checkpoint, and does not begin inside a mark
looked at before it. -/
def Tested (field : ℕ) (file : Bytes) (size p : ℕ) : Prop :=
  size ≤ p ∧ OccursAt (checkpointMark field) file p ∧ p + checkpointBytes ≤ file.length ∧
    ∀ q, ∀ _ : q < p, p < q + checkpointBytes → ¬ Tested field file size q
termination_by p

open Classical in
/-- A sealed append the search can prove. -/
structure Visible (field : ℕ) (file : Bytes) (size s q : ℕ) : Prop where
  append : SealedAppend field file size s q
  tested : Tested field file size q
  start_tested : s = size ∨ Tested field file size (s - checkpointBytes)
  /-- The spans of more than 64 candidates ago are let go. -/
  recent : ((Finset.Ico s q).filter (Tested field file size)).card < 64

variable {field : ℕ} {file : Bytes} {size pos p : ℕ} {starts : List ℕ}

theorem tested_iff : Tested field file size p ↔
    size ≤ p ∧ OccursAt (checkpointMark field) file p ∧ p + checkpointBytes ≤ file.length ∧
      ∀ q < p, p < q + checkpointBytes → ¬ Tested field file size q := by
  rw [Tested]

theorem Tested.add_le {c : ℕ} (hc : Tested field file size c) (hp : Tested field file size p)
    (hlt : c < p) : c + checkpointBytes ≤ p :=
  not_lt.mp fun h => (tested_iff.mp hp).2.2.2 c hlt h hc

/-- In a strictly decreasing list the first `n` are those with fewer than `n` above them. -/
theorem mem_take_iff_of_pairwise_gt {l : List ℕ} (h : l.Pairwise (· > ·)) (n x : ℕ) :
    x ∈ l.take n ↔ x ∈ l ∧ (l.filter (x < ·)).length < n := by
  induction l generalizing n with
  | nil => simp
  | cons a l ih =>
    obtain ⟨ha, hl⟩ := pairwise_cons.mp h
    cases n with
    | zero => simp
    | succ n =>
      rw [take_succ_cons, mem_cons, ih hl, mem_cons]
      by_cases hxa : x = a
      · subst hxa
        have : l.filter (x < ·) = [] := by
          simpa [filter_eq_nil_iff] using fun b hb => (ha b hb).le
        simp [this]
      · simp only [hxa, false_or, filter_cons]
        refine and_congr_right fun hx => ?_
        rw [if_pos (by simpa using ha x hx), length_cons, Nat.succ_lt_succ_iff]

/-- The spans a search holds at `pos` are those from the kept size and from each candidate passed. -/
structure Seen (field : ℕ) (file : Bytes) (size pos : ℕ) (starts : List ℕ) : Prop where
  mem_iff : ∀ st, st ∈ starts ↔
    st = size ∨ ∃ c, Tested field file size c ∧ c < pos ∧ st = c + checkpointBytes
  sorted : starts.Pairwise (· > ·)
  clear : ∀ c, Tested field file size c → c < pos → c + checkpointBytes ≤ pos
  size_le : size ≤ pos

theorem seen_start (field : ℕ) (file : Bytes) (size : ℕ) : Seen field file size size [size] := by
  have hnone : ∀ c, Tested field file size c → ¬ c < size := fun c hc =>
    not_lt.mpr (tested_iff.mp hc).1
  refine ⟨fun st => ?_, by simp, fun c hc hlt => absurd hlt (hnone c hc), le_rfl⟩
  simp only [mem_singleton, iff_self_or]
  rintro ⟨c, hc, hlt, -⟩
  exact absurd hlt (hnone c hc)

open Classical in
/-- The spans above a start are those of the candidates after it. -/
theorem Seen.length_filter (h : Seen field file size pos starts) {st : ℕ} (hst : st ∈ starts) :
    (starts.filter (st < ·)).length = ((Finset.Ico st pos).filter (Tested field file size)).card := by
  have hnodup : (starts.filter (st < ·)).Nodup := (h.sorted.imp ne_of_gt).filter _
  rw [← toFinset_card_of_nodup hnodup,
    ← ((Finset.Ico st pos).filter _).card_map (addRightEmbedding checkpointBytes)]
  congr 1
  ext x
  simp only [mem_toFinset, mem_filter, decide_eq_true_eq, Finset.mem_map, Finset.mem_filter,
    Finset.mem_Ico, addRightEmbedding_apply]
  have hle : ∀ c, Tested field file size c → st < c + checkpointBytes → st ≤ c := by
    intro c hc hlt
    obtain rfl | ⟨c', hc', -, rfl⟩ := (h.mem_iff st).mp hst
    · exact (tested_iff.mp hc).1
    · exact hc'.add_le hc (by omega)
  have hsize : size ≤ st := by
    obtain rfl | ⟨c', hc', -, rfl⟩ := (h.mem_iff st).mp hst
    · exact le_rfl
    · exact (tested_iff.mp hc').1.trans (Nat.le_add_right _ _)
  constructor
  · rintro ⟨hx, hlt⟩
    obtain rfl | ⟨c, hc, hcp, rfl⟩ := (h.mem_iff x).mp hx
    · omega
    · exact ⟨c, ⟨⟨hle c hc hlt, hcp⟩, hc⟩, rfl⟩
  · rintro ⟨c, ⟨⟨hcs, hcp⟩, hc⟩, rfl⟩
    refine ⟨(h.mem_iff _).mpr (.inr ⟨c, hc, hcp, rfl⟩), ?_⟩
    unfold checkpointBytes
    omega

/-- The candidate at the first mark is looked at, when it has room for its checkpoint. -/
theorem Seen.tested (h : Seen field file size pos starts)
    (hp : find (checkpointMark field) file pos = some p) (hfit : p + checkpointBytes ≤ file.length) :
    Tested field file size p := by
  obtain ⟨hle, ho, hmin⟩ := (find_eq_some_iff (checkpointMark_ne_nil field)).mp hp
  refine tested_iff.mpr ⟨h.size_le.trans hle, ho, hfit, fun q hq hlt ht => ?_⟩
  by_cases hqp : q < pos
  · have := h.clear q ht hqp
    omega
  · exact hmin q (not_lt.mp hqp) hq (tested_iff.mp ht).2.1

/-- Before the first mark from `pos` on, what is looked at lies before `pos`. -/
theorem tested_lt_of_find (hp : find (checkpointMark field) file pos = some p) {c : ℕ}
    (hc : Tested field file size c) (hlt : c < p) : c < pos := by
  obtain ⟨-, -, hmin⟩ := (find_eq_some_iff (checkpointMark_ne_nil field)).mp hp
  exact not_le.mp fun hle => hmin c hle hlt (tested_iff.mp hc).2.1

variable (h : Seen field file size pos starts)
include h

/-- A candidate seals one of the newest 64 spans exactly when it ends a visible append. -/
theorem Seen.covers_iff
    (hp : find (checkpointMark field) file pos = some p) (hfit : p + checkpointBytes ≤ file.length) :
    covers file (starts.take 64) p ↔ ∃ s, Visible field file size s p := by
  classical
  have ht := h.tested hp hfit
  have ho := (tested_iff.mp ht).2.1
  have hle := ((find_eq_some_iff (checkpointMark_ne_nil field)).mp hp).1
  have hIco : ∀ st, (Finset.Ico st pos).filter (Tested field file size) =
      (Finset.Ico st p).filter (Tested field file size) := by
    intro st
    ext c
    simp only [Finset.mem_filter, Finset.mem_Ico]
    constructor
    · rintro ⟨⟨hs, hlt⟩, hc⟩
      exact ⟨⟨hs, hlt.trans_le hle⟩, hc⟩
    · rintro ⟨⟨hs, hlt⟩, hc⟩
      exact ⟨⟨hs, tested_lt_of_find hp hc hlt⟩, hc⟩
  simp only [covers, any_eq_true, Bool.and_eq_true, decide_eq_true_eq, beq_iff_eq,
    mem_take_iff_of_pairwise_gt h.sorted]
  constructor
  · rintro ⟨s, ⟨hs, hrecent⟩, hlt, hcrc⟩
    rw [h.length_filter hs, hIco] at hrecent
    refine ⟨s, ⟨hlt, ?_, occursAt_checkpoint.mpr ⟨ho, hfit, hcrc.symm⟩⟩, ht, ?_, hrecent⟩
    · refine ((h.mem_iff s).mp hs).imp_right ?_
      rintro ⟨c, hc, -, rfl⟩
      obtain ⟨hsize, hmark, hroom, -⟩ := tested_iff.mp hc
      refine ⟨by omega, storedAt file c, ?_⟩
      exact occursAt_checkpoint.mpr ⟨hmark, hroom, rfl⟩
    · refine ((h.mem_iff s).mp hs).imp_right ?_
      rintro ⟨c, hc, -, rfl⟩
      rwa [Nat.add_sub_cancel]
  · rintro ⟨s, hv⟩
    have hs : s ∈ starts := by
      refine (h.mem_iff s).mpr ?_
      obtain rfl | hc := hv.start_tested
      · exact .inl rfl
      · obtain rfl | ⟨hle', -⟩ := hv.append.start
        · exact .inl rfl
        · have hlt := hv.append.nonempty
          exact .inr ⟨_, hc, tested_lt_of_find hp hc (by omega), by omega⟩
    refine ⟨s, ⟨hs, ?_⟩, hv.append.nonempty, (occursAt_checkpoint.mp hv.append.checkpoint).2.2.symm⟩
    rw [h.length_filter hs, hIco]
    exact hv.recent

theorem Seen.pass
    (hp : find (checkpointMark field) file pos = some p) (hfit : p + checkpointBytes ≤ file.length) :
    Seen field file size (p + checkpointBytes) ((p + checkpointBytes) :: starts) := by
  have ht := h.tested hp hfit
  have hle := ((find_eq_some_iff (checkpointMark_ne_nil field)).mp hp).1
  have hcases : ∀ c, Tested field file size c → c < p + checkpointBytes → c = p ∨ c < pos := by
    intro c hc hlt
    rcases lt_trichotomy c p with hcp | rfl | hpc
    · exact .inr (tested_lt_of_find hp hc hcp)
    · exact .inl rfl
    · have := ht.add_le hc hpc
      omega
  refine ⟨fun st => ?_, pairwise_cons.mpr ⟨fun st hst => ?_, h.sorted⟩, fun c hc hlt => ?_, ?_⟩
  · rw [mem_cons, h.mem_iff]
    constructor
    · rintro (rfl | rfl | ⟨c, hc, hlt, rfl⟩)
      · exact .inr ⟨p, ht, by unfold checkpointBytes; omega, rfl⟩
      · exact .inl rfl
      · exact .inr ⟨c, hc, by omega, rfl⟩
    · rintro (rfl | ⟨c, hc, hlt, rfl⟩)
      · exact .inr (.inl rfl)
      · obtain rfl | hlt' := hcases c hc hlt
        · exact .inl rfl
        · exact .inr (.inr ⟨c, hc, hlt', rfl⟩)
  · have hsize := h.size_le
    obtain rfl | ⟨c, hc, hlt, rfl⟩ := (h.mem_iff st).mp hst
    · unfold checkpointBytes
      omega
    · omega
  · obtain rfl | hlt' := hcases c hc hlt
    · exact le_rfl
    · omega
  · exact h.size_le.trans (by omega)

/-- The search succeeds exactly when a visible append ends at or past its position. -/
theorem Seen.search_isSome_iff :
    (search field file pos starts).isSome ↔ ∃ s q, pos ≤ q ∧ Visible field file size s q := by
  induction hn : file.length - pos using Nat.strong_induction_on generalizing pos starts with
  | _ n ih =>
  cases hp : find (checkpointMark field) file pos with
  | none =>
    rw [search_of_find_none hp]
    simp only [Option.isSome_none, Bool.false_eq_true, false_iff]
    rintro ⟨s, q, hq, hv⟩
    exact (find_eq_none_iff (checkpointMark_ne_nil field)).mp hp q hq (tested_iff.mp hv.tested).2.1
  | some p =>
    obtain ⟨hle, -, hmin⟩ := (find_eq_some_iff (checkpointMark_ne_nil field)).mp hp
    have hfirst : ∀ q, pos ≤ q → Tested field file size q → p ≤ q := fun q hq ht =>
      not_lt.mp fun hlt => hmin q hq hlt (tested_iff.mp ht).2.1
    rw [search_of_find_some hp]
    by_cases hfit : p + checkpointBytes ≤ file.length
    · rw [if_pos hfit]
      by_cases hc : covers file (starts.take 64) p
      · obtain ⟨s, hv⟩ := (h.covers_iff hp hfit).mp hc
        simpa only [if_pos hc, Option.isSome_some, true_iff] using ⟨s, p, hle, hv⟩
      · have hnew := h.pass hp hfit
        rw [if_neg hc, ih _ (by unfold checkpointBytes at *; omega) hnew rfl]
        refine exists_congr fun s => exists_congr fun q => and_congr_left fun hv => ?_
        constructor
        · intro hq
          omega
        · intro hq
          have hne : p ≠ q := by
            rintro rfl
            exact hc ((h.covers_iff hp hfit).mpr ⟨s, hv⟩)
          exact (h.tested hp hfit).add_le hv.tested (lt_of_le_of_ne (hfirst q hq hv.tested) hne)
    · rw [if_neg hfit]
      simp only [Option.isSome_none, Bool.false_eq_true, false_iff]
      rintro ⟨s, q, hq, hv⟩
      have := hfirst q hq hv.tested
      have := (tested_iff.mp hv.tested).2.2.1
      omega

omit h

theorem truncate_of_keep {y : Scanned} (h : y.keep) : truncate file y = .error .kept := by
  rw [truncate, if_pos h]

theorem Scanned.keep_of_sealedAfter {y : Scanned} (hlt : y.size < y.fileSize)
    (h : y.sealedAfter.isSome) : y.keep := by
  simp [Scanned.keep, hlt, h]

/-- A sealed append whose checkpoint, and the one it follows, have no other mark in the six bytes
before them is visible, whatever marks its bodies hold. -/
theorem SealedAppend.visible {s q : ℕ} (h : SealedAppend field file size s q) (hmarks : marksIn field file s q < 64)
    (hclear : ∀ c, size ≤ c → c < q → q < c + checkpointBytes →
      ¬ OccursAt (checkpointMark field) file c)
    (hstart : ∀ c, size ≤ c → c + checkpointBytes < s → s < c + 2 * checkpointBytes →
      ¬ OccursAt (checkpointMark field) file c) : Visible field file size s q := by
  classical
  obtain ⟨hmark, hroom, -⟩ := occursAt_checkpoint.mp h.checkpoint
  have hsize : size ≤ s := by
    obtain rfl | ⟨hle, -⟩ := h.start
    · exact le_rfl
    · omega
  refine ⟨h, ?_, ?_, ?_⟩
  · refine tested_iff.mpr ⟨hsize.trans h.nonempty.le, hmark, hroom, fun c hc hlt ht => ?_⟩
    exact hclear c (tested_iff.mp ht).1 hc hlt (tested_iff.mp ht).2.1
  · refine h.start.imp_right ?_
    rintro ⟨hle, crc, ho⟩
    obtain ⟨hmark', hroom', -⟩ := occursAt_checkpoint.mp ho
    refine tested_iff.mpr ⟨by omega, hmark', hroom', fun c hc hlt ht => ?_⟩
    exact hstart c (tested_iff.mp ht).1 (by omega) (by omega) (tested_iff.mp ht).2.1
  · refine lt_of_le_of_lt (Finset.card_le_card fun c hc => ?_) hmarks
    rw [Finset.mem_filter] at hc ⊢
    exact ⟨hc.1, (tested_iff.mp hc.2).2.1⟩

theorem search_isSome_iff_visible :
    (search field file size [size]).isSome ↔ ∃ s q, Visible field file size s q := by
  rw [(seen_start field file size).search_isSome_iff]
  exact exists_congr fun s => exists_congr fun q => and_iff_right_of_imp fun hv => (tested_iff.mp hv.tested).1

theorem Visible.lt_length {s q : ℕ} (h : Visible field file size s q) : size < file.length := by
  obtain ⟨hle, -, hroom, -⟩ := tested_iff.mp h.tested
  unfold checkpointBytes at hroom
  omega

section Refuses

variable (window : ℕ) (y : Scanned) (hwindow : 0 < window) (hsize : y.fileSize = file.length) (hy : y.sealedAfter = none)

include hwindow hsize hy

/-- What the search finds keeps the tail. -/
theorem refuses_of_visible {s q : ℕ} (h : Visible field file y.size s q) :
    ∃ z, scanSealed field window file y = .ok z ∧ z.sealedAfter.isSome ∧ z.keep ∧ truncate file z = .error .kept := by
  have hs := search_isSome_iff_visible.mpr ⟨s, q, h⟩
  have hkeep := Scanned.keep_of_sealedAfter (y := { y with sealedAfter := search field file y.size [y.size] })
    (hsize ▸ h.lt_length) hs
  exact ⟨_, scanSealed_eq hwindow hsize hy h.lt_length, hs, hkeep, truncate_of_keep hkeep⟩

/-- The scan of a tail, in windows of any size, refuses the cut for a sealed append exactly when
one is visible. -/
theorem scanSealed_refuses_iff_visible :
    (∃ z, scanSealed field window file y = .ok z ∧ z.sealedAfter.isSome ∧ z.keep ∧
        truncate file z = .error .kept) ↔
      ∃ s q, Visible field file y.size s q := by
  refine ⟨?_, fun ⟨s, q, h⟩ => refuses_of_visible window y hwindow hsize hy h⟩
  rintro ⟨z, hz, hs, -⟩
  by_cases hlt : y.size < file.length
  · rw [scanSealed_eq hwindow hsize hy hlt] at hz
    cases hz
    exact search_isSome_iff_visible.mp hs
  · -- nothing lies past the kept size
    rw [scanSealed, if_neg (hsize ▸ hlt)] at hz
    cases hz
    simp [hy] at hs

/-- A sealed append is refused the cut, whatever marks its bodies hold, unless it holds 64 of them or
one begins in the six bytes before its checkpoint or before the one it follows. -/
theorem SealedAppend.cut_refused {s q : ℕ} (h : SealedAppend field file y.size s q)
    (hmarks : marksIn field file s q < 64)
    (hclear : ∀ c, y.size ≤ c → c < q → q < c + checkpointBytes → ¬ OccursAt (checkpointMark field) file c)
    (hstart : ∀ c, y.size ≤ c → c + checkpointBytes < s → s < c + 2 * checkpointBytes →
      ¬ OccursAt (checkpointMark field) file c) :
    ∃ z, scanSealed field window file y = .ok z ∧ z.sealedAfter.isSome ∧ z.keep ∧ truncate file z = .error .kept :=
  refuses_of_visible window y hwindow hsize hy (h.visible hmarks hclear hstart)

end Refuses

/-- A kept FileStart and checkpoint, and past them a record of a field the build does not know,
sealed. -/
def newerBuild (body : Bytes) : Bytes :=
  let start := frame 1 ([0x08, 0, 0x10, 0, 0x1D] ++ writeLittleEndian32 (calc32c (List.replicate 12 0)))
  let record := frame 8 body
  start ++ encodeCheckpoint 6 (calc32c start) ++ record ++ encodeCheckpoint 6 (calc32c record)

/-- With the mark's bytes four before its end the record's seal is found. -/
theorem newerBuild_kept : 0 < 5 ∧ ∃ s q, Visible 6 (newerBuild [0x32, 5, 0x0D, 1, 2, 3, 4]) 18 s q :=
  ⟨by decide, (scanSealed_refuses_iff_visible 5 ⟨18, 34, .unknown, 18, none⟩ (by decide)
    (by decide +kernel) rfl).mp
      ⟨⟨18, 34, .unknown, 18, some 34⟩, by decide +kernel⟩⟩

theorem newerBuild_cut_refused : marksIn 6 (newerBuild [0x32, 5, 0x0D, 1, 2, 3, 4]) 18 27 < 64 ∧
    ∃ z, scanSealed 6 5 (newerBuild [0x32, 5, 0x0D, 1, 2, 3, 4]) ⟨18, 34, .unknown, 18, none⟩ = .ok z ∧
      z.sealedAfter.isSome ∧ z.keep ∧ truncate (newerBuild [0x32, 5, 0x0D, 1, 2, 3, 4]) z = .error .kept := by
  have hmarks : marksIn 6 (newerBuild [0x32, 5, 0x0D, 1, 2, 3, 4]) 18 27 < 64 := by decide +kernel
  have hclear : ∀ c < 27, 20 < c → ¬ OccursAt (checkpointMark 6) (newerBuild [0x32, 5, 0x0D, 1, 2, 3, 4]) c := by
    decide +kernel
  refine ⟨hmarks, SealedAppend.cut_refused 5 ⟨18, 34, .unknown, 18, none⟩ (by decide) (by decide +kernel) rfl
    ⟨by decide, .inl rfl, by decide +kernel⟩ hmarks ?_ (by omega)⟩
  exact fun c _ hlt hnear => hclear c hlt (by unfold checkpointBytes at hnear; omega)

/-- A record that ends in the mark's bytes hides its own checkpoint, and the cut drops it. -/
theorem newerBuild_cut : SealedAppend 6 (newerBuild [0x32, 5, 0x0D]) 18 18 23 ∧
      marksIn 6 (newerBuild [0x32, 5, 0x0D]) 18 23 < 60 ∧
      scanSealed 6 sealedWindowBytes (newerBuild [0x32, 5, 0x0D]) ⟨18, 30, .unknown, 18, none⟩ =
        .ok ⟨18, 30, .unknown, 18, none⟩ ∧
      truncate (newerBuild [0x32, 5, 0x0D]) ⟨18, 30, .unknown, 18, none⟩ =
        .ok ((newerBuild [0x32, 5, 0x0D]).take 18, ⟨18, 18, .unknown, 18, none⟩) := by
  refine ⟨⟨by decide, .inl rfl, by decide +kernel⟩, by decide +kernel, by decide +kernel,
    by decide +kernel⟩

end OpcHub.Records
