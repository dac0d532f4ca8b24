import Mathlib.Data.List.Induction
import OpcHub.Historian.Commit

/-! An archive's head. The records at a day's start open its file: the members
there, each with its last record before the day, and whatever else has that time. A
start value corrected later is a preamble record of its own in a live file, and its
rewrite folds it into the member's first. The archive lists the indexes its records
did. -/

namespace OpcHub.Historian

open Lib List Option HistoryRecord

variable {V Id : Type*} (start : Ticks)

/-- A preamble record of index `i`. -/
def HistoryRecord.lists (i : NodeIndex) (r : HistoryRecord V Id) : Prop :=
  ∃ a, r.preambled? start = some a ∧ a.index = i

/-- Records that list the index. -/
def Maps (rs : List (HistoryRecord V Id)) (i : NodeIndex) : Prop := ∃ r ∈ rs, r.lists start i

theorem HistoryRecord.preambled?_eq_some {r : HistoryRecord V Id} {a : NodeAdded V Id} :
    r.preambled? start = some a ↔ r = .added a ∧ a.by_ = none ∧ a.ts = start := by
  cases r with
  | added b =>
    simp only [preambled?, ite_none_right_eq_some, some.injEq,
      added.injEq, Bool.and_eq_true, isNone_iff_eq_none, beq_iff_eq]
    constructor
    · rintro ⟨h, rfl⟩
      exact ⟨rfl, h⟩
    · rintro ⟨rfl, h⟩
      exact ⟨h, rfl⟩
  | _ => simp [preambled?]

variable {start}

@[simp] theorem preambleOf_nil : preambleOf start ([] : List (HistoryRecord V Id)) = ∅ := rfl

variable (rs : List (HistoryRecord V Id))

theorem find?_preambleOf_concat (r : HistoryRecord V Id) (i : NodeIndex) :
    (preambleOf start (rs ++ [r])).find? i =
      match r.preambled? start with
      | some a => if i = a.index then some ⟨a.node, a.start⟩ else (preambleOf start rs).find? i
      | none => (preambleOf start rs).find? i := by
  rw [preambleOf, foldl_append, foldl_cons, foldl_nil]
  cases r.preambled? start with
  | none => rfl
  | some a => exact OrdMap.find?_insert ..

theorem isSome_find?_preambleOf {rs : List (HistoryRecord V Id)} {i : NodeIndex} :
    ((preambleOf start rs).find? i).isSome = true ↔ Maps start rs i := by
  induction rs using reverseRecOn with
  | nil => simp [Maps]
  | append_singleton rs r ih =>
    rw [find?_preambleOf_concat]
    simp only [mem_append, mem_singleton, or_and_right, exists_or, exists_eq_left, Maps, lists] at ih ⊢
    cases r.preambled? start with
    | none => simpa using ih
    | some a =>
      dsimp only
      split_ifs with hi
      · simp [hi]
      · simpa [Ne.symm hi] using ih

section Fold

variable {folded head : List (HistoryRecord V Id)} {members : List (NodeIndex × ℕ)} {i : NodeIndex}

theorem maps_append {rs rs' : List (HistoryRecord V Id)} :
    Maps start (rs ++ rs') i ↔ Maps start rs i ∨ Maps start rs' i := by
  simp [Maps, or_and_right, exists_or]

theorem maps_modify (k : ℕ) (a : NodeAdded V Id) :
    Maps start (folded.modify k (HistoryRecord.corrected a)) i ↔ Maps start folded i := by
  have hone : ∀ r : HistoryRecord V Id, (r.corrected a).lists start i ↔ r.lists start i := by
    intro r
    cases r <;> simp [HistoryRecord.corrected, lists, preambled?_eq_some]
  induction folded generalizing k with
  | nil => simp
  | cons r folded ih =>
    cases k with
    | zero => simp [Maps, hone]
    | succ k => simpa [Maps] using or_congr Iff.rfl (ih k)

/-- A join with no writer at the day's start lists its own index. -/
theorem maps_added {a : NodeAdded V Id} (hby : a.by_ = none) (hts : a.ts = start) {i : NodeIndex} :
    Maps start [.added a] i ↔ i = a.index := by
  constructor
  · rintro ⟨r, hr, b, hb, rfl⟩
    rw [mem_singleton.mp hr, preambled?_eq_some] at hb
    cases hb.1
    rfl
  · rintro rfl
    exact ⟨_, mem_singleton_self _, a, (preambled?_eq_some start).mpr ⟨rfl, hby, hts⟩, rfl⟩

/-- A record of the head folded: the fold has listed the members it stands with, so a correction lists none
that is new. -/
theorem maps_foldRecord {r : HistoryRecord V Id} (hr : r.primaryTime = start)
    (h : ∀ i, (members.lookup i).isSome = true → Maps start folded i) :
    (∀ i, Maps start (foldRecord (folded, members) r).1 i ↔ Maps start (folded ++ [r]) i) ∧
      ∀ i, ((foldRecord (folded, members) r).2.lookup i).isSome = true →
        Maps start (foldRecord (folded, members) r).1 i := by
  have hkeep : ∀ i, (members.lookup i).isSome = true → Maps start (folded ++ [r]) i :=
    fun i hi => maps_append.mpr (.inl (h i hi))
  cases r with
  | value | modification => exact ⟨fun _ => Iff.rfl, hkeep⟩
  | removed j ts by_ =>
    refine ⟨fun _ => Iff.rfl, fun i hi => hkeep i ?_⟩
    simp only [foldRecord, lookup_filter_ne] at hi
    split_ifs at hi
    · cases hi
    · exact hi
  | added a =>
    simp only [foldRecord]
    cases hby : a.by_ with
    | some w => exact ⟨fun _ => Iff.rfl, hkeep⟩
    | none =>
      simp only [isSome_none, Bool.false_eq_true, if_false]
      cases hlookup : members.lookup a.index with
      | none =>
        refine ⟨fun _ => Iff.rfl, fun i hi => ?_⟩
        rw [lookup_append, isSome_or, Bool.or_eq_true] at hi
        rcases hi with hi | hi
        · exact hkeep i hi
        · rw [lookup_cons] at hi
          split at hi
          · rename_i heq
            exact maps_append.mpr (.inr ((maps_added hby hr).mpr (beq_iff_eq.mp heq)))
          · cases hi
      | some k =>
        have hhere := h a.index (by simp [hlookup])
        refine ⟨fun i => ?_, fun i hi => (maps_modify k a).mpr (h i hi)⟩
        rw [maps_modify, maps_append, or_iff_left_of_imp]
        exact fun hi => (maps_added hby hr).mp hi ▸ hhere

theorem maps_foldl (hstart : ∀ r ∈ head, r.primaryTime = start)
    (h : ∀ i, (members.lookup i).isSome = true → Maps start folded i) :
    Maps start (head.foldl foldRecord (folded, members)).1 i ↔ Maps start (folded ++ head) i := by
  induction head generalizing folded members with
  | nil => simp
  | cons r head ih =>
    obtain ⟨hrecord, hmembers⟩ := maps_foldRecord (hstart r mem_cons_self) h
    rw [foldl_cons, ih (fun r' hr' => hstart r' (mem_cons_of_mem _ hr')) hmembers, maps_append, hrecord,
      ← maps_append, append_assoc, singleton_append]

end Fold

theorem maps_archive (w : Rewrite V Id) (i : NodeIndex) :
    Maps start (w.archive start) i ↔ Maps start (w.runs.flatMap Prod.snd ++ w.late) i := by
  have hhead : ∀ r ∈ (mergeRuns w.runs w.late).takeWhile fun r => r.primaryTime == start, r.primaryTime = start :=
    fun r hr => beq_iff_eq.mp (all_eq_true.mp all_takeWhile r hr)
  simp only [Rewrite.archive, span_eq_takeWhile_dropWhile, foldHead]
  rw [maps_append, maps_foldl hhead (by simp), nil_append, ← maps_append, takeWhile_append_dropWhile]
  exact exists_congr fun r => and_congr_left fun _ => (LazyMerge.mergeLate_perm ..).mem_iff

end OpcHub.Historian
