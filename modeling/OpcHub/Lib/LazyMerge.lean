import Mathlib.Algebra.BigOperators.Group.List.Basic
import Mathlib.Algebra.Order.Ring.Nat
import Mathlib.Data.Prod.Lex
import OpcHub.Lib.StableSort

/-! A lazy merge of sorted sources. A source is opened only when the merge
reaches its first key, and of the open ones the earliest record comes out first,
a tie going to the lower index. Whatever order the sources are in, each of their
records comes out once. -/

namespace OpcHub.Lib.LazyMerge

open List

variable {α κ : Type*} [LinearOrder κ] (key : α → κ)

/-- A source not yet opened. -/
structure Source (α κ : Type*) where
  index : ℕ
  first : κ
  records : List α

/-- An open source: its next record, read, and the key it is filed under. -/
structure Opened (α κ : Type*) where
  index : ℕ
  record : α
  at_ : κ
  rest : List α

/-- A source whose next record is still to be read, out of the heap until it is. -/
structure Filling (α κ : Type*) where
  index : ℕ
  /-- The key of its last record; none for one just opened. -/
  at_ : Option κ
  rest : List α

structure State (α κ : Type*) where
  /-- The sources not yet opened, by first key. -/
  order : List (Source α κ)
  /-- The heap, the earliest record first. -/
  opened : List (Opened α κ)
  filling : Option (Filling α κ)

/-- What orders the heap. -/
def Opened.before (a b : Opened α κ) : Prop := a.at_ < b.at_ ∨ (a.at_ = b.at_ ∧ a.index ≤ b.index)

instance : DecidableRel (Opened.before (α := α) (κ := κ)) := fun a b =>
  inferInstanceAs (Decidable (a.at_ < b.at_ ∨ (a.at_ = b.at_ ∧ a.index ≤ b.index)))

/-- A source's next record; its key never goes back, so the heap holds whatever a run does. -/
def Filling.advance (f : Filling α κ) : Option (Opened α κ) :=
  match f.rest with
  | [] => none
  | r :: rest => some ⟨f.index, r, max (f.at_.getD (key r)) (key r), rest⟩

/-- The source being filled, back in the heap when it has a record. -/
def State.filled (s : State α κ) : State α κ :=
  match s.filling with
  | none => s
  | some f =>
    match f.advance key with
    | none => { s with filling := none }
    | some o => { s with filling := none, opened := s.opened.orderedInsert Opened.before o }

/-- Whether a source is opened before the heap's earliest record comes out. -/
def opens (src : Source α κ) : List (Opened α κ) → Bool
  | [] => true
  | o :: _ => decide (src.first ≤ o.at_)

/-- One turn of the merge with no source being filled: none at its end, else the record that comes
out, if one does, with its source's index. -/
def State.turn (s : State α κ) : Option (Option (ℕ × α) × State α κ) :=
  match s.order, s.opened with
  | [], [] => none
  | [], o :: opened =>
    some (some (o.index, o.record), { s with opened, filling := some ⟨o.index, some o.at_, o.rest⟩ })
  | src :: order, opened =>
    if opens src opened then
      some (none, { s with order, filling := some ⟨src.index, none, src.records⟩ })
    else
      match opened with
      | [] => none
      | o :: opened =>
        some (some (o.index, o.record),
          { s with opened, filling := some ⟨o.index, some o.at_, o.rest⟩ })

/-- The records that come out, each with its source's index. -/
def run : (fuel : ℕ) → State α κ → List (ℕ × α)
  | 0, _ => []
  | fuel + 1, s =>
    match (s.filled key).turn with
    | none => []
    | some (none, s) => run fuel s
    | some (some r, s) => r :: run fuel s

/-- The sources of a list of first keys and records, numbered. -/
def numbered (runs : List (κ × List α)) : List (Source α κ) :=
  runs.zipIdx.map fun e => ⟨e.2, e.1.1, e.1.2⟩

/-- The records of the runs, merged, each with its run's number. -/
def mergeIndexed (runs : List (κ × List α)) : List (ℕ × α) :=
  run key (runs.length + (runs.map fun e => e.2.length).sum + 1)
    ⟨stableSort Source.first (numbered runs), [], none⟩

/-- The records of the runs, merged. -/
def merge (runs : List (κ × List α)) : List α := (mergeIndexed key runs).map Prod.snd

/-- What is left of each source, by its index. -/
def State.pieces (s : State α κ) : List (ℕ × List α) :=
  s.order.map (fun src => (src.index, src.records)) ++
    s.opened.map (fun o => (o.index, o.record :: o.rest)) ++
    (s.filling.map fun f => (f.index, f.rest)).toList

variable {key} {s : State α κ} (runs : List (κ × List α))

open State

/-- What a state still holds, in no order that matters. -/
def State.records (s : State α κ) : List α := s.pieces.flatMap Prod.snd

theorem State.filled_records_perm (key : α → κ) (s : State α κ) :
    (s.filled key).records.Perm s.records ∧ (s.filled key).filling = none ∧ (s.filled key).order = s.order := by
  obtain ⟨order, opened, filling⟩ := s
  cases filling with
  | none => exact ⟨.refl _, rfl, rfl⟩
  | some f =>
    obtain ⟨index, at_, rest⟩ := f
    cases rest with
    | nil => exact ⟨by simp [records, pieces, filled, Filling.advance], rfl, rfl⟩
    | cons r rest =>
      refine ⟨?_, rfl, rfl⟩
      simp only [records, pieces, filled, Filling.advance, Option.map_none, Option.map_some,
        Option.toList_none, Option.toList_some, append_nil, flatMap_append, append_assoc]
      refine List.Perm.append_left _ ?_
      refine (((perm_orderedInsert _ _ opened).map _).flatMap_right _).trans ?_
      simp only [map_cons, flatMap_cons, flatMap_nil, append_nil]
      exact perm_append_comm

theorem State.turn_records_perm (s : State α κ) (hf : s.filling = none) : match s.turn with
    | none => s.records = []
    | some (out, s') => s.records.Perm (out.toList.map Prod.snd ++ s'.records) ∧
        s'.order.length + s'.records.length < s.order.length + s.records.length := by
  obtain ⟨order, opened, filling⟩ := s
  obtain rfl : filling = none := hf
  have hpop : ∀ (order : List (Source α κ)) (o : Opened α κ) (opened : List (Opened α κ)),
      (records ⟨order, o :: opened, none⟩).Perm
        (o.record :: records ⟨order, opened, some ⟨o.index, some o.at_, o.rest⟩⟩) := by
    intro order o opened
    simp only [records, pieces, map_cons, Option.map_none, Option.map_some, Option.toList_none,
      Option.toList_some, append_nil, flatMap_append, flatMap_cons, flatMap_nil,
      cons_append]
    refine perm_middle.trans (List.Perm.cons _ ?_)
    rw [append_assoc]
    exact List.Perm.append_left _ perm_append_comm
  cases order with
  | nil =>
    cases opened with
    | nil => rfl
    | cons o opened =>
      refine ⟨hpop [] o opened, ?_⟩
      rw [(hpop [] o opened).length_eq]
      exact Nat.lt_succ_self _
  | cons src order =>
    by_cases ho : opens src opened = true
    · have hopen : (records ⟨src :: order, opened, none⟩).Perm
          (records ⟨order, opened, some (⟨src.index, none, src.records⟩ : Filling α κ)⟩) := by
        simp only [records, pieces, map_cons, Option.map_none, Option.map_some,
          Option.toList_none, Option.toList_some, append_nil, flatMap_append, flatMap_cons,
          flatMap_nil, cons_append]
        exact perm_append_comm
      simp only [turn, ho, if_true]
      refine ⟨hopen, ?_⟩
      rw [hopen.length_eq, length_cons]
      omega
    · cases opened with
      | nil => exact absurd rfl ho
      | cons o opened =>
        simp only [turn, ho]
        refine ⟨hpop (src :: order) o opened, ?_⟩
        rw [(hpop (src :: order) o opened).length_eq]
        exact Nat.lt_succ_self _

/-- Whatever order the sources are in, nothing is lost. -/
theorem run_perm (fuel : ℕ) (s : State α κ) (hfuel : s.order.length + s.records.length < fuel) :
    ((run key fuel s).map Prod.snd).Perm s.records := by
  induction fuel generalizing s with
  | zero => omega
  | succ fuel ih =>
    obtain ⟨hperm, hf, ho⟩ := s.filled_records_perm key
    have ht := (s.filled key).turn_records_perm hf
    refine List.Perm.trans ?_ hperm
    rw [← ho, ← hperm.length_eq] at hfuel
    rw [run]
    rcases hturn : (s.filled key).turn with _ | ⟨out, s'⟩
    · rw [hturn] at ht
      rw [ht]
      exact .refl _
    · rw [hturn] at ht
      have hrun := ih s' (by omega)
      refine List.Perm.trans ?_ ht.1.symm
      rcases out with _ | r
      · exact hrun
      · exact hrun.cons _

theorem merge_perm : (merge key runs).Perm (runs.flatMap Prod.snd) := by
  let start : State α κ := ⟨stableSort Source.first (numbered runs), [], none⟩
  have hrecords : start.records.Perm (runs.flatMap Prod.snd) := by
    have h : (numbered runs).flatMap Source.records = runs.flatMap Prod.snd := by
      rw [numbered, flatMap_map, ← flatMap_map Prod.fst Prod.snd, zipIdx_map_fst]
    simp only [start, records, pieces, map_nil, Option.map_none, Option.toList_none,
      append_nil, flatMap_map]
    exact h ▸ (stableSort_perm _).flatMap_right _
  refine (run_perm _ start ?_).trans hrecords
  rw [hrecords.length_eq, (stableSort_perm _).length_eq, length_flatMap]
  simp [numbered]

section Late

variable (key)

/-- A list as a source of its own, opened at its first key. -/
def lateSource : List α → List (WithBot κ × List α)
  | [] => []
  | r :: rest => [((key r : WithBot κ), r :: rest)]

/-- Runs merged with a list that comes after them; a run opened at `⊥` is open from the start. -/
def mergeLate (runs : List (WithBot κ × List α)) (late : List α) : List α :=
  merge (fun r => (key r : WithBot κ)) (runs ++ lateSource key late)

omit [LinearOrder κ] in
theorem flatMap_lateSource (late : List α) : (lateSource key late).flatMap Prod.snd = late := by
  cases late <;> simp [lateSource]

theorem mergeLate_perm (runs : List (WithBot κ × List α)) (late : List α) :
    (mergeLate key runs late).Perm (runs.flatMap Prod.snd ++ late) := by
  refine (merge_perm _).trans ?_
  rw [flatMap_append, flatMap_lateSource]

end Late

end OpcHub.Lib.LazyMerge
