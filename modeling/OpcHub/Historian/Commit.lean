import OpcHub.Historian.Files

/-! What a prepared write brings to the files. The write is made from its day's
file as it stands, so as long as nothing else is written it brings the values it
was given and keeps every value there was, whether it appends a run or rewrites
the day as an archive. -/

namespace OpcHub.Historian

open Lib List DayFile

variable {V Id : Type*}

section ValuesIn

@[simp] theorem valuesIn_nil : valuesIn ([] : List (HistoryRecord V Id)) = [] := rfl

@[simp] theorem valuesIn_append (l₁ l₂ : List (HistoryRecord V Id)) :
    valuesIn (l₁ ++ l₂) = valuesIn l₁ ++ valuesIn l₂ := filterMap_append ..

theorem valuesIn_cons (r : HistoryRecord V Id) (l : List (HistoryRecord V Id)) :
    valuesIn (r :: l) = valuesIn [r] ++ valuesIn l := valuesIn_append [r] l

theorem valuesIn_perm {l₁ l₂ : List (HistoryRecord V Id)} (h : l₁.Perm l₂) :
    (valuesIn l₁).Perm (valuesIn l₂) := h.filterMap _

theorem valuesIn_eq_nil {l : List (HistoryRecord V Id)} (h : ∀ r ∈ l, r.value? = none) : valuesIn l = [] :=
  filterMap_eq_nil_iff.mpr h

theorem valuesIn_map_added {α : Type*} (f : α → NodeAdded V Id) (l : List α) :
    valuesIn (l.map fun a => HistoryRecord.added (f a)) = [] :=
  valuesIn_eq_nil fun r hr => by
    obtain ⟨a, -, rfl⟩ := mem_map.mp hr
    rfl

@[simp] theorem flatten_filter_nonempty (runs : List (List (HistoryRecord V Id))) :
    (runs.filter (!·.isEmpty)).flatten = runs.flatten := by
  induction runs with
  | nil => rfl
  | cons run runs ih => cases run <;> simp [ih]

end ValuesIn

/-- A day's file that a flush would write the time to is refused. -/
def GroupFiles.Refuses (env : Env V Id) (f : GroupFiles V Id) (t : Ticks) : Prop :=
  ∃ day file, f.files.find? day = some file ∧ file.refused = true ∧ env.calendar.Covers day t

/-- A write as it stands to the files it was prepared for: made from its day's file, which takes it, for the
values `vs`; or none, and a refused file is theirs. -/
def DayWrite.Brings (env : Env V Id) (f : GroupFiles V Id) (vs : List (DataValue V)) : DayWrite V Id → Prop
  | .nothing => ∀ v ∈ vs, f.Refuses env v.primaryTime
  | .pending p => ((f.files.find? p.day).getD {}).refused = false ∧
      p.opening.isSome = (f.files.find? p.day).isNone ∧ valuesIn p.run = vs ∧ ∀ o ∈ p.opening, valuesIn o.2 = []
  | .rewrite w => ((f.files.find? w.day).getD {}).refused = false ∧
      w.runs.flatMap Prod.snd = ((f.files.find? w.day).getD {}).records ∧ valuesIn w.late = vs

theorem valuesIn_foldHead (head : List (HistoryRecord V Id)) : valuesIn (foldHead head) = valuesIn head := by
  have hmodify : ∀ (l : List (HistoryRecord V Id)) (i : ℕ) (a : NodeAdded V Id),
      valuesIn (l.modify i (HistoryRecord.corrected a)) = valuesIn l := by
    intro l i a
    induction l generalizing i with
    | nil => cases i <;> rfl
    | cons r l ih =>
      cases i with
      | zero => cases r <;> rfl
      | succ i => rw [modify_succ_cons, valuesIn_cons, ih, ← valuesIn_cons]
  have hfold : ∀ (s : List (HistoryRecord V Id) × List (NodeIndex × ℕ)) (r : HistoryRecord V Id),
      valuesIn (foldRecord s r).1 = valuesIn s.1 ++ valuesIn [r] := by
    rintro ⟨folded, members⟩ r
    cases r with
    | added a =>
      simp only [foldRecord]
      split_ifs
      · simp
      · split
        · simp
        · exact (hmodify ..).trans (append_nil _).symm
    | _ => simp [foldRecord]
  have hall : ∀ (head : List (HistoryRecord V Id)) (s : List (HistoryRecord V Id) × List (NodeIndex × ℕ)),
      valuesIn (head.foldl foldRecord s).1 = valuesIn s.1 ++ valuesIn head := by
    intro head
    induction head with
    | nil => simp
    | cons r head ih =>
      intro s
      rw [foldl_cons, ih, hfold, append_assoc, ← valuesIn_append, singleton_append]
  simpa [foldHead] using hall head ([], [])

theorem Rewrite.archive_values_perm (w : Rewrite V Id) (start : Ticks) :
    (valuesIn (w.archive start)).Perm (valuesIn (w.runs.flatMap Prod.snd) ++ valuesIn w.late) := by
  have hspan := takeWhile_append_dropWhile (p := fun r : HistoryRecord V Id => r.primaryTime == start)
    (l := mergeRuns w.runs w.late)
  rw [Rewrite.archive, span_eq_takeWhile_dropWhile]
  simp only [valuesIn_append, valuesIn_foldHead]
  rw [← valuesIn_append, hspan, ← valuesIn_append]
  exact valuesIn_perm (LazyMerge.mergeLate_perm _ w.runs w.late)

namespace GroupFiles

variable (env : Env V Id)

variable (f : GroupFiles V Id)

theorem newer_files (v : DataValue V) (preamble : Option Day) :
    (f.newer v preamble).files = f.files ∧ (f.newer v preamble).mods = f.mods := by
  simp only [newer]
  split
  · exact ⟨rfl, rfl⟩
  · split_ifs <;> exact ⟨rfl, rfl⟩

theorem storedAll_files (stored : List (DataValue V)) :
    (f.storedAll stored).files = f.files ∧ (f.storedAll stored).mods = f.mods := by
  induction stored generalizing f with
  | nil => exact ⟨rfl, rfl⟩
  | cons v stored ih =>
    obtain ⟨hfiles, hmods⟩ := newer_files f v none
    obtain ⟨hih, hih'⟩ := ih { f.newer v with touched := f.touched ++ [(v.index, v.primaryTime)] }
    exact ⟨hih.trans hfiles, hih'.trans hmods⟩

theorem values_eq_entries : f.values = f.files.entries.flatMap fun e => valuesIn e.2.records := by
  simp [values, OrdMap.values, flatMap_map]

variable {vs : List (DataValue V)}

theorem values_insert_perm {f f' : GroupFiles V Id} {day : Day} {file : DayFile V Id}
    (hfiles : f'.files = f.files.insert day file)
    (hfile : (valuesIn file.records).Perm (valuesIn ((f.files.find? day).getD {}).records ++ vs)) :
    f'.values.Perm (f.values ++ vs) := by
  rw [values_eq_entries, values_eq_entries, hfiles]
  refine (OrdMap.flatMap_insert_perm f.files day file _).trans ?_
  have hold : ((f.files.find? day).toList.flatMap fun file => valuesIn file.records) =
      valuesIn ((f.files.find? day).getD {}).records := by
    cases f.files.find? day <;> simp [records]
  have herase := OrdMap.flatMap_perm_erase f.files day fun e => valuesIn e.2.records
  rw [hold] at herase
  refine (hfile.append_right _).trans ?_
  rw [append_assoc]
  refine (perm_append_comm.append_left _).trans ?_
  rw [← append_assoc]
  exact herase.symm.append_right vs

theorem valuesIn_unlisted (start : Ticks) (members : Membership V Id)
    (vs : List (DataValue V)) (listed : List NodeIndex) :
    valuesIn (f.unlisted env start members vs listed) = [] := by
  induction vs generalizing listed with
  | nil => rfl
  | cons v vs ih =>
    simp only [unlisted]
    split_ifs
    · exact ih _
    · rw [valuesIn_append, ih, append_nil]
      split
      · rfl
      · split_ifs <;> rfl

/-- What a write is prepared from. -/
theorem prepare_brings {day : Day} {records : List (HistoryRecord V Id)}
    (hday : ∀ v ∈ valuesIn records, env.calendar.Covers day v.primaryTime)
    (members : Membership V Id) (now : TimePoint) (create : Bool) :
    (f.prepare env day records members now create).1.Brings env (f.prepare env day records members now create).2
      (valuesIn records) := by
  simp only [prepare]
  split_ifs with hrefused hnothing hrewrite hold hnew hfile
  · intro v hv
    cases hfile : f.files.find? day with
    | none => simp [hfile] at hrefused
    | some file => exact ⟨day, file, hfile, by simpa [hfile] using hrefused, hday v hv⟩
  · simp_all [DayWrite.Brings]
  all_goals simp_all [DayWrite.Brings, valuesIn_unlisted, valuesIn_map_added, DayFile.records,
    flatMap_def, Function.comp_def]

theorem prepare_files (day : Day) (records : List (HistoryRecord V Id))
    (members : Membership V Id) (now : TimePoint) (create : Bool) :
    (f.prepare env day records members now create).2.files = f.files ∧
      (f.prepare env day records members now create).2.mods = f.mods := by
  simp only [prepare]
  split_ifs <;> exact ⟨rfl, rfl⟩

theorem commit_values_perm {f : GroupFiles V Id} {write : DayWrite V Id}
    (h : write.Brings env f vs) (hwrite : write ≠ .nothing) : (f.commit env write).values.Perm (f.values ++ vs) := by
  cases write with
  | nothing => exact absurd rfl hwrite
  | pending p =>
    obtain ⟨-, hopening, hrun, hpreamble⟩ := h
    refine values_insert_perm rfl ?_
    cases ho : p.opening with
    | none =>
      simp [records, hrun]
    | some o =>
      have hnone : f.files.find? p.day = none := by simpa [ho] using hopening
      simp [records, hrun, hnone, hpreamble o ho]
  | rewrite w =>
    obtain ⟨-, hruns, hlate⟩ := h
    refine values_insert_perm rfl ?_
    have hperm := w.archive_values_perm (env.calendar.startOf w.day)
    rw [hruns, hlate] at hperm
    simpa [records] using hperm

/-- A commit writes to no refused file. -/
theorem commit_refuses {write : DayWrite V Id} (h : write.Brings env f vs) {t : Ticks} (hrefuses : f.Refuses env t) :
    (f.commit env write).Refuses env t := by
  obtain ⟨day, file, hfile, hrefused, hcovers⟩ := hrefuses
  have hinsert : ∀ {day' : Day} {file' : DayFile V Id}, ((f.files.find? day').getD {}).refused = false →
      (f.files.insert day' file').find? day = some file := by
    intro day' file' htakes
    rw [OrdMap.find?_insert, if_neg, hfile]
    rintro rfl
    simp [hfile, hrefused] at htakes
  refine ⟨day, file, ?_, hrefused, hcovers⟩
  cases write with
  | nothing => exact hfile
  | pending p => exact hinsert h.1
  | rewrite w => exact hinsert h.1

theorem commit_mods (write : DayWrite V Id) : (f.commit env write).mods = f.mods := by
  cases write with
  | nothing => rfl
  | pending p => exact (storedAll_files f p.stored).2
  | rewrite w => exact (storedAll_files (f.settle w.day) w.stored).2

theorem commitMods_modifications_perm (day : Day) (records : List (Modification V)) :
    (f.commitMods day records).modifications.Perm (f.modifications ++ records) := by
  refine (OrdMap.flatMap_insert_perm f.mods day _ _).trans ?_
  have hold : ((f.mods.find? day).toList.flatMap fun l => l) = (f.mods.find? day).getD [] := by
    cases f.mods.find? day <;> simp
  have herase := OrdMap.flatMap_perm_erase f.mods day Prod.snd
  rw [hold] at herase
  rw [append_assoc]
  refine (perm_append_comm.append_left _).trans ?_
  rw [← append_assoc]
  exact herase.symm.append_right records

end GroupFiles

end OpcHub.Historian
