import OpcHub.Historian.Head

/-! A file lists the indexes of its values. A write adds the map entries its file
lacks, of the nodes its group knows, and a rewrite folds them and loses none. -/

namespace OpcHub.Historian

open Lib List HistoryRecord

variable {V Id : Type*} (env : Env V Id)

/-- Records that list the index of each value among them. -/
def Listing (start : Ticks) (rs : List (HistoryRecord V Id)) : Prop :=
  ∀ v ∈ valuesIn rs, ((preambleOf start rs).find? v.index).isSome = true

variable {start : Ticks}

theorem listing_iff {rs : List (HistoryRecord V Id)} :
    Listing start rs ↔ ∀ v ∈ valuesIn rs, Maps start rs v.index :=
  forall₂_congr fun _ _ => isSome_find?_preambleOf

theorem Rewrite.listing_archive {w : Rewrite V Id}
    (h : Listing start (w.runs.flatMap Prod.snd ++ w.late)) : Listing start (w.archive start) := by
  rw [listing_iff] at h ⊢
  intro v hv
  rw [maps_archive]
  refine h v ?_
  rw [valuesIn_append]
  exact (w.archive_values_perm start).mem_iff.mp hv

namespace GroupFiles

variable {env} {f : GroupFiles V Id} {members : Membership V Id}

/-- Each file lists the indexes of its values. -/
def Lists (calendar : Calendar) (f : GroupFiles V Id) : Prop :=
  ∀ day file, f.files.find? day = some file → Listing (calendar.startOf day) file.records

theorem Lists.insert {calendar : Calendar} {f' : GroupFiles V Id} (h : f.Lists calendar) {day : Day}
    {file : DayFile V Id} (hfiles : f'.files = f.files.insert day file)
    (hfile : Listing (calendar.startOf day) file.records) : f'.Lists calendar := by
  intro day' file' hfile'
  rw [hfiles, OrdMap.find?_insert] at hfile'
  split_ifs at hfile' with hday
  · cases hfile'
    rw [hday]
    exact hfile
  · exact h day' file' hfile'

variable {listed : List NodeIndex}

theorem exists_unlisted {vs : List (DataValue V)}
    (hknown : ∀ v ∈ vs, (members.find v.index).isSome = true) {v : DataValue V} (hv : v ∈ vs) :
    v.index ∈ listed ∨ ∃ r ∈ f.unlisted env start members vs listed, r.lists start v.index := by
  induction vs generalizing listed with
  | nil => cases hv
  | cons w vs ih =>
    have hrest := fun v hv => hknown v (mem_cons_of_mem _ hv)
    obtain ⟨⟨node, left⟩, hnode⟩ := Option.isSome_iff_exists.mp (hknown w mem_cons_self)
    simp only [unlisted]
    split_ifs with hlisted
    · rcases mem_cons.mp hv with rfl | hv
      · exact .inl (contains_iff_mem.mp hlisted)
      · exact ih hrest hv
    · have hself : ∃ r ∈ f.unlisted env start members (w :: vs) listed, r.lists start w.index := by
        refine ⟨.added (f.added env w.index node start members left), ?_,
          f.added env w.index node start members left, ?_, rfl⟩
        · rw [unlisted, if_neg hlisted, hnode]
          exact mem_append_left _ mem_cons_self
        · exact (preambled?_eq_some start).mpr ⟨rfl, rfl, rfl⟩
      simp only [unlisted, if_neg hlisted] at hself
      rcases mem_cons.mp hv with rfl | hv
      · exact .inr hself
      · rcases ih hrest hv with hin | ⟨r, hr, hlists⟩
        · rcases mem_cons.mp hin with heq | hin
          · exact .inr (heq ▸ hself)
          · exact .inl hin
        · exact .inr ⟨r, mem_append_right _ hr, hlists⟩

variable (hf : f.Lists env.calendar)
include hf

/-- A day's file with what a write adds to it: the preamble of a new file, the map entries and the records. -/
theorem listing_prepare {day : Day} {records preamble : List (HistoryRecord V Id)}
    (hknown : ∀ v ∈ valuesIn records, (members.find v.index).isSome = true)
    (hpreamble : valuesIn preamble = [])
    (hlisted : ∀ i ∈ listed, ∃ r ∈ ((f.files.find? day).getD {}).records ++ (preamble ++ records),
      r.lists (env.calendar.startOf day) i) :
    Listing (env.calendar.startOf day) (((f.files.find? day).getD {}).records ++
      (preamble ++ (f.unlisted env (env.calendar.startOf day) members (valuesIn records) listed ++ records))) := by
  rw [listing_iff]
  intro v hv
  rw [valuesIn_append, valuesIn_append, valuesIn_append, hpreamble, valuesIn_unlisted, nil_append,
    nil_append] at hv
  rcases mem_append.mp hv with hv | hv
  · cases hfile : f.files.find? day with
    | none =>
      rw [hfile] at hv
      cases hv
    | some file =>
      rw [hfile] at hv
      obtain ⟨r, hr, hlists⟩ := listing_iff.mp (hf day file hfile) v hv
      exact ⟨r, mem_append_left _ hr, hlists⟩
  · have hunlisted : v.index ∈ listed ∨ ∃ r ∈ f.unlisted env (env.calendar.startOf day) members (valuesIn records)
        listed, r.lists (env.calendar.startOf day) v.index := exists_unlisted hknown hv
    rcases hunlisted with hin | ⟨r, hr, hlists⟩
    · obtain ⟨r, hr, hlists⟩ := hlisted v.index hin
      refine ⟨r, ?_, hlists⟩
      simp only [mem_append] at hr ⊢
      tauto
    · refine ⟨r, ?_, hlists⟩
      exact mem_append_right _ (mem_append_right _ (mem_append_left _ hr))

theorem Lists.commitRewrite {w : Rewrite V Id}
    (h : Listing (env.calendar.startOf w.day) (w.runs.flatMap Prod.snd ++ w.late)) :
    (f.commitRewrite env w).Lists env.calendar := by
  refine hf.insert rfl ?_
  rw [DayFile.records, flatten_filter_nonempty, flatten_singleton]
  exact Rewrite.listing_archive h

theorem Lists.commitPending {p : Pending V Id} (h : Listing (env.calendar.startOf p.day)
      (p.opening.elim ((f.files.find? p.day).getD {}).records Prod.snd ++ p.run)) :
    (f.commitPending p).Lists env.calendar := by
  refine hf.insert rfl ?_
  cases ho : p.opening with
  | none | some =>
    rw [ho] at h
    simpa [DayFile.records] using h

theorem prepare_lists {day : Day} {records : List (HistoryRecord V Id)}
    (hknown : ∀ v ∈ valuesIn records, (members.find v.index).isSome = true) (now : TimePoint) (create : Bool) :
    ((f.prepare env day records members now create).2.commit env
      (f.prepare env day records members now create).1).Lists env.calendar := by
  simp only [prepare]
  generalize hpre : (if (f.files.find? day).isSome = true then [] else members.current.map fun e =>
    HistoryRecord.added (f.added env e.1 e.2 (env.calendar.startOf day) members)) = preamble
  have hvalues : valuesIn preamble = [] := by
    rw [← hpre]
    split_ifs
    · rfl
    · exact valuesIn_map_added _ _
  generalize hlisted : (_ ++ (((f.files.find? day).getD {}).preamble _).keys : List NodeIndex) = listed
  have hcover : ∀ i ∈ listed, ∃ r ∈ ((f.files.find? day).getD {}).records ++ (preamble ++ records),
      r.lists (env.calendar.startOf day) i := by
    intro i hi
    rw [← hlisted] at hi
    rcases mem_append.mp hi with hi | hi
    · rcases mem_append.mp hi with hi | hi
      · -- the preamble lists every member
        rw [← hpre]
        split_ifs at hi ⊢
        · cases hi
        · obtain ⟨e, he, rfl⟩ := mem_map.mp hi
          refine ⟨.added (f.added env e.1 e.2 (env.calendar.startOf day) members), ?_, _,
            (preambled?_eq_some _).mpr ⟨rfl, rfl, rfl⟩, rfl⟩
          exact mem_append_right _ (mem_append_left _ (mem_map.mpr ⟨e, he, rfl⟩))
      · obtain ⟨r, hr, hlists⟩ := mem_filterMap.mp hi
        obtain ⟨a, ha, rfl⟩ := Option.map_eq_some_iff.mp hlists
        exact ⟨r, mem_append_right _ (mem_append_right _ hr), a, ha, rfl⟩
    · obtain ⟨⟨j, l⟩, he, rfl⟩ := mem_map.mp hi
      have hsome := Option.isSome_iff_exists.mpr ⟨l, OrdMap.mem_entries_iff.mp he⟩
      obtain ⟨r, hr, hlists⟩ := isSome_find?_preambleOf.mp hsome
      exact ⟨r, mem_append_left _ hr, hlists⟩
  have hlisting := listing_prepare hf hknown hvalues hcover
  generalize f.unlisted env (env.calendar.startOf day) members (valuesIn records) listed ++ records = run
    at hlisting ⊢
  split
  · exact hf
  · split
    · exact hf
    · split
      · refine hf.commitRewrite ?_
        have hruns : ∀ time : List (HistoryRecord V Id) → WithBot Ticks,
            (((f.files.find? day).getD {}).runs.map fun r => (time r, r)).flatMap Prod.snd =
              ((f.files.find? day).getD {}).records := fun time => by
          simp [DayFile.records, flatMap_def, Function.comp_def]
        refine (congrArg (fun rs => Listing (env.calendar.startOf day) (rs ++ (preamble ++ run))) ?_).mpr hlisting
        split_ifs <;> exact hruns _
      · refine hf.commitPending ?_
        cases hfile : f.files.find? day with
        | none => simpa [hfile, DayFile.records] using hlisting
        | some file =>
          simpa [hfile, ← hpre] using hlisting

end GroupFiles

end OpcHub.Historian
