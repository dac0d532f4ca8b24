import OpcHub.Historian.Known
import OpcHub.Historian.Listing

/-! A value is stored under its node's index, so whoever writes or reads it needs the
node of that index. Over whole runs, every value still to be written is of an index
its group knows, so that its write finds the node, and every file lists the indexes
of its values. -/

namespace OpcHub.Historian

open Lib Historian.Group List Option Historian.System

variable {V Id : Type*} (env : Env V Id)

/-- The write that is out. -/
def Phase.write? : Phase V Id → Option (DayWrite V Id)
  | .prepared _ _ _ write | .job _ write => some write
  | _ => none

namespace System

/-- The records are of nodes the group knows. -/
structure Mapped (s : System V Id) : Prop where
  buffer : s.group.buffer.Within s.group.Known
  -- past the batch its records may be of nodes forgotten since, and none is still to be written
  out : s.settled = false → ∀ b ∈ s.out, ∀ v, b.item = .value v → s.group.Known v.index

variable {env} {s s' : System V Id}

theorem Starts.mapped (h : s.Starts) : s.Mapped where
  buffer := by
    refine ⟨fun v hv => ?_, fun i l hl => ?_, fun i l v hl => ?_⟩
    · exact absurd (h.values ▸ hv : v ∈ []) not_mem_nil
    · exact absurd (h.lost ▸ hl : (∅ : OrdMap NodeIndex (Lost V)).find? i = some l) (by simp)
    · exact absurd (h.lost ▸ hl : (∅ : OrdMap NodeIndex (Lost V)).find? i = some l) (by simp)
  out _ b hb := by
    simp only [System.out, h.idle, h.taken] at hb
    cases hb

theorem known_of_stands {l l' : List (Buffered (Record V Id))} (hs : Stands l l') {P : NodeIndex → Prop}
    (h : ∀ b ∈ l, ∀ v, b.item = .value v → P v.index) :
    ∀ b ∈ l', ∀ v, b.item = .value v → P v.index := by
  intro b' hb' v hv
  obtain ⟨b, hb, -, hindex, hvalue⟩ := hs b' hb'
  rw [hv] at hindex hvalue
  cases hitem : b.item with
  | change c =>
    rw [hitem] at hvalue
    cases hvalue
  | value w =>
    rw [hitem] at hindex
    have hw : w.index = v.index := hindex
    exact hw ▸ h b hb w hitem

variable {fl : Flush} {a : Action V Id}

/-- The end of a batch forgets no index whose values it did not write. -/
theorem finish_mapped (h : s.Mapped) (hphase : s.phase = .writing fl) : (s.finish env fl).Mapped := by
  have hsettled : s.settled = false := by simp only [settled, hphase]
  have hout : s.out = s.group.taken.getD [] := by simp only [System.out, hphase]
  refine ⟨?_, fun hnot => ?_⟩
  · by_cases hheld : fl.held = []
    · -- nothing goes back: the prune looks at all that is left
      simp only [finish, hheld, isEmpty_nil, if_true]
      refine ⟨fun v hv => ?_, fun i l hl => ?_, h.buffer.newest⟩
      · refine pruneGone_known (h.buffer.values v hv) (mem_append_left _ ?_)
        exact mem_map.mpr ⟨v, hv, rfl⟩
      · refine pruneGone_known (h.buffer.lost i l hl) (mem_append_right _ ?_)
        exact mem_map.mpr ⟨_, OrdMap.mem_entries_iff.mpr hl, rfl⟩
    · have hback : ∀ b ∈ s.group.batchAt fl.held, ∀ v, b.item = .value v → s.group.Known v.index :=
        fun b hb => h.out hsettled b (hout ▸ mem_batchAt hb)
      have hknown : s.group.Remembers (s.finish env fl).group := by
        simp only [finish, List.isEmpty_iff, hheld, if_false]
        exact .of_eq rfl rfl
      rw [finish_of_held hheld]
      refine ⟨fun v hv => hknown _ ?_, fun i l hl => ?_, fun i l v hl => ?_⟩
      · rcases mem_append.mp hv with hv | hv
        · rcases mem_append.mp hv with hv | hv
          · obtain ⟨b, hb, -, -, hitem⟩ := mem_valuesOf hv
            exact hback b (mem_stableSort.mp hb) _ hitem
          · exact lostRecords_within env h.buffer (mem_stableSort.mp hv)
        · exact h.buffer.values v hv
      · cases hl
      · cases hl
  · have hend : (s.finish env fl).settled = true := by
      simp only [finish]
      split_ifs <;> rfl
    rw [hend] at hnot
    cases hnot

variable {walkBack : GroupFiles V Id → NodeIndex → Ticks → Option (DataValue V)} [DecidableEq Id]

theorem step_mapped (h : s.Mapped) (hs : s.step env walkBack a = some s') : s'.Mapped := by
  cases step_does hs with
  | perform op hg hout _ hphase =>
    have hremembers := s.group.perform_remembers env op
    have hsettled : s'.settled = s.settled := by simp only [settled, hphase]
    refine ⟨?_, fun hnot b hb v hv => ?_⟩
    · rw [hg]
      have hpath := (s.group.perform_path env op).mono fun i hi => (.inl hi : s.group.Known i)
      exact (hpath.invariant (fun _ _ => Buffer.Step.within) h.buffer).mono hremembers
    · rw [hg]
      exact hremembers _ (h.out (hsettled ▸ hnot) b (hout ▸ hb) v hv)
  | others sequence buffered _ hs' =>
    subst hs'
    exact ⟨⟨h.buffer.values, h.buffer.lost, h.buffer.newest⟩, h.out⟩
  | trim before need =>
    have hremembers := s.group.drop_remembers env before need
    refine ⟨(drop_within env h.buffer before need).mono hremembers, fun hnot b hb v hv => ?_⟩
    rw [trim_out] at hb
    exact hremembers _ (h.out hnot b hb v hv)
  | take now _ =>
    have hremembers := s.group.take_remembers env now
    refine ⟨⟨fun v hv => ?_, fun i l hl => ?_, fun i l v hl => ?_⟩, fun _ b hb v hv => ?_⟩
    · exact hremembers _ (h.buffer.values v (mem_filter.mp hv).1)
    · cases hl
    · cases hl
    · refine hremembers _ ?_
      rcases mem_take env hb with ⟨c, -, rfl⟩ | ⟨w, hw, -, hitem⟩
      · cases hv
      · rw [hitem] at hv
        cases hv
        rcases mem_append.mp hw with hw | hw
        · exact lostRecords_within env h.buffer hw
        · exact h.buffer.values w (mem_filter.mp hw).1
  | finish hphase _ => exact finish_mapped h hphase
  | carries hc =>
    have hremembers : s.group.Remembers s'.group := .of_eq hc.nodes hc.gone
    refine ⟨?_, fun hnot => ?_⟩
    · rw [hc.buffer]
      exact h.buffer.mono hremembers
    · cases hsettled : s.settled with
      | true =>
        rcases hc.ended hsettled with hsame | hnone
        · rw [hsame] at hnot
          cases hnot
        · rw [hnone]
          exact fun b hb => absurd hb not_mem_nil
      | false => exact known_of_stands hc.out fun b hb v hv => hremembers _ (h.out hsettled b hb v hv)

variable (env) in
/-- Each file lists the indexes of its values, and so it does once a write that is out is committed. -/
structure Listed (s : System V Id) : Prop where
  files : s.files.Lists env.calendar
  write : ∀ write, s.phase.write? = some write → (s.files.commit env write).Lists env.calendar

omit [DecidableEq Id] in
theorem Listed.of_lists (hfiles : s.files.Lists env.calendar) (hnone : s.phase.write? = none) : s.Listed env where
  files := hfiles
  write write hout := by
    rw [hnone] at hout
    cases hout

omit [DecidableEq Id] in
theorem Listed.of_files (h : s.Listed env) (hfiles : s'.files.files = s.files.files)
    (hnone : s'.phase.write? = none) : s'.Listed env :=
  .of_lists (fun day file hfile => h.files day file (hfiles ▸ hfile)) hnone

omit [DecidableEq Id] in
theorem Listed.congr (h : s.Listed env) (hphase : s'.phase = s.phase) (hfiles : s'.files = s.files) :
    s'.Listed env where
  files := by
    rw [hfiles]
    exact h.files
  write write hout := by
    rw [hfiles]
    rw [hphase] at hout
    exact h.write write hout

omit [DecidableEq Id] in
theorem Listed.of_write {write : DayWrite V Id} (h : s.Listed env) (hfiles : s'.files.files = s.files.files)
    (hphase : s'.phase.write? = some write) (hwrite : (s'.files.commit env write).Lists env.calendar) :
    s'.Listed env where
  files day file hfile := h.files day file (hfiles ▸ hfile)
  write write' hout := by
    rw [hphase] at hout
    cases hout
    exact hwrite

/-- A flush's day, as it is written. -/
def dayRecords (env : Env V Id) (s : System V Id) (lo hi : ℕ) : List (HistoryRecord V Id) :=
  ((s.group.warned lo hi).part lo hi).map fun b => b.item.toFile env

omit [DecidableEq Id] in
theorem Mapped.dayRecords (h : s.Mapped) (hphase : s.phase = .writing fl) (lo hi : ℕ)
    (nextIndex : NodeIndex) {v : DataValue V} (hv : v ∈ valuesIn (s.dayRecords env lo hi)) :
    ((s.members walkBack nextIndex).find v.index).isSome = true := by
  refine (s.group.isSome_membership_find nextIndex (walkBack s.files) v.index).mpr ?_
  obtain ⟨r, hr, hrv⟩ := mem_filterMap.mp hv
  obtain ⟨b, hb, rfl⟩ := mem_map.mp hr
  have hsettled : s.settled = false := by simp only [settled, hphase]
  have hout : s.out = s.group.taken.getD [] := by simp only [System.out, hphase]
  have hknown := known_of_stands (stands_warned s.group lo hi)
    (fun b hb => h.out hsettled b (hout ▸ hb)) b (mem_batchAt hb)
  cases hitem : b.item with
  | change c =>
    rw [hitem] at hrv
    cases c <;> cases hrv
  | value w =>
    rw [hitem] at hrv
    cases hrv
    exact hknown w hitem

theorem step_listed (hmapped : s.Mapped) (h : s.Listed env)
    (hs : s.step env walkBack a = some s') : s'.Listed env := by
  cases step_steps hs with
  | perform _ | others _ | trim _ _ | deliver _ | subscribe _ _ | unsubscribe _ => exact h.congr rfl rfl
  | take _ _ | failDay _ | failJob _ | mark _ | endFlush _ => exact h.of_files rfl rfl
  | taking _ =>
    refine h.of_files ?_ rfl
    simp only [taking]
    split_ifs <;> rfl
  | hold _ hs =>
    obtain ⟨⟨day, stop, due⟩, -, rfl⟩ := map_eq_some_iff.mp hs
    exact h.of_files rfl rfl
  | @prepare fl _ hphase hs =>
    obtain ⟨⟨day, stop, due⟩, -, hs⟩ := map_eq_some_iff.mp hs
    subst hs
    refine h.of_write (s.files.prepare_files env day _ _ fl.taken false).1 rfl ?_
    refine GroupFiles.prepare_lists h.files (fun v hv => ?_) fl.taken false
    exact hmapped.dayRecords hphase fl.done stop fl.nextIndex hv
  | @commitDay fl stop due write hphase =>
    have hcommit := h.write write (by rw [hphase]; rfl)
    cases write
    · exact h.of_files rfl rfl
    · exact .of_lists hcommit rfl
    · exact .of_lists hcommit rfl
  | @commitJob fl write hphase => exact .of_lists (h.write write (by rw [hphase]; rfl)) rfl
  | finish _ _ =>
    simp only [finish]
    split_ifs <;> exact h.of_files rfl rfl
  | @correct fl day records create _ _ =>
    have hnone : ∀ v ∈ valuesIn (records.map HistoryRecord.added),
        ((s.members walkBack fl.nextIndex).find v.index).isSome = true := by
      intro v hv
      rw [show valuesIn (records.map HistoryRecord.added) = [] from valuesIn_map_added id records] at hv
      cases hv
    exact h.of_write (s.files.prepare_files env day _ _ fl.taken create).1 rfl
      (GroupFiles.prepare_lists h.files hnone fl.taken create)
  | edit hphase => exact h.of_files rfl (by simp only [hphase, Phase.write?])

/-- The values a flush has taken and not written. -/
def toWrite (s : System V Id) : List (Buffered (Record V Id)) :=
  match s.phase with
  | .took _ _ _ batch => batch
  | _ => s.group.unwritten

omit [DecidableEq Id] in
theorem Mapped.toWrite (h : s.Mapped) (hsound : s.Sound env) {b : Buffered (Record V Id)} (hb : b ∈ s.toWrite)
    {v : DataValue V} (hv : b.item = .value v) : s.group.Known v.index := by
  simp only [System.toWrite] at hb
  simp only [Sound] at hsound
  cases hphase : s.phase with
  | idle =>
    simp only [hphase] at hb hsound
    rw [unwritten_eq_nil hsound] at hb
    cases hb
  | jobs fl =>
    simp only [hphase] at hb hsound
    rw [hsound] at hb
    cases hb
  | job fl write =>
    simp only [hphase] at hb hsound
    rw [hsound.1] at hb
    cases hb
  | took fl days due batch =>
    simp only [hphase] at hb
    exact h.out (by simp only [settled, hphase]) b (by simpa only [out_of_phase hphase] using hb) v hv
  | writing | prepared | committed =>
    simp only [hphase] at hb
    exact h.out (by simp only [settled, hphase]) b (by simpa only [System.out, hphase] using mem_batchAt hb) v hv

theorem run_mapped (h : s.Mapped) (hlisted : s.Listed env) {as : List (Action V Id)}
    (hs : s.run env walkBack as = some s') : s'.Mapped ∧ s'.Listed env := by
  induction as generalizing s with
  | nil =>
    cases hs
    exact ⟨h, hlisted⟩
  | cons a as ih =>
    obtain ⟨s₁, hs₁, hs⟩ := bind_eq_some_iff.mp hs
    exact ih (step_mapped h hs₁) (step_listed h hlisted hs₁) hs

/-- Whatever the interleaving, each value still to be written is of an index the group knows, so that its
write finds the node, and each file lists the indexes of its values. -/
theorem values_mapped {s₀ : System V Id} (hstart : s₀.Starts) (hfiles : s₀.files.Lists env.calendar)
    {as : List (Action V Id)} (hrun : s₀.run env walkBack as = some s) :
    (∀ b ∈ s.group.values, s.group.Known b.item.index) ∧
    (∀ i l, s.group.lost.find? i = some l →
      s.group.Known i ∧ ∀ b, l.newest = some b → s.group.Known b.item.index) ∧
    (∀ b ∈ s.toWrite, ∀ v, b.item = .value v → s.group.Known v.index) ∧
    (∀ fl day stop due, s.phase = .writing fl → fl.next env (s.group.taken.getD []) = some (day, stop, due) →
      ∀ v ∈ valuesIn (s.dayRecords env fl.done stop),
        ((s.members walkBack fl.nextIndex).find v.index).isSome = true) ∧
    ∀ day file, s.files.files.find? day = some file → ∀ v ∈ valuesIn file.records,
      ((file.preamble (env.calendar.startOf day)).find? v.index).isSome = true := by
  have hlisted : s₀.Listed env := .of_lists hfiles (by rw [hstart.idle]; rfl)
  obtain ⟨h, hl⟩ := run_mapped hstart.mapped hlisted hrun
  have hsound : s.Sound env := by classical exact (run_conserves hstart.sound hrun).sound
  refine ⟨h.buffer.values, fun i l hil => ⟨h.buffer.lost i l hil, fun b hb => ?_⟩,
    fun b hb v hv => h.toWrite hsound hb hv, ?_, hl.files⟩
  · exact h.buffer.newest i l b hil hb ▸ h.buffer.lost i l hil
  · exact fun fl day stop due hphase _ v hv => h.dayRecords hphase fl.done stop fl.nextIndex hv

end System

theorem oneMember_lists : oneMember.files.Lists plainHost.calendar := nofun

theorem overfullFlushed_mapped : ∃ s, oneMember.run plainHost nothingBefore overfullFlushed = some s ∧
    s.group.values ≠ [] ∧ s.files.files.keys ≠ [] ∧ (∀ b ∈ s.group.values, s.group.Known b.item.index) ∧
    ∀ day file, s.files.files.find? day = some file → ∀ v ∈ valuesIn file.records,
      ((file.preamble (plainHost.calendar.startOf day)).find? v.index).isSome = true := by
  have hrun : (oneMember.run plainHost nothingBefore overfullFlushed).map
      (fun s => (s.group.values.isEmpty, s.files.files.keys.isEmpty)) = some (false, false) := by
    decide
  obtain ⟨s, hs, hsome⟩ := map_eq_some_iff.mp hrun
  simp only [Prod.mk.injEq, isEmpty_eq_false_iff] at hsome
  obtain ⟨hvalues, -, -, -, hfiles⟩ := System.values_mapped oneMember_starts oneMember_lists hs
  exact ⟨s, hs, hsome.1, hsome.2, hvalues, hfiles⟩

end OpcHub.Historian
