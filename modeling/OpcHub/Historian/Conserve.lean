import Mathlib.Data.List.TakeWhile
import OpcHub.Historian.Commit
import OpcHub.Historian.Moves

/-! No value is lost or doubled between the buffer, a running flush and the files.
A flush's batch leaves the buffer when it is taken; each day's part of it goes to
the day's file, is let go, or goes back. `System.net` adds what the flush has in
hand and what the files hold to the buffer's balance, and no action changes it. -/

namespace OpcHub.Historian

open Lib List Historian.Group DataValue Buffered

variable {V Id : Type*} {l batch : List (Buffered (Record V Id))} {b : Buffered (Record V Id)}

/-- Whether a record is a heartbeat. -/
def Record.isBeat : Record V Id → Bool
  | .value v => v.heartbeat.isSome
  | .change _ => false

/-- Each heartbeat of a batch is released. -/
def Released (l : List (Buffered (Record V Id))) : Prop := ∀ b ∈ l, b.item.isBeat = true → b.released = true

theorem Released.sublist {l₁ l₂ : List (Buffered (Record V Id))} (h : Released l₂) (hsub : ∀ b ∈ l₁, b ∈ l₂) :
    Released l₁ := fun b hb => h b (hsub b hb)

namespace Group

/-- What is unwritten of a batch but for that part. -/
def elsewhere (g : Group V Id) (lo hi : ℕ) : List (Buffered (Record V Id)) :=
  g.batchAt (g.unwrittenAt.filter fun i => !(List.range' lo (hi - lo)).contains i)

/-- A flush amid its batch, which is in time order: what is from `done` on is unwritten, and of what it passed
just what it holds back. -/
structure Writing (g : Group V Id) (fl : Flush) : Prop where
  released : Released (g.taken.getD [])
  sorted : ((g.taken.getD []).map Buffered.time).Pairwise (· ≤ ·)
  done_le : fl.done ≤ (g.taken.getD []).length
  ahead : ∀ i, fl.done ≤ i → i < (g.taken.getD []).length → i ∈ g.unwrittenAt
  held_nodup : fl.held.Nodup
  held_lt : ∀ i ∈ fl.held, i < fl.done
  held_unwritten : ∀ i ∈ fl.held, i ∈ g.unwrittenAt
  passed : ∀ i ∈ g.unwrittenAt, i < fl.done → i ∈ fl.held

variable {g g' : Group V Id} {fl : Flush}

theorem Writing.congr (h : g.Writing fl) (htaken : g'.taken = g.taken) (hwritten : g'.written = g.written) :
    g'.Writing fl := by
  obtain ⟨hreleased, hsorted, hle, hahead, hnodup, hlt, hheld, hpassed⟩ := h
  refine ⟨?_, ?_, ?_, ?_, hnodup, hlt, ?_, ?_⟩
  all_goals simpa only [unwrittenAt, htaken, hwritten]

theorem unwritten_congr (htaken : g'.taken = g.taken) (hwritten : g'.written = g.written) :
    g'.unwritten = g.unwritten := by
  simp only [unwritten, batchAt, unwrittenAt, htaken, hwritten]

theorem unwritten_eq_nil (h : g.taken = none) : g.unwritten = [] := by
  simp [unwritten, batchAt, h]

theorem mem_batchAt {places : List ℕ} (h : b ∈ g.batchAt places) : b ∈ g.taken.getD [] := by
  obtain ⟨i, -, hi⟩ := mem_filterMap.mp h
  exact mem_of_getElem? hi

variable {stop : ℕ} {due : List Day}

/-- The batch's places ahead are the unwritten ones of a part, and the rest. -/
theorem Writing.unwritten_perm (h : g.Writing fl) (hstop : stop ≤ (g.taken.getD []).length) :
    g.unwritten.Perm (g.part fl.done stop ++ g.elsewhere fl.done stop) := by
  refine batchAt_unwrittenAt_perm g _ nodup_range' fun i hi => ?_
  rw [mem_range'_1] at hi
  exact h.ahead i hi.1 (by omega)

theorem Writing.holding (h : g.Writing fl) {deferred : Option Day}
    (hdone : fl.done ≤ stop) (hstop : stop ≤ (g.taken.getD []).length) :
    g.Writing (fl.holding stop due deferred) where
  released := h.released
  sorted := h.sorted
  done_le := hstop
  ahead i hi hlen := h.ahead i (hdone.trans hi) hlen
  held_nodup := by
    refine nodup_append.mpr ⟨h.held_nodup, nodup_range', fun i hi j hj => ?_⟩
    have := h.held_lt i hi
    have := (mem_range'_1.mp hj).1
    omega
  held_lt i hi := by
    rcases mem_append.mp hi with hi | hi
    · exact (h.held_lt i hi).trans_le hdone
    · have := (mem_range'_1.mp hi).2
      simp only [Flush.holding, Flush.pass]
      omega
  held_unwritten i hi := by
    rcases mem_append.mp hi with hi | hi
    · exact h.held_unwritten i hi
    · have hi := mem_range'_1.mp hi
      exact h.ahead i hi.1 (by omega)
  passed i hi hlt := by
    have hlt : i < stop := hlt
    rcases lt_or_ge i fl.done with hold | hold
    · exact mem_append_left _ (h.passed i hi hold)
    · exact mem_append_right _ (mem_range'_1.mpr ⟨hold, by omega⟩)

theorem unwrittenAt_wrote (g : Group V Id) (lo hi : ℕ) :
    (g.wrote lo hi).unwrittenAt = g.unwrittenAt.filter fun i => !(range' lo (hi - lo)).contains i := by
  simp only [unwrittenAt, filter_filter]
  refine filter_congr fun i _ => ?_
  have hin : (range' lo (hi - lo)).contains i = (decide (lo ≤ i) && decide (i < hi)) := by
    rw [Bool.eq_iff_iff, contains_iff_mem, mem_range'_1]
    simp
    omega
  simp only [wrote, getElem?_mapIdx, hin]
  cases g.written[i]? with
  | none => simp
  | some w => cases w <;> simp

theorem unwritten_wrote (g : Group V Id) (lo hi : ℕ) : (g.wrote lo hi).unwritten = g.elsewhere lo hi := by
  rw [unwritten, unwrittenAt_wrote]
  rfl

theorem Writing.wrote (h : g.Writing fl) (hdone : fl.done ≤ stop) (hstop : stop ≤ (g.taken.getD []).length) :
    (g.wrote fl.done stop).Writing (fl.pass stop due) := by
  have hmem : ∀ i, i ∈ (g.wrote fl.done stop).unwrittenAt ↔ i ∈ g.unwrittenAt ∧ (i < fl.done ∨ stop ≤ i) := by
    intro i
    rw [unwrittenAt_wrote, mem_filter]
    simp [mem_range'_1]
    omega
  refine ⟨h.released, h.sorted, hstop, fun i hi hlen => (hmem i).mpr ⟨h.ahead i (hdone.trans hi) hlen, .inr hi⟩,
    h.held_nodup, fun i hi => (h.held_lt i hi).trans_le hdone, fun i hi => ?_, fun i hi hlt => ?_⟩
  · exact (hmem i).mpr ⟨h.held_unwritten i hi, .inl (h.held_lt i hi)⟩
  · obtain ⟨hi, hout⟩ := (hmem i).mp hi
    exact h.passed i hi (hout.resolve_right (not_le.mpr hlt))

/-- Past the last of the batch, what is unwritten is held back. -/
theorem Writing.unwritten_held (h : g.Writing fl) (hend : (g.taken.getD []).length ≤ fl.done) :
    g.unwritten.Perm (g.batchAt fl.held) := by
  have hnone : (g.unwrittenAt.filter fun i => !fl.held.contains i) = [] := by
    refine filter_eq_nil_iff.mpr fun i hi => ?_
    have hlt : i < (g.taken.getD []).length := mem_range.mp (mem_filter.mp hi).1
    simpa using h.passed i hi (hlt.trans_le hend)
  have hperm := batchAt_unwrittenAt_perm g fl.held h.held_nodup h.held_unwritten
  rw [hnone] at hperm
  simpa [batchAt] using hperm

section Warned

/-- A value whose warning is given is the same value. -/
def warn (b : Buffered (Record V Id)) : Buffered (Record V Id) :=
  match b.item with
  | .value v => { b with item := .value v.filed }
  | .change _ => b

theorem warned_getElem? (g : Group V Id) (lo hi i : ℕ) :
    ((g.warned lo hi).taken.getD [])[i]? = ((g.taken.getD [])[i]?).map fun b =>
      if lo ≤ i ∧ i < hi then warn b else b := by
  cases h : g.taken with
  | none => simp [warned, h]
  | some batch =>
    simp only [warned, h, Option.map_some, Option.getD_some, getElem?_mapIdx]
    rfl

theorem length_warned (g : Group V Id) (lo hi : ℕ) :
    ((g.warned lo hi).taken.getD []).length = (g.taken.getD []).length := by
  cases h : g.taken <;> simp [warned, h]

theorem unwrittenAt_warned (g : Group V Id) (lo hi : ℕ) : (g.warned lo hi).unwrittenAt = g.unwrittenAt := by
  rw [unwrittenAt, length_warned]
  rfl

theorem valuesOf_cons : valuesOf (b :: l) = valuesOf [b] ++ valuesOf l := valuesOf_append [b] l

/-- Of a record, what its warning leaves alone. -/
theorem warn_spec (b : Buffered (Record V Id)) : (valuesOf [warn b]).map token = (valuesOf [b]).map token ∧
    (warn b).time = b.time ∧ (warn b).released = b.released ∧ (warn b).item.isBeat = b.item.isBeat := by
  obtain ⟨item, sequence, bytes, copied, released⟩ := b
  cases item <;> exact ⟨rfl, rfl, rfl, rfl⟩

theorem tokens_warned (g : Group V Id) (lo hi : ℕ) (places : List ℕ) :
    (valuesOf ((g.warned lo hi).batchAt places)).map token = (valuesOf (g.batchAt places)).map token := by
  simp only [batchAt, warned_getElem?]
  induction places with
  | nil => rfl
  | cons i places ih =>
    rw [filterMap_cons, filterMap_cons]
    cases (g.taken.getD [])[i]? with
    | none => exact ih
    | some b =>
      simp only [Option.map_some]
      rw [valuesOf_cons, map_append, ih, @valuesOf_cons _ _ _ b, map_append]
      split_ifs
      · rw [(warn_spec b).1]
      · rfl

theorem times_warned (g : Group V Id) (lo hi : ℕ) :
    ((g.warned lo hi).taken.getD []).map Buffered.time = (g.taken.getD []).map Buffered.time := by
  refine ext_getElem? fun i => ?_
  rw [getElem?_map, getElem?_map, warned_getElem?, Option.map_map]
  refine Option.map_congr fun b _ => ?_
  simp only [Function.comp_apply]
  split_ifs
  · exact (warn_spec b).2.1
  · rfl

theorem Writing.warned (h : g.Writing fl) (lo hi : ℕ) : (g.warned lo hi).Writing fl where
  released b hb hbeat := by
    obtain ⟨i, hi⟩ := mem_iff_getElem?.mp hb
    rw [warned_getElem?, Option.map_eq_some_iff] at hi
    obtain ⟨b', hb', rfl⟩ := hi
    have hmem := h.released b' (mem_of_getElem? hb')
    split_ifs at hbeat ⊢
    · exact (warn_spec b').2.2.1 ▸ hmem ((warn_spec b').2.2.2 ▸ hbeat)
    · exact hmem hbeat
  sorted := times_warned g lo hi ▸ h.sorted
  done_le := by simpa only [length_warned] using h.done_le
  ahead := by simpa only [length_warned, unwrittenAt_warned] using h.ahead
  held_nodup := h.held_nodup
  held_lt := h.held_lt
  held_unwritten := by simpa only [unwrittenAt_warned] using h.held_unwritten
  passed := by simpa only [unwrittenAt_warned] using h.passed

end Warned

end Group

section Batch

theorem Group.take_released (env : Env V Id) (g : Group V Id) (now : TimePoint) : Released (g.take env now).1 := by
  have hrelease : ∀ (l : List (Buffered (DataValue V))) (b : Buffered (Record V Id)),
      b ∈ (l.map release).map (Buffered.map .value) → b.item.isBeat = true → b.released = true := by
    intro l b hb hbeat
    rw [map_map] at hb
    obtain ⟨v, -, rfl⟩ := mem_map.mp hb
    simp only [Function.comp_apply, Buffered.map, release] at hbeat ⊢
    split_ifs at hbeat ⊢ with h
    · rfl
    · exact absurd hbeat h
  intro b hb hbeat
  simp only [take, mem_append] at hb
  rcases hb with hb | hb
  · exact hrelease _ b hb hbeat
  · rcases mem_append.mp ((mergeBy_perm _ _ _).mem_iff.mp hb) with hb | hb
    · obtain ⟨c, -, rfl⟩ := mem_map.mp hb
      cases hbeat
    · exact hrelease _ b hb hbeat

variable (env : Env V Id)

variable {files : GroupFiles V Id}

theorem mem_copies {c : Buffered (Record V Id)} (h : c ∈ copies env files b) :
    ∃ change, c.item = .change change := by
  simp only [copies] at h
  split at h
  · cases h
  · split_ifs at h
    · cases h
    · obtain ⟨later, -, rfl⟩ := mem_map.mp h
      exact ⟨_, rfl⟩

theorem arrange_released (h : Released batch) : Released (arrange env files batch) := by
  intro b hb hbeat
  rcases mem_append.mp (mem_stableSort.mp hb) with hb | hb
  · obtain ⟨b', hb', rfl⟩ := mem_map.mp hb
    obtain ⟨item, sequence, bytes, copied, released⟩ := b'
    cases item with
    | change c => cases hbeat
    | value v => exact h _ hb' hbeat
  · obtain ⟨b', -, hcopy⟩ := mem_flatMap.mp hb
    obtain ⟨change, hchange⟩ := mem_copies env hcopy
    rw [hchange] at hbeat
    cases hbeat

theorem valuesOf_arrange_perm : (valuesOf (arrange env files batch)).Perm (valuesOf batch) := by
  have hmarked : valuesOf (batch.map markCopied) = valuesOf batch := by
    rw [valuesOf, valuesOf, filterMap_map]
    refine filterMap_congr fun b _ => ?_
    obtain ⟨item, sequence, bytes, copied, released⟩ := b
    cases item <;> rfl
  have hcopies : valuesOf (batch.flatMap (copies env files)) = [] := by
    refine filterMap_eq_nil_iff.mpr fun c hc => ?_
    obtain ⟨b, -, hb⟩ := mem_flatMap.mp hc
    obtain ⟨change, hchange⟩ := mem_copies env hb
    simp [hchange]
  have hsort : (arrange env files batch).Perm (batch.map markCopied ++ batch.flatMap (copies env files)) :=
    stableSort_perm _
  have h := valuesOf_perm hsort
  rwa [valuesOf_append, hmarked, hcopies, append_nil] at h

/-- What a day's file is brought of a part of a batch. -/
def brought (l : List (Buffered (Record V Id))) : List (DataValue V) := (valuesOf l).map fun b => b.item.filed

theorem valuesIn_toFile (l : List (Buffered (Record V Id))) : valuesIn (l.map fun b => b.item.toFile env) = brought l := by
  rw [valuesIn, brought, valuesOf, filterMap_map, map_filterMap]
  refine filterMap_congr fun b _ => ?_
  obtain ⟨item, sequence, bytes, copied, released⟩ := b
  rcases item with (_ | _) | _ <;> rfl

theorem mem_valuesOf {v : Buffered (DataValue V)} (h : v ∈ valuesOf l) :
    ∃ b ∈ l, b.sequence = v.sequence ∧ b.released = v.released ∧ b.item = .value v.item := by
  obtain ⟨b, hb, hv⟩ := mem_filterMap.mp h
  refine ⟨b, hb, ?_⟩
  split at hv
  · rename_i w hw
    cases hv
    exact ⟨rfl, rfl, hw⟩
  · cases hv

/-- A part of a batch, its heartbeats released, is what its file is brought. -/
theorem tally_brought [DecidableEq V] (h : Released l) (x : Token V) :
    tally x (valuesOf l) = tallyAs x leaving (brought l) := by
  have hleave : ∀ v ∈ valuesOf l, v.token = v.item.leaving := by
    intro v hv
    obtain ⟨b, hb, -, hreleased, hitem⟩ := mem_valuesOf hv
    refine token_eq_leaving fun hbeat => hreleased ▸ h b hb ?_
    rw [hitem]
    exact hbeat
  rw [tally_eq_tallyAs x hleave, tallyAs, tallyAs, brought, map_map, map_map]
  rfl

theorem Flush.done_of_next {fl : Flush} (h : fl.next env batch = none) : batch.length ≤ fl.done := by
  simp only [Flush.next] at h
  split at h
  · rename_i hnone _
    exact getElem?_eq_none_iff.mp hnone
  · cases h
  · cases h
  · split_ifs at h

theorem Flush.next_bounds {fl : Flush} {day : Day} {stop : ℕ} {due : List Day}
    (h : fl.next env batch = some (day, stop, due)) (hdone : fl.done ≤ batch.length) : fl.done ≤ stop ∧ stop ≤ batch.length := by
  have hstop : ∀ day, batch[fl.done]?.isSome → fl.done + 1 + ((batch.drop (fl.done + 1)).takeWhile fun b =>
      decide (b.time < env.calendar.startOf (day + 1))).length ≤ batch.length := by
    intro day hsome
    have hlt : fl.done < batch.length := by simpa using hsome
    have hle := (takeWhile_sublist (l := batch.drop (fl.done + 1)) fun b =>
      decide (b.time < env.calendar.startOf (day + 1))).length_le
    rw [length_drop] at hle
    omega
  simp only [Flush.next] at h
  split at h
  · cases h
  · simp only [Option.some.injEq, Prod.mk.injEq] at h
    omega
  · rename_i b hb _
    simp only [Option.some.injEq, Prod.mk.injEq] at h
    have := hstop (b.day env) (by simp [hb])
    omega
  · rename_i b day' due' hb _
    split_ifs at h
    all_goals
      simp only [Option.some.injEq, Prod.mk.injEq] at h
      have := hstop (b.day env) (by simp [hb])
      omega

/-- A part of a batch is of times its day's file is written. -/
theorem Flush.next_covers {fl : Flush} {day : Day} {stop : ℕ} {due : List Day}
    (h : fl.next env batch = some (day, stop, due)) (hsorted : (batch.map Buffered.time).Pairwise (· ≤ ·)) {i : ℕ}
    (hi : fl.done ≤ i) (hstop : i < stop) {t : Ticks} (ht : (batch.map Buffered.time)[i]? = some t) :
    env.calendar.Covers day t := by
  -- the part's first is of the day, and the others come before the next
  have hpart : ∀ first, batch[fl.done]? = some first → i < fl.done + 1 + ((batch.drop (fl.done + 1)).takeWhile
      fun b => decide (b.time < env.calendar.startOf (first.day env + 1))).length →
      env.calendar.Covers (first.day env) t := by
    intro first hfirst hlt
    obtain ⟨hlen, rfl⟩ := List.getElem?_eq_some_iff.mp ht
    obtain ⟨hlen', rfl⟩ := List.getElem?_eq_some_iff.mp hfirst
    rw [getElem_map]
    rcases hi.eq_or_lt with rfl | hgt
    · exact ⟨_, le_rfl, rfl, .inl rfl⟩
    · have hle := List.pairwise_iff_getElem.mp hsorted fl.done i (by simpa using hlen') hlen hgt
      rw [getElem_map, getElem_map] at hle
      refine ⟨_, hle, rfl, .inr ?_⟩
      have hmem := getElem_mem (l := (batch.drop (fl.done + 1)).takeWhile fun b =>
        decide (b.time < env.calendar.startOf (batch[fl.done].day env + 1))) (n := i - (fl.done + 1)) (by omega)
      have htime := mem_takeWhile_imp hmem
      rw [( takeWhile_prefix _).getElem, getElem_drop] at htime
      simpa [Nat.add_sub_cancel' (Nat.succ_le_of_lt hgt)] using htime
  simp only [Flush.next] at h
  split at h
  · cases h
  · cases h
    omega
  · rename_i first hfirst _
    cases h
    exact hpart first hfirst hstop
  · rename_i first day' due' hfirst _
    split_ifs at h <;> cases h
    · exact hpart first hfirst hstop
    · exact hpart first hfirst hstop
    · omega

end Batch

namespace System

variable (env : Env V Id)

/-- What the flush has in hand: from its take until a read may see the batch, all of it; after a
day's commit, all but what its file now holds. -/
def inFlight (s : System V Id) : List (Buffered (Record V Id)) :=
  match s.phase with
  | .took _ _ _ batch => batch
  | .committed fl stop _ => s.group.elsewhere fl.done stop
  | _ => s.group.unwritten

/-- What each phase relies on. -/
def Sound (s : System V Id) : Prop :=
  match s.phase with
  | .idle => s.group.taken = none
  | .took fl _ _ batch => s.group.taken = none ∧ Released batch ∧ fl.done = 0 ∧ fl.held = []
  | .writing fl => s.group.Writing fl
  | .prepared fl stop _ write => s.group.Writing fl ∧ fl.done ≤ stop ∧ stop ≤ (s.group.taken.getD []).length ∧
      write.Brings env s.files (brought (s.group.part fl.done stop))
  | .committed fl stop _ => s.group.Writing fl ∧ fl.done ≤ stop ∧ stop ≤ (s.group.taken.getD []).length
  | .jobs _ => s.group.unwritten = []
  | .job _ write => s.group.unwritten = [] ∧ write.Brings env s.files []

/-- What flushes let go, a refused file was to take. -/
def LetGo (s : System V Id) : Prop := ∀ b ∈ s.group.ledger.discarded, s.files.Refuses env b.item.primaryTime

variable [DecidableEq V]

/-- The group's balance, with what the flush has in hand and the files hold. -/
def net (s : System V Id) (x : Token V) : ℤ :=
  s.group.net x + tally x (Group.valuesOf s.inFlight) + tallyAs x DataValue.leaving s.files.values

/-- A step that keeps what its phase relies on and the balance, and lets only go what a refused file was to
take. -/
structure Conserves (s s' : System V Id) : Prop where
  sound : s'.Sound env
  net : s'.net = s.net
  letGo : s.LetGo env → s'.LetGo env

variable {env} {s s' : System V Id} {fl : Flush} {stop : ℕ} {due : List Day} {write : DayWrite V Id}

omit [DecidableEq V] in
theorem LetGo.of_files (h : s.LetGo env) (hledger : s'.group.ledger.discarded = s.group.ledger.discarded)
    (hfiles : s'.files.files = s.files.files) : s'.LetGo env := by
  intro b hb
  rw [GroupFiles.Refuses, hfiles]
  exact h b (hledger ▸ hb)

/-- A step that leaves the flush and the files alone. -/
theorem Conserves.of_buffer (h : s.Sound env) (hphase : s'.phase = s.phase) (hfiles : s'.files = s.files)
    (htaken : s'.group.taken = s.group.taken) (hwritten : s'.group.written = s.group.written)
    (hnet : s'.group.net = s.group.net) (hdiscarded : s'.group.ledger.discarded = s.group.ledger.discarded) :
    Conserves env s s' := by
  have hunwritten := unwritten_congr htaken hwritten
  refine ⟨?_, ?_, fun hgo => hgo.of_files hdiscarded (by rw [hfiles])⟩
  · cases hp : s.phase <;> simp only [Sound, hphase, hfiles, part, batchAt, htaken, hunwritten, hp] at h ⊢
    case writing => exact h.congr htaken hwritten
    case prepared => exact ⟨h.1.congr htaken hwritten, h.2⟩
    case committed => exact ⟨h.1.congr htaken hwritten, h.2⟩
    all_goals exact h
  · funext x
    simp only [System.net, inFlight, hphase, hfiles, hnet, unwritten, elsewhere, batchAt,
      Group.unwrittenAt, htaken, hwritten]

omit [DecidableEq V] in
theorem taking_unwrittenAt (g : Group V Id) (batch : List (Buffered (Record V Id))) :
    (g.taking batch).unwrittenAt = range batch.length := by
  refine filter_eq_self.mpr fun i hi => ?_
  have hi : i < batch.length := mem_range.mp hi
  simp [Group.taking, hi]

omit [DecidableEq V] in
theorem taking_unwritten (g : Group V Id) (batch : List (Buffered (Record V Id))) :
    (g.taking batch).unwritten = batch := by
  rw [unwritten, taking_unwrittenAt]
  simp only [Group.batchAt, Group.taking, Option.getD_some]
  induction batch with
  | nil => rfl
  | cons b batch ih =>
    rw [length_cons, range_succ_eq_map, filterMap_cons]
    simpa [filterMap_map, Function.comp_def] using ih

variable (h : s.Sound env)
include h

theorem take_conserves (hphase : s.phase = .idle) (now : TimePoint) : Conserves env s (s.take env now) := by
  have htaken : s.group.taken = none := by simpa only [Sound, hphase] using h
  refine ⟨⟨htaken, s.group.take_released env now, rfl, rfl⟩, ?_, fun hgo => hgo.of_files rfl rfl⟩
  funext x
  have hnet := s.group.take_net env now x
  simp only [net, inFlight, hphase, unwritten_eq_nil htaken]
  simp only [take, hnet, valuesOf, filterMap_nil, tally_nil]
  omega

theorem taking_conserves {closed stopping : Bool}
    (hphase : s.phase = .took fl closed stopping batch) :
    Conserves env s (s.taking env fl closed stopping batch) := by
  obtain ⟨-, hreleased, hdone, hheld⟩ : s.group.taken = none ∧ Released batch ∧ fl.done = 0 ∧ fl.held = [] := by
    simpa only [Sound, hphase] using h
  have hfiles : (s.taking env fl closed stopping batch).files.files = s.files.files := by
    cases closed <;> rfl
  generalize hs' : s.taking env fl closed stopping batch = s' at hfiles ⊢
  obtain ⟨files, hgroup⟩ : ∃ files, s'.group = s.group.taking (arrange env files batch) := ⟨_, by rw [← hs']; rfl⟩
  obtain ⟨due, hphase'⟩ : ∃ due, s'.phase = .writing { fl with due } := ⟨_, by rw [← hs']; rfl⟩
  refine ⟨?_, ?_, fun hgo => hgo.of_files (by rw [hgroup]; rfl) hfiles⟩
  · simp only [Sound, hphase', hgroup]
    refine ⟨arrange_released env hreleased, pairwise_map.mpr (sortedBy_stableSort _), by simp [hdone],
      fun i _ hi => ?_, ?_, ?_, ?_, ?_⟩
    · rw [taking_unwrittenAt]
      exact mem_range.mpr hi
    all_goals simp [hheld, hdone]
  · funext x
    have hvalues := tally_perm x (@valuesOf_arrange_perm _ _ batch env files)
    have hnet : s'.group.net = s.group.net := by rw [hgroup]; exact net_congr rfl rfl rfl
    simp only [net, inFlight, hphase, hphase', GroupFiles.values, hfiles, hnet]
    rw [hgroup, taking_unwritten, hvalues]

theorem hold_conserves {deferred : Bool} (hphase : s.phase = .writing fl)
    (hs : s.hold env fl deferred = some s') : Conserves env s s' := by
  have hw : s.group.Writing fl := by simpa only [Sound, hphase] using h
  obtain ⟨⟨day, stop, due⟩, hnext, rfl⟩ := Option.map_eq_some_iff.mp hs
  obtain ⟨hdone, hstop⟩ := Flush.next_bounds env hnext hw.done_le
  refine ⟨hw.holding hdone hstop, ?_, fun hgo => hgo.of_files rfl rfl⟩
  funext x
  simp only [net, inFlight, hphase]

theorem prepare_conserves [DecidableEq Id] {walkBack : GroupFiles V Id → NodeIndex → Ticks → Option (DataValue V)}
    (hphase : s.phase = .writing fl) (hs : s.prepare env walkBack fl = some s') : Conserves env s s' := by
  have hw : s.group.Writing fl := by simpa only [Sound, hphase] using h
  obtain ⟨⟨day, stop, due⟩, hnext, rfl⟩ := Option.map_eq_some_iff.mp hs
  obtain ⟨hdone, hstop⟩ := Flush.next_bounds env hnext hw.done_le
  have hcovers : ∀ v ∈ brought ((s.group.warned fl.done stop).part fl.done stop),
      env.calendar.Covers day v.primaryTime := by
    intro v hv
    obtain ⟨w, hwv, rfl⟩ := mem_map.mp hv
    obtain ⟨b, hb, -, -, hitem⟩ := mem_valuesOf hwv
    obtain ⟨i, hi, hbi⟩ := mem_filterMap.mp hb
    have htime : (((s.group.warned fl.done stop).taken.getD []).map time)[i]? = some b.time := by
      rw [getElem?_map, hbi, Option.map_some]
    rw [times_warned, Buffered.time, hitem] at htime
    have hrange := mem_range'_1.mp hi
    exact Flush.next_covers env hnext hw.sorted hrange.1 (by omega) htime
  have hvalues := valuesIn_toFile env ((s.group.warned fl.done stop).part fl.done stop)
  have hbrings := s.files.prepare_brings env (hvalues ▸ hcovers) (s.members walkBack fl.nextIndex) fl.taken false
  have hfiles := (s.files.prepare_files env day
    (((s.group.warned fl.done stop).part fl.done stop).map fun b => b.item.toFile env)
    (s.members walkBack fl.nextIndex) fl.taken false).1
  refine ⟨⟨hw.warned fl.done stop, hdone, by rwa [length_warned], hvalues ▸ hbrings⟩, ?_,
    fun hgo => hgo.of_files rfl hfiles⟩
  funext x
  have hnet : (s.group.warned fl.done stop).net = s.group.net := net_congr rfl rfl rfl
  have htally : tally x (valuesOf (s.group.warned fl.done stop).unwritten) =
      tally x (valuesOf s.group.unwritten) := by
    rw [tally, tally, unwritten, unwrittenAt_warned, tokens_warned]
    rfl
  simp only [net, inFlight, hphase, hnet, htally, GroupFiles.values, hfiles]

theorem commit_conserves (hphase : s.phase = .prepared fl stop due write) :
    Conserves env s (s.commit env fl stop due write) := by
  have hsound : s.group.Writing fl ∧ fl.done ≤ stop ∧ stop ≤ (s.group.taken.getD []).length ∧
      write.Brings env s.files (brought (s.group.part fl.done stop)) := by simpa only [Sound, hphase] using h
  obtain ⟨hw, hdone, hstop, hbrings⟩ := hsound
  have hsplit := fun x => tally_perm x (valuesOf_perm (hw.unwritten_perm hstop))
  simp only [valuesOf_append, tally_append] at hsplit
  by_cases hwrite : write = .nothing
  · -- the file refuses the day's records
    subst hwrite
    refine ⟨Writing.congr (hw.wrote hdone hstop) rfl rfl, ?_, fun hgo b hb => ?_⟩
    · funext x
      have hlost := s.group.discard_net (s.group.part fl.done stop) x
      have hnet : ((s.group.discard (s.group.part fl.done stop)).wrote fl.done stop).net =
        (s.group.discard (s.group.part fl.done stop)).net := net_congr rfl rfl rfl
      have helse : ((s.group.discard (s.group.part fl.done stop)).wrote fl.done stop).unwritten =
        s.group.elsewhere fl.done stop := unwritten_wrote _ _ _
      have hsplit := hsplit x
      simp only [net, inFlight, hphase, commit, hnet, hlost, helse]
      omega
    · rcases mem_append.mp hb with hb | hb
      · exact hgo b hb
      · exact hbrings b.item.filed (mem_map.mpr ⟨b, hb, rfl⟩)
  · have hs' : s.commit env fl stop due write = { s with
        files := s.files.commit env write, phase := .committed { fl with progressed := true } stop due } := by
      cases write <;> first | exact absurd rfl hwrite | rfl
    rw [hs']
    refine ⟨⟨{ hw with }, hdone, hstop⟩, ?_, fun hgo b hb => s.files.commit_refuses env hbrings (hgo b hb)⟩
    funext x
    have hfiles : tallyAs x leaving (s.files.commit env write).values =
        tallyAs x leaving (s.files.values ++ brought (s.group.part fl.done stop)) := by
      rw [tallyAs, tallyAs, ((GroupFiles.commit_values_perm env hbrings hwrite).map _).count_eq]
    have hpart : Released (s.group.part fl.done stop) := hw.released.sublist fun b => mem_batchAt
    have hbrought := tally_brought hpart x
    have hsplit := hsplit x
    simp only [net, inFlight, hphase, hfiles, tallyAs_append]
    omega

theorem mark_conserves (hphase : s.phase = .committed fl stop due) : Conserves env s { s with
      group := s.group.wrote fl.done stop, phase := .writing (fl.pass stop due) } := by
  have hsound : s.group.Writing fl ∧ fl.done ≤ stop ∧ stop ≤ (s.group.taken.getD []).length := by
    simpa only [Sound, hphase] using h
  obtain ⟨hw, hdone, hstop⟩ := hsound
  refine ⟨hw.wrote hdone hstop, ?_, fun hgo => hgo.of_files rfl rfl⟩
  funext x
  have hnet : (s.group.wrote fl.done stop).net = s.group.net := net_congr rfl rfl rfl
  simp only [net, inFlight, hphase, hnet, unwritten_wrote]

theorem finish_conserves (hphase : s.phase = .writing fl) (hnext : fl.next env (s.group.taken.getD []) = none) :
    Conserves env s (s.finish env fl) := by
  have hw : s.group.Writing fl := by simpa only [Sound, hphase] using h
  have hperm := hw.unwritten_held (Flush.done_of_next env hnext)
  simp only [finish]
  generalize hgroup : ({ s.group with
      failing := fl.failing && !fl.progressed
      deferred := !fl.deferring.isEmpty && !fl.failing && !fl.progressed
      deferredDays := fl.deferring } : Group V Id) = group
  have hnet : group.net = s.group.net := by rw [← hgroup]; exact net_congr rfl rfl rfl
  have hunwritten : group.unwritten = s.group.unwritten := by rw [← hgroup]; rfl
  have hbatch : group.batchAt = s.group.batchAt := by rw [← hgroup]; rfl
  have hledger : group.ledger = s.group.ledger := by rw [← hgroup]
  split_ifs with hheld
  · have hnone : group.pruneGone.unwritten = [] := by
      rw [isEmpty_iff.mp hheld] at hperm
      exact hunwritten.trans hperm.eq_nil
    refine ⟨hnone, ?_, fun hgo => hgo.of_files (congrArg Ledger.discarded hledger) rfl⟩
    funext x
    have hpruned : group.pruneGone.net = group.net := net_congr rfl rfl rfl
    simp only [net, inFlight, hphase, hpruned, hnet, ← hunwritten]
    rfl
  · have hnone : (group.returnHeld env fl.held).2.unwritten = [] := unwritten_eq_nil rfl
    have hdiscarded : (group.returnHeld env fl.held).2.ledger.discarded = group.ledger.discarded := rfl
    refine ⟨hnone, ?_, fun hgo => hgo.of_files (hdiscarded.trans (congrArg Ledger.discarded hledger)) rfl⟩
    funext x
    have hreturn := group.returnHeld_net env fl.held x
    have hback := tally_perm x (valuesOf_perm hperm)
    simp only [net, inFlight, hphase, hreturn, hnone, hnet, hbatch]
    simp only [valuesOf, filterMap_nil, tally_nil] at hback ⊢
    omega

theorem endFlush_conserves (hphase : s.phase = .jobs fl) :
    Conserves env s { s with group := s.group.endFlush, phase := .idle } := by
  have hnone : s.group.unwritten = [] := by simpa only [Sound, hphase] using h
  have hnone' : s.group.endFlush.unwritten = [] := unwritten_eq_nil rfl
  refine ⟨rfl, ?_, fun hgo => hgo.of_files rfl rfl⟩
  funext x
  have hnet : s.group.endFlush.net = s.group.net := net_congr rfl rfl rfl
  simp only [net, inFlight, hphase, hnet, hnone, hnone']

theorem job_conserves (hphase : s.phase = .job fl write) :
    Conserves env s { s with files := s.files.commit env write, phase := .jobs fl } := by
  obtain ⟨hnone, hbrings⟩ : s.group.unwritten = [] ∧ write.Brings env s.files [] := by simpa only [Sound, hphase] using h
  refine ⟨hnone, ?_, fun hgo b hb => s.files.commit_refuses env hbrings (hgo b hb)⟩
  funext x
  have hfiles : tallyAs x leaving (s.files.commit env write).values =
      tallyAs x leaving s.files.values := by
    by_cases hwrite : write = .nothing
    · rw [hwrite]
      rfl
    · have h := GroupFiles.commit_values_perm env hbrings hwrite
      rw [append_nil] at h
      rw [tallyAs, tallyAs, (h.map _).count_eq]
  simp only [net, inFlight, hphase, hfiles]

theorem correct_conserves [DecidableEq Id] {walkBack : GroupFiles V Id → NodeIndex → Ticks → Option (DataValue V)}
    (hphase : s.phase = .jobs fl) (day : Day) (records : List (NodeAdded V Id)) (create : Bool) :
    Conserves env s { s with
      files := (s.files.prepare env day (records.map .added) (s.members walkBack fl.nextIndex) fl.taken create).2
      phase := .job fl
        (s.files.prepare env day (records.map .added) (s.members walkBack fl.nextIndex) fl.taken create).1 } := by
  have hvalues : valuesIn (records.map (.added : NodeAdded V Id → HistoryRecord V Id)) = [] :=
    valuesIn_map_added id records
  have hcovers : ∀ v ∈ valuesIn (records.map .added), env.calendar.Covers day v.primaryTime := by simp [hvalues]
  have hbrings := s.files.prepare_brings env hcovers (s.members walkBack fl.nextIndex) fl.taken create
  have hfiles := (s.files.prepare_files env day (records.map .added) (s.members walkBack fl.nextIndex)
    fl.taken create).1
  rw [hvalues] at hbrings
  refine ⟨⟨by simpa only [Sound, hphase] using h, hbrings⟩, ?_, fun hgo => hgo.of_files rfl hfiles⟩
  funext x
  simp only [net, inFlight, hphase, GroupFiles.values, hfiles]

omit h

variable {walkBack : GroupFiles V Id → NodeIndex → Ticks → Option (DataValue V)} [DecidableEq Id]

theorem step_conserves (h : s.Sound env) {a : Action V Id} (hs : s.step env walkBack a = some s') :
    Conserves env s s' := by
  cases step_steps hs with
  | perform op =>
    have hp := s.group.perform_performs env op
    exact .of_buffer h rfl rfl hp.taken hp.written hp.net hp.discarded
  | trim before need =>
    have hout := (s.group.drop_untrimmed env before need).1
    exact .of_buffer h rfl rfl (congrArg Outside.taken hout) (congrArg Outside.written hout)
      (s.group.drop_net env before need) (congrArg Outside.discarded hout)
  | deliver _ => exact .of_buffer h rfl rfl rfl rfl rfl rfl
  | others _ | subscribe _ _ | unsubscribe _ => exact .of_buffer h rfl rfl rfl rfl (net_congr rfl rfl rfl) rfl
  | take now hphase => exact take_conserves h hphase now
  | taking hphase => exact taking_conserves h hphase
  | hold hphase hs => exact hold_conserves h hphase hs
  | prepare hphase hs => exact prepare_conserves h hphase hs
  | @failDay fl stop due write hphase =>
    obtain ⟨hw, hdone, hstop, -⟩ : s.group.Writing fl ∧ fl.done ≤ stop ∧
        stop ≤ (s.group.taken.getD []).length ∧ _ := by simpa only [Sound, hphase] using h
    refine ⟨hw.holding hdone hstop, ?_, fun hgo => hgo.of_files rfl rfl⟩
    funext x
    simp only [net, inFlight, hphase]
  | failJob hphase =>
    refine ⟨And.left (by simpa only [Sound, hphase] using h), ?_, fun hgo => hgo.of_files rfl rfl⟩
    funext x
    simp only [net, inFlight, hphase]
  | commitDay hphase => exact commit_conserves h hphase
  | commitJob hphase => exact job_conserves h hphase
  | mark hphase => exact mark_conserves h hphase
  | finish hphase hnext => exact finish_conserves h hphase hnext
  | @correct fl day records create hphase _ => exact correct_conserves h hphase day records create
  | edit hphase =>
    refine ⟨by simpa only [Sound, hphase] using h, ?_, fun hgo => hgo.of_files rfl rfl⟩
    funext x
    rfl
  | endFlush hphase => exact endFlush_conserves h hphase

theorem run_conserves (h : s.Sound env) {as : List (Action V Id)} (hs : s.run env walkBack as = some s') :
    Conserves env s s' := by
  induction as generalizing s with
  | nil =>
    cases hs
    exact ⟨h, rfl, id⟩
  | cons a as ih =>
    obtain ⟨s₁, hstep, hrun⟩ := Option.bind_eq_some_iff.mp hs
    have hone := step_conserves h hstep
    have hrest := ih hone.sound hrun
    exact ⟨hrest.sound, hrest.net.trans hone.net, hrest.letGo ∘ hone.letGo⟩

end System

end OpcHub.Historian
