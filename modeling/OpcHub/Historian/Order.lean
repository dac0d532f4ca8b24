import OpcHub.Historian.Batch
import OpcHub.Historian.Visible

/-! The buffer's arrival order. Records are numbered as the store's groups buffer
them, and the buffer's values and changes are each kept by that number: a flush's
batch and a read merge them by it, and a trim drops the oldest first. A flush that
takes a value and leaves behind a heartbeat that arrived before it may fail, and the
value then goes back in front of the heartbeat. A run in which no flush takes so is in
order throughout, and one that does can be followed by such a failure. -/

namespace OpcHub.Historian

open Lib Historian.Group List Option Buffered

variable {V Id : Type*} (env : Env V Id)

/-- Where a gap's records stand. -/
def Lost.place (l : Lost V) : ℕ := (l.newest.map Buffered.sequence).getD l.sequence

/-- The buffer is in arrival order. -/
structure Buffer.InOrder (b : Buffer V Id) : Prop where
  values : SortedBy Buffered.sequence b.values
  changes : SortedBy Buffered.sequence b.changes

/-- The buffer is in arrival order and behind the store's count, the gaps before its values, and `out`, a
flush's batch, before all of its kind. -/
structure Buffer.Arrived (out : List (Buffered (Record V Id))) (b : Buffer V Id) : Prop extends
    Buffer.InOrder b where
  values_le : ∀ v ∈ b.values, v.sequence ≤ b.store.sequence
  changes_le : ∀ c ∈ b.changes, c.sequence ≤ b.store.sequence
  lost_le : ∀ i l, b.lost.find? i = some l → l.place ≤ b.store.sequence
  lost_before : ∀ i l, b.lost.find? i = some l → ∀ v ∈ b.values, l.place ≤ v.sequence
  out_le : ∀ r ∈ out, r.sequence ≤ b.store.sequence
  out_changes : ∀ r ∈ out, r.item.value? = none → ∀ c ∈ b.changes, r.sequence ≤ c.sequence
  out_values : ∀ r ∈ out, r.item.value?.isSome → ∀ v ∈ b.values, r.sequence ≤ v.sequence
  out_lost : ∀ r ∈ out, r.item.value?.isSome → ∀ i l, b.lost.find? i = some l → r.sequence ≤ l.place

theorem sortedBy_concat {α : Type*} {l : List (Buffered α)} {x : Buffered α} (h : SortedBy sequence l)
    (hx : ∀ y ∈ l, y.sequence ≤ x.sequence) : SortedBy sequence (l ++ [x]) :=
  sortedBy_append.mpr ⟨h, pairwise_singleton _ x, fun y hy _ hz => mem_singleton.mp hz ▸ hx y hy⟩

namespace Buffer.Arrived

variable {env} {out out' : List (Buffered (Record V Id))} {b b' : Buffer V Id}

theorem step {P : NodeIndex → Prop} (h : b.Arrived out) (hs : Buffer.Step env P b b') : b'.Arrived out := by
  have hlater : ∀ {n}, n ≤ b.store.sequence → n ≤ b.store.sequence + 1 := fun h => Nat.le_succ_of_le h
  cases hs with
  | value bytes _ =>
    refine ⟨⟨sortedBy_concat h.values fun v hv => hlater (h.values_le v hv), h.changes⟩, ?_,
      fun c hc => hlater (h.changes_le c hc), fun i l hl => hlater (h.lost_le i l hl), ?_,
      fun r hr => hlater (h.out_le r hr), h.out_changes, ?_, h.out_lost⟩
    · exact forall_mem_append.mpr ⟨fun v hv => hlater (h.values_le v hv), forall_mem_singleton.mpr le_rfl⟩
    · intro i l hl
      exact forall_mem_append.mpr ⟨h.lost_before i l hl, forall_mem_singleton.mpr (hlater (h.lost_le i l hl))⟩
    · intro r hr hvalue
      exact forall_mem_append.mpr ⟨h.out_values r hr hvalue, forall_mem_singleton.mpr (hlater (h.out_le r hr))⟩
  | change c bytes =>
    refine ⟨⟨h.values, sortedBy_concat h.changes fun c hc => hlater (h.changes_le c hc)⟩,
      fun v hv => hlater (h.values_le v hv), ?_, fun i l hl => hlater (h.lost_le i l hl), h.lost_before,
      fun r hr => hlater (h.out_le r hr), ?_, h.out_values, h.out_lost⟩
    · exact forall_mem_append.mpr ⟨fun c hc => hlater (h.changes_le c hc), forall_mem_singleton.mpr le_rfl⟩
    · intro r hr hchange
      exact forall_mem_append.mpr ⟨h.out_changes r hr hchange, forall_mem_singleton.mpr (hlater (h.out_le r hr))⟩
  | drop p =>
    exact ⟨⟨h.values.sublist filter_sublist, h.changes⟩,
      fun v hv => h.values_le v (mem_filter.mp hv).1, h.changes_le, h.lost_le,
      fun i l hl v hv => h.lost_before i l hl v (mem_filter.mp hv).1, h.out_le, h.out_changes,
      fun r hr hvalue v hv => h.out_values r hr hvalue v (mem_filter.mp hv).1, h.out_lost⟩
  | @dropLost index lost newest hlost hnewest =>
    -- the gap stays where its newest was
    have hplace : ∀ i l, (b.lost.insert index (lost.dropNewest newest)).find? i = some l →
        ∃ l', b.lost.find? i = some l' ∧ l'.place = l.place := by
      intro i l hl
      rw [OrdMap.find?_insert] at hl
      split_ifs at hl with hi
      · cases hl
        exact ⟨lost, hi ▸ hlost, by simp [Lost.place, Lost.dropNewest, hnewest]⟩
      · exact ⟨l, hl, rfl⟩
    refine ⟨⟨h.values, h.changes⟩, h.values_le, h.changes_le, ?_, ?_, h.out_le, h.out_changes, h.out_values, ?_⟩
    · intro i l hl
      obtain ⟨l', hl', heq⟩ := hplace i l hl
      rw [← heq]
      exact h.lost_le i l' hl'
    · intro i l hl v hv
      obtain ⟨l', hl', heq⟩ := hplace i l hl
      rw [← heq]
      exact h.lost_before i l' hl' v hv
    · intro r hr hvalue i l hl
      obtain ⟨l', hl', heq⟩ := hplace i l hl
      rw [← heq]
      exact h.out_lost r hr hvalue i l' hl'

theorem path {P : NodeIndex → Prop} (h : b.Arrived out) (hs : Buffer.Path env P b b') : b'.Arrived out :=
  Buffer.Path.invariant (fun _ _ hs h => step h hs) hs h

theorem stands (h : b.Arrived out) (hout : Stands out out') : b.Arrived out' := by
  refine ⟨h.toInOrder, h.values_le, h.changes_le, h.lost_le, h.lost_before, ?_, ?_, ?_, ?_⟩
  · intro r' hr'
    obtain ⟨r, hr, hseq, -⟩ := hout r' hr'
    exact hseq ▸ h.out_le r hr
  · intro r' hr' hchange c hc
    obtain ⟨r, hr, hseq, -, hkind⟩ := hout r' hr'
    refine hseq ▸ h.out_changes r hr ?_ c hc
    rw [hchange] at hkind
    exact isNone_iff_eq_none.mp (by simpa using hkind)
  · intro r' hr' hvalue v hv
    obtain ⟨r, hr, hseq, -, hkind⟩ := hout r' hr'
    exact hseq ▸ h.out_values r hr (hkind ▸ hvalue) v hv
  · intro r' hr' hvalue i l hl
    obtain ⟨r, hr, hseq, -, hkind⟩ := hout r' hr'
    exact hseq ▸ h.out_lost r hr (hkind ▸ hvalue) i l hl

end Buffer.Arrived

namespace Group

variable {env} {g : Group V Id} {out : List (Buffered (Record V Id))}

theorem lostRecords_place {b : Buffered (DataValue V)} (h : b ∈ g.lostRecords env) :
    ∃ i l, g.lost.find? i = some l ∧ b.sequence = l.place := by
  obtain ⟨i, l, hl, hplace, -⟩ := mem_lostRecords env h
  exact ⟨i, l, hl, hplace⟩

/-- The trim takes the front of the values into gaps that stay before the rest. -/
theorem drop_arrived (h : g.buffer.Arrived out) (before need : ℕ) :
    (g.drop env before need).2.buffer.Arrived out := by
  obtain ⟨n, hbuffer, hgathers⟩ := drop_spec env g before need
  rw [hbuffer]
  have hsplit : SortedBy sequence (g.values.take n ++ g.values.drop n) := by
    rw [take_append_drop]
    exact h.values
  obtain ⟨-, hdrop, hle⟩ := sortedBy_append.mp hsplit
  refine ⟨⟨hdrop, h.changes⟩, fun v hv => h.values_le v (mem_of_mem_drop hv), h.changes_le, ?_, ?_,
    h.out_le, h.out_changes, fun r hr hvalue v hv => h.out_values r hr hvalue v (mem_of_mem_drop hv), ?_⟩
  · intro i l' hl'
    rcases hgathers i l' hl' with hl | ⟨b, hb, hfrom, -⟩
    · exact h.lost_le i l' hl
    · simp only [Lost.place, hb, map_some, getD_some]
      rcases hfrom with ⟨hfrom, -⟩ | ⟨l, hl, hnewest⟩
      · exact h.values_le b (mem_of_mem_take hfrom)
      · have hle : l.place ≤ g.store.sequence := h.lost_le i l hl
        simpa only [Lost.place, hnewest, map_some, getD_some] using hle
  · intro i l' hl' v hv
    rcases hgathers i l' hl' with hl | ⟨b, hb, hfrom, -⟩
    · exact h.lost_before i l' hl v (mem_of_mem_drop hv)
    · simp only [Lost.place, hb, map_some, getD_some]
      rcases hfrom with ⟨hfrom, -⟩ | ⟨l, hl, hnewest⟩
      · exact hle b hfrom v hv
      · have hbefore := h.lost_before i l hl v (mem_of_mem_drop hv)
        simpa only [Lost.place, hnewest, map_some, getD_some] using hbefore
  · intro r hr hvalue i l' hl'
    rcases hgathers i l' hl' with hl | ⟨b, hb, hfrom, -⟩
    · exact h.out_lost r hr hvalue i l' hl
    · simp only [Lost.place, hb, map_some, getD_some]
      rcases hfrom with ⟨hfrom, -⟩ | ⟨l, hl, hnewest⟩
      · exact h.out_values r hr hvalue b (mem_of_mem_take hfrom)
      · have hbefore := h.out_lost r hr hvalue i l hl
        simpa only [Lost.place, hnewest, map_some, getD_some] using hbefore

/-- What a flush would take arrived before all it would leave. -/
def LeavesLater (g : Group V Id) (now : TimePoint) : Prop :=
  ∀ v ∈ g.values, g.takes now v = true → ∀ w ∈ g.values, g.takes now w = false → v.sequence ≤ w.sequence

instance (g : Group V Id) (now : TimePoint) : Decidable (g.LeavesLater now) :=
  inferInstanceAs (Decidable (∀ v ∈ g.values, _ → ∀ w ∈ g.values, _ → _))

/-- A flush takes the changes whole, and leaves the values it does not take in their order. -/
theorem take_arrived (h : g.buffer.Arrived out) {now : TimePoint} (hleaves : g.LeavesLater now) :
    (g.take env now).2.2.buffer.Arrived (g.take env now).1 := by
  have hnone : ∀ i (l : Lost V), (∅ : OrdMap NodeIndex (Lost V)).find? i ≠ some l := by simp
  refine ⟨⟨h.values.sublist filter_sublist, .nil⟩, fun v hv => h.values_le v (mem_filter.mp hv).1,
    fun c hc => absurd hc not_mem_nil, fun i l hl => absurd hl (hnone i l),
    fun i l hl => absurd hl (hnone i l), ?_, fun _ _ _ c hc => absurd hc not_mem_nil, ?_,
    fun _ _ _ i l hl => absurd hl (hnone i l)⟩
  · intro b hb
    rcases mem_take env hb with ⟨c, hc, rfl⟩ | ⟨v, hv, hseq, -⟩
    · exact h.changes_le c hc
    · rw [hseq]
      rcases mem_append.mp hv with hv | hv
      · obtain ⟨i, l, hl, hplace⟩ := lostRecords_place hv
        rw [hplace]
        exact h.lost_le i l hl
      · exact h.values_le v (mem_filter.mp hv).1
  · intro b hb hvalue w hw
    obtain ⟨hw, hleft⟩ := mem_filter.mp hw
    rcases mem_take env hb with ⟨c, -, rfl⟩ | ⟨v, hv, hseq, -⟩
    · cases hvalue
    · rw [hseq]
      rcases mem_append.mp hv with hv | hv
      · obtain ⟨i, l, hl, hplace⟩ := lostRecords_place hv
        rw [hplace]
        exact h.lost_before i l hl w hw
      · obtain ⟨hv, htakes⟩ := mem_filter.mp hv
        exact hleaves v hv htakes w hw (by simpa using hleft)

variable (env) in
/-- Each value a flush takes is in its batch. -/
theorem exists_mem_take {now : TimePoint} {v : Buffered (DataValue V)} (hv : v ∈ g.values)
    (htakes : g.takes now v = true) :
    ∃ b ∈ (g.take env now).1, b.sequence = v.sequence ∧ b.item = .value v.item := by
  refine ⟨(release v).map .value, mem_append_right _ ((mergeBy_perm _ _ _).mem_iff.mpr
    (mem_append_right _ (mem_map_of_mem (mem_map_of_mem (mem_filter.mpr ⟨hv, htakes⟩))))), ?_⟩
  simp only [Buffered.map, release]
  split_ifs <;> exact ⟨rfl, rfl⟩

variable {l : List (Buffered (Record V Id))}

theorem mem_changesOf {c : Buffered (Change Id)} :
    c ∈ changesOf l → ∃ b ∈ l, b.sequence = c.sequence ∧ b.item = .change c.item := by
  intro h
  obtain ⟨b, hb, hc⟩ := mem_filterMap.mp h
  refine ⟨b, hb, ?_⟩
  split at hc
  · cases hc
  · rename_i d hd
    cases hc
    exact ⟨rfl, hd⟩

theorem sortedBy_valuesOf (h : SortedBy sequence l) : SortedBy sequence (valuesOf l) := by
  refine List.Pairwise.filterMap _ (fun a a' hle b hb b' hb' => ?_) h
  split at hb <;> cases hb
  split at hb' <;> cases hb'
  exact hle

theorem sortedBy_changesOf (h : SortedBy sequence l) : SortedBy sequence (changesOf l) := by
  refine List.Pairwise.filterMap _ (fun a a' hle b hb b' hb' => ?_) h
  split at hb <;> cases hb
  split at hb' <;> cases hb'
  exact hle

end Group

namespace System

/-- The buffer of the group is in arrival order. -/
def InOrder (s : System V Id) : Prop := s.group.buffer.InOrder

def Arrived (s : System V Id) : Prop := s.group.buffer.Arrived s.out

variable {env} {s s' : System V Id}

variable {fl : Flush}

theorem finish_of_held (hheld : fl.held ≠ []) : (s.finish env fl).group.buffer =
    { store := { s.group.store with
        buffered := s.group.store.buffered +
          (costs env (s.group.lostRecords env) + costs env (s.group.batchAt fl.held)) }
      changes := changesOf (bySequence (s.group.batchAt fl.held)) ++ s.group.changes
      values := valuesOf (bySequence (s.group.batchAt fl.held)) ++
        bySequence (s.group.lostRecords env) ++ s.group.values
      held := s.group.held + (costs env (s.group.lostRecords env) + costs env (s.group.batchAt fl.held))
      lost := ∅ } := by
  have hne : fl.held.isEmpty = false := by simpa using hheld
  simp only [finish, hne]
  exact returnHeld_buffer env _ fl.held

theorem finish_of_not_held (hheld : fl.held = []) : (s.finish env fl).group.buffer = s.group.buffer := by
  simp only [finish, hheld, isEmpty_nil, if_true]
  rfl

theorem mem_batchAt_out (hphase : s.phase = .writing fl) {places : List ℕ}
    {b : Buffered (Record V Id)} (hb : b ∈ s.group.batchAt places) : b ∈ s.out := by
  rw [out_eq_taken (by simp [hphase])]
  exact mem_batchAt hb

theorem sortedBy_returned_values (h : s.Arrived) (hphase : s.phase = .writing fl) :
    SortedBy sequence (valuesOf (bySequence (s.group.batchAt fl.held)) ++
      bySequence (s.group.lostRecords env) ++ s.group.values) := by
  rw [append_assoc]
  refine sortedBy_append.mpr ⟨sortedBy_valuesOf (sortedBy_stableSort _),
    sortedBy_append.mpr ⟨sortedBy_stableSort _, h.values, ?_⟩, ?_⟩
  · intro v hv w hw
    obtain ⟨i, l, hl, hplace⟩ := lostRecords_place (mem_stableSort.mp hv)
    rw [hplace]
    exact h.lost_before i l hl w hw
  · intro v hv w hw
    obtain ⟨b, hb, hseq, -, hitem⟩ := mem_valuesOf hv
    have hvalue : b.item.value?.isSome := by
      rw [hitem]
      rfl
    have hout := mem_batchAt_out hphase (mem_stableSort.mp hb)
    rw [← hseq]
    rcases mem_append.mp hw with hw | hw
    · obtain ⟨i, l, hl, hplace⟩ := lostRecords_place (mem_stableSort.mp hw)
      rw [hplace]
      exact h.out_lost b hout hvalue i l hl
    · exact h.out_values b hout hvalue w hw

theorem sortedBy_returned_changes (h : s.Arrived) (hphase : s.phase = .writing fl) :
    SortedBy sequence (changesOf (bySequence (s.group.batchAt fl.held)) ++ s.group.changes) := by
  refine sortedBy_append.mpr ⟨sortedBy_changesOf (sortedBy_stableSort _), h.changes, fun c hc d hd => ?_⟩
  obtain ⟨b, hb, hseq, hitem⟩ := mem_changesOf hc
  rw [← hseq]
  refine h.out_changes b (mem_batchAt_out hphase (mem_stableSort.mp hb)) ?_ d hd
  rw [hitem]
  rfl

theorem finish_arrived (h : s.Arrived) (hphase : s.phase = .writing fl) : (s.finish env fl).Arrived := by
  by_cases hheld : fl.held = []
  · have htaken : s.out = s.group.taken.getD [] := out_eq_taken (by simp [hphase])
    have hout : (s.finish env fl).out = s.out := by
      rw [htaken]
      simp only [finish, hheld, isEmpty_nil, if_true]
      rfl
    rw [Arrived, finish_of_not_held hheld, hout]
    exact h
  · have hout : (s.finish env fl).out = [] := by
      have hne : fl.held.isEmpty = false := by simpa using hheld
      simp only [finish, hne]
      rfl
    have hnone : ∀ i (l : Lost V), (∅ : OrdMap NodeIndex (Lost V)).find? i ≠ some l := by simp
    have hmem : ∀ b ∈ bySequence (s.group.batchAt fl.held), b ∈ s.out :=
      fun b hb => mem_batchAt_out hphase (mem_stableSort.mp hb)
    rw [Arrived, hout, finish_of_held hheld]
    refine ⟨⟨sortedBy_returned_values h hphase, sortedBy_returned_changes h hphase⟩, ?_, ?_,
      fun i l hl => absurd hl (hnone i l), fun i l hl => absurd hl (hnone i l), fun _ hr => absurd hr not_mem_nil, fun _ hr => absurd hr not_mem_nil, fun _ hr => absurd hr not_mem_nil,
      fun _ hr => absurd hr not_mem_nil⟩
    · intro v hv
      rw [mem_append, mem_append] at hv
      rcases hv with (hv | hv) | hv
      · obtain ⟨b, hb, hseq, -⟩ := mem_valuesOf hv
        exact hseq ▸ h.out_le b (hmem b hb)
      · obtain ⟨i, l, hl, hplace⟩ := lostRecords_place (mem_stableSort.mp hv)
        exact hplace ▸ h.lost_le i l hl
      · exact h.values_le v hv
    · intro c hc
      rcases mem_append.mp hc with hc | hc
      · obtain ⟨b, hb, hseq, -⟩ := mem_changesOf hc
        exact hseq ▸ h.out_le b (hmem b hb)
      · exact h.changes_le c hc

variable {walkBack : GroupFiles V Id → NodeIndex → Ticks → Option (DataValue V)} [DecidableEq Id]

/-- An action's condition: a flush takes no value that arrived after one it leaves. -/
def Orderly (s : System V Id) : Action V Id → Prop
  | .take now => s.group.LeavesLater now
  | _ => True

instance (s : System V Id) (a : Action V Id) : Decidable (s.Orderly a) := by
  cases a
  case take now => exact inferInstanceAs (Decidable (s.group.LeavesLater now))
  all_goals exact isTrue trivial

theorem step_arrived (h : s.Arrived) {a : Action V Id} (hs : s.step env walkBack a = some s')
    (ha : s.Orderly a) : s'.Arrived := by
  cases step_does hs with
  | perform op hg hout _ _ =>
    rw [Arrived, hg, hout]
    exact h.path (s.group.perform_path env op)
  | others sequence buffered hle hs =>
    subst hs
    exact ⟨⟨h.values, h.changes⟩, fun v hv => (h.values_le v hv).trans hle, fun c hc => (h.changes_le c hc).trans hle,
      fun i l hl => (h.lost_le i l hl).trans hle, h.lost_before, fun r hr => (h.out_le r hr).trans hle,
      h.out_changes, h.out_values, h.out_lost⟩
  | trim before need =>
    rw [Arrived, trim_out]
    exact drop_arrived h before need
  | take now _ => exact take_arrived h ha
  | finish hphase _ => exact finish_arrived h hphase
  | carries hc =>
    rw [Arrived, hc.buffer]
    exact h.stands hc.out

variable (env walkBack) in
/-- A property of every state of a run. -/
def Throughout (p : System V Id → Prop) : System V Id → List (Action V Id) → Prop
  | s, [] => p s
  | s, a :: as => p s ∧ ∀ s', s.step env walkBack a = some s' → Throughout p s' as

variable (env walkBack) in
/-- A condition on every action of a run, in the state it is taken from. -/
def EachStep (q : System V Id → Action V Id → Prop) : System V Id → List (Action V Id) → Prop
  | _, [] => True
  | s, a :: as => q s a ∧ ∀ s', s.step env walkBack a = some s' → EachStep q s' as

instance decidableEachStep (q : System V Id → Action V Id → Prop) [∀ s a, Decidable (q s a)] :
    (s : System V Id) → (as : List (Action V Id)) → Decidable (s.EachStep env walkBack q as)
  | _, [] => isTrue trivial
  | s, a :: as =>
    match hs : s.step env walkBack a with
    | none => decidable_of_iff (q s a) (by simp [EachStep, hs])
    | some s' =>
      have := decidableEachStep q s' as
      decidable_of_iff (q s a ∧ s'.EachStep env walkBack q as) (by simp [EachStep, hs])

theorem run_arrived (h : s.Arrived) {as : List (Action V Id)} (hs : s.run env walkBack as = some s')
    (has : s.EachStep env walkBack Orderly as) : s.Throughout env walkBack InOrder as ∧ s'.Arrived := by
  induction as generalizing s with
  | nil =>
    cases hs
    exact ⟨h.toInOrder, h⟩
  | cons a as ih =>
    obtain ⟨s₁, hstep, hrun⟩ := bind_eq_some_iff.mp hs
    obtain ⟨ha, hrest⟩ := has
    obtain ⟨hthroughout, harrived⟩ := ih (step_arrived h hstep ha) hrun (hrest s₁ hstep)
    refine ⟨⟨h.toInOrder, fun s₂ hs₂ => ?_⟩, harrived⟩
    cases hstep.symm.trans hs₂
    exact hthroughout

theorem run_append (as bs : List (Action V Id)) :
    s.run env walkBack (as ++ bs) = (s.run env walkBack as).bind fun s' => s'.run env walkBack bs := by
  induction as generalizing s with
  | nil => rfl
  | cons a as ih =>
    rw [cons_append, run, run, Option.bind_assoc]
    exact Option.bind_congr fun s₁ _ => ih

/-- Without another flush taking, nothing is asked of a run. -/
theorem eachStep_of_no_take {as : List (Action V Id)} (h : ∀ a ∈ as, ∀ t, a ≠ .take t) (s : System V Id) :
    s.EachStep env walkBack Orderly as := by
  induction as generalizing s with
  | nil => trivial
  | cons a as ih =>
    refine ⟨?_, fun s' _ => ih (fun a ha => h a (mem_cons_of_mem _ ha)) s'⟩
    cases a with
    | take now => exact absurd rfl (h _ mem_cons_self now)
    | _ => trivial

omit [DecidableEq Id] in
theorem next_shorter {batch : List (Buffered (Record V Id))} {day : Day} {stop : ℕ} {due : List Day}
    (h : fl.next env batch = some (day, stop, due)) (hstop : stop ≤ batch.length) :
    batch.length - stop + due.length < batch.length - fl.done + fl.due.length := by
  simp only [Flush.next] at h
  split at h
  · cases h
  · rename_i hdue
    cases h
    rw [hdue, length_cons]
    omega
  · cases h
    simp only [length_nil]
    omega
  · rename_i hdue
    rw [hdue, length_cons]
    split_ifs at h
    · cases h
      omega
    · cases h
      rw [length_cons]
      omega
    · cases h
      omega

variable (env walkBack) in
/-- A flush all of whose days fail ends with its whole batch held back. -/
theorem hold_all {n : ℕ} (hphase : s.phase = .writing fl) (hdone : fl.done ≤ (s.group.taken.getD []).length)
    (hheld : ∀ i < fl.done, i ∈ fl.held) (hn : (s.group.taken.getD []).length - fl.done + fl.due.length ≤ n) :
    ∃ k fl', s.run env walkBack (replicate k (.hold false)) = some { s with phase := .writing fl' } ∧
      fl'.next env (s.group.taken.getD []) = none ∧ ∀ i < (s.group.taken.getD []).length, i ∈ fl'.held := by
  induction n generalizing s fl with
  | zero =>
    refine ⟨0, fl, by rw [← hphase]; rfl, ?_, fun i hi => hheld i (by omega)⟩
    have hdue : fl.due = [] := length_eq_zero_iff.mp (by omega)
    simp only [Flush.next, getElem?_eq_none (show (s.group.taken.getD []).length ≤ fl.done by omega), hdue]
  | succ n ih =>
    cases hnext : fl.next env (s.group.taken.getD []) with
    | none =>
      refine ⟨0, fl, by rw [← hphase]; rfl, hnext, fun i hi => hheld i (hi.trans_le (Flush.done_of_next env hnext))⟩
    | some next =>
      obtain ⟨day, stop, due⟩ := next
      obtain ⟨hle, hstop⟩ := Flush.next_bounds env hnext hdone
      have hless := next_shorter hnext hstop
      have hstep : s.step env walkBack (.hold false) =
          some { s with phase := .writing (fl.holding stop due none) } := by
        simp only [step, hphase, hold, hnext, map_some, Bool.false_eq_true, if_false]
      obtain ⟨k, fl', hrun, hnone, hall⟩ := ih (s := { s with phase := .writing (fl.holding stop due none) }) rfl hstop
        (fun i hi => by
          by_cases hlt : i < fl.done
          · exact mem_append_left _ (hheld i hlt)
          · exact mem_append_right _ (mem_range'_1.mpr ⟨not_lt.mp hlt, by simp only [Flush.holding, Flush.pass] at hi; omega⟩))
        (by simp only [Flush.holding, Flush.pass]; omega)
      refine ⟨k + 1, fl', ?_, hnone, hall⟩
      rw [replicate_succ, run, hstep]
      exact hrun

variable (env walkBack) in
/-- A flush that takes a value and leaves an earlier one behind can put it back out of order. -/
theorem exists_out_of_order (hphase : s.phase = .idle) {now : TimePoint} (hleaves : ¬ s.group.LeavesLater now) :
    ∃ more s'', (∀ a ∈ more, ∀ t, a ≠ .take t) ∧ s.run env walkBack (.take now :: more) = some s'' ∧ ¬ s''.InOrder := by
  simp only [LeavesLater, not_forall] at hleaves
  obtain ⟨v, hv, htakes, w, hw, hleft, hlt⟩ := hleaves
  obtain ⟨b, hb, hseq, hitem⟩ := exists_mem_take env hv htakes
  -- the batch is shared, and all of it held back
  have htaking : ∃ fl s₁, (s.take env now).step env walkBack .taking = some s₁ ∧ s₁.phase = .writing fl ∧
      fl.done = 0 ∧ s₁.group.values = s.group.values.filter (fun b => !s.group.takes now b) ∧
      ∃ b' ∈ s₁.group.taken.getD [], b'.sequence = v.sequence ∧ b'.item = .value v.item := by
    refine ⟨_, _, rfl, rfl, rfl, rfl, b, ?_, hseq, hitem⟩
    refine mem_stableSort.mpr (mem_append_left _ (mem_map.mpr ⟨b, hb, ?_⟩))
    simp only [markCopied, hitem]
  obtain ⟨fl, s₁, hstep, hwriting, hdone, hvalues, b', hb', hseq', hitem'⟩ := htaking
  obtain ⟨k, fl', hrun, hnone, hall⟩ := hold_all env walkBack hwriting (by omega) (by omega) le_rfl
  refine ⟨.taking :: (replicate k (.hold false) ++ [.finish]), ({ s₁ with phase := .writing fl' }).finish env fl',
    ?_, ?_, fun horder => ?_⟩
  · intro a ha t
    simp only [mem_cons, mem_append, mem_replicate, not_mem_nil, or_false] at ha
    rcases ha with rfl | ⟨-, rfl⟩ | rfl <;> simp
  · have htake : s.step env walkBack (.take now) = some (s.take env now) := by simp only [step, hphase]
    rw [run, htake, bind_some, run, hstep, bind_some, run_append, hrun, bind_some]
    simp only [run, step, hnone, isNone_none, if_true, bind_some]
  · obtain ⟨i, hi⟩ := mem_iff_getElem?.mp hb'
    have hheld : i ∈ fl'.held := hall i (List.getElem?_eq_some_iff.mp hi).1
    rw [InOrder, finish_of_held (ne_nil_of_mem hheld)] at horder
    have hback : (b'.map fun _ => v.item) ∈ valuesOf (bySequence (s₁.group.batchAt fl'.held)) := by
      refine mem_filterMap.mpr ⟨b', (bySequence_perm _).mem_iff.mpr (mem_filterMap.mpr ⟨i, hheld, hi⟩), ?_⟩
      rw [hitem']
    have hstays : w ∈ s₁.group.values := hvalues ▸ mem_filter.mpr ⟨hw, by simp [hleft]⟩
    have hle := (sortedBy_append.mp horder.values).2.2 _ (mem_append_left _ hback) w hstays
    exact hlt (hseq' ▸ hle)

/-- A group as its host starts it, the changes its files asked for buffered as they came. -/
structure Fresh (s : System V Id) : Prop extends s.Starts where
  changes : SortedBy Buffered.sequence s.group.changes
  changes_le : ∀ c ∈ s.group.changes, c.sequence ≤ s.group.store.sequence

omit [DecidableEq Id] in
theorem Fresh.arrived (h : s.Fresh) : s.Arrived := by
  have hout : s.out = [] := by
    rw [out_eq_taken (by simp [h.idle]), h.taken]
    rfl
  have hvalues : s.group.buffer.values = [] := h.values
  have hlost : s.group.buffer.lost = ∅ := h.lost
  rw [Arrived, hout]
  refine ⟨⟨hvalues ▸ .nil, h.changes⟩, ?_, h.changes_le, ?_, ?_, ?_, ?_, ?_, ?_⟩
  all_goals simp [hvalues, hlost]

/-- In every run whose flushes take no value that arrived after one they leave, the buffer is in arrival order
throughout; and the next flush may take so exactly if the buffer stays in order whatever follows, up to another. -/
theorem arrival_order_iff (h : s.Fresh) {as : List (Action V Id)} (hs : s.run env walkBack as = some s')
    (has : s.EachStep env walkBack Orderly as) : s.Throughout env walkBack InOrder as ∧
      ∀ now, s'.phase = .idle → (s'.group.LeavesLater now ↔ ∀ more s'', (∀ a ∈ more, ∀ t, a ≠ .take t) →
        s'.run env walkBack (.take now :: more) = some s'' → s''.InOrder) := by
  obtain ⟨hthroughout, harrived⟩ := run_arrived h.arrived hs has
  refine ⟨hthroughout, fun now hidle => ⟨fun hleaves more s'' hmore hrun => ?_, fun hall => ?_⟩⟩
  · exact (run_arrived harrived hrun ⟨hleaves, fun s₁ _ => eachStep_of_no_take hmore s₁⟩).2.toInOrder
  · by_contra hleaves
    obtain ⟨more, s'', hmore, hrun, hnot⟩ := exists_out_of_order env walkBack hidle hleaves
    exact hnot (hall more s'' hmore hrun)

end System

/-- Two members, the first of which repeats its value each second, and a publishing interval of two. -/
def beatingPair : System ℕ ℕ where
  group :=
    { publishingInterval := 2000000000
      nodes := ((∅ : OrdMap NodeIndex (Node ℕ ℕ)).insert 1
        { id := 7, config := { maxTimeInterval := 1000000000 }, broke := none }).insert 2
        { id := 8, config := {}, broke := none } }

theorem beatingPair_fresh : beatingPair.Fresh :=
  ⟨⟨rfl, rfl, rfl, rfl, rfl, rfl, rfl, rfl, rfl, rfl⟩, .nil, fun _ hc => absurd hc not_mem_nil⟩

/-- A value of member `index` at the second `now`. -/
def valueOf (index : NodeIndex) (now : ℕ) : Action ℕ ℕ :=
  .perform (.enqueue index { value := some now, sourceTimestamp := some now } (now * 1000000000))

/-- The first member's value and its heartbeat, then the second's value, and a flush that leaves the
heartbeat behind and cannot write the rest. -/
def overtaken : List (Action ℕ ℕ) :=
  [valueOf 1 0, .perform (.beat 1 1000000000), valueOf 2 1, .take 1000000000, .taking, .prepare, .fail, .finish]

/-- The second member's value is back in front of the heartbeat it arrived after. -/
theorem overtaken_out_of_order : ∃ s, beatingPair.run plainHost nothingBefore overtaken = some s ∧
    s.group.values.map (fun b => (b.sequence, b.item.heartbeat.isSome)) =
      [(1, false), (3, false), (2, true)] ∧
    ¬ s.InOrder := by
  have hrun : (beatingPair.run plainHost nothingBefore overtaken).map (fun s =>
      (s.group.values.map (fun b => (b.sequence, b.item.heartbeat.isSome)),
        decide (SortedBy Buffered.sequence s.group.values))) =
      some ([(1, false), (3, false), (2, true)], false) := by
    decide
  obtain ⟨s, hs, hvalues⟩ := map_eq_some_iff.mp hrun
  obtain ⟨hplaces, hsorted⟩ := Prod.mk.injEq .. ▸ hvalues
  exact ⟨s, hs, hplaces, fun horder => of_decide_eq_false hsorted horder.values⟩

/-- The two members' values before the heartbeat, and a flush that fails so. -/
def leftLater : List (Action ℕ ℕ) :=
  [valueOf 1 0, valueOf 2 1, .perform (.beat 1 1000000000), .take 1000000000, .taking, .prepare, .fail, .finish,
    .endFlush]

theorem leftLater_in_order : ∃ s, beatingPair.run plainHost nothingBefore leftLater = some s ∧
    s.group.values.map (fun b => (b.sequence, b.item.heartbeat.isSome)) =
      [(1, false), (2, false), (3, true)] ∧
    beatingPair.Throughout plainHost nothingBefore System.InOrder leftLater ∧
      ∀ now, s.phase = .idle → (s.group.LeavesLater now ↔ ∀ more s'', (∀ a ∈ more, ∀ t, a ≠ .take t) →
        s.run plainHost nothingBefore (.take now :: more) = some s'' → s''.InOrder) := by
  have hrun : (beatingPair.run plainHost nothingBefore leftLater).map (fun s =>
      s.group.values.map fun b => (b.sequence, b.item.heartbeat.isSome)) =
      some [(1, false), (2, false), (3, true)] := by
    decide
  obtain ⟨s, hs, hvalues⟩ := map_eq_some_iff.mp hrun
  exact ⟨s, hs, hvalues, System.arrival_order_iff beatingPair_fresh hs (by decide)⟩

end OpcHub.Historian
