import OpcHub.Historian.Conserve

/-! What a trim and a flush do to the buffer. A trim moves the oldest values into
their nodes' gaps. A flush takes the buffer out as its batch and puts back what it
could not write. Every other action leaves the buffer alone and only carries the
batch along. Each is said once here, in terms of the records' places and indexes,
and the invariants of the buffer are read off. -/

namespace OpcHub.Historian

open Lib List

variable {V Id : Type*} (env : Env V Id)

/-- The gaps after `dropped` went into them: one that is new to the map, or has changed, ends at a dropped
value of its node or where it did. -/
def Gathers (lost : OrdMap NodeIndex (Lost V)) (dropped : List (Buffered (DataValue V)))
    (lost' : OrdMap NodeIndex (Lost V)) : Prop :=
  ∀ i l', lost'.find? i = some l' → lost.find? i = some l' ∨
    ∃ b, l'.newest = some b ∧
      ((b ∈ dropped ∧ b.item.index = i) ∨ ∃ l, lost.find? i = some l ∧ l.newest = some b) ∧
      ∃ c ∈ dropped, c.item.index = i

/-- One value given up, as the source sums it up. -/
def Lost.add (l : Lost V) (b : Buffered (DataValue V)) : Lost V :=
  let lost := Group.widen l b.item
  match l.newest with
  | none => { lost with newest := some b }
  | some newest => if b.item.primaryTime ≥ newest.item.primaryTime then { lost with newest := some b } else lost

theorem Gathers.refl (lost : OrdMap NodeIndex (Lost V)) : Gathers lost [] lost := fun _ _ h => .inl h

variable {b : Buffered (DataValue V)}

theorem Gathers.cons {lost lost₁ lost₂ : OrdMap NodeIndex (Lost V)}
    {l : List (Buffered (DataValue V))} (h₁ : Gathers lost [b] lost₁) (h₂ : Gathers lost₁ l lost₂) :
    Gathers lost (b :: l) lost₂ := by
  have hmem : ∀ c, c ∈ [b] → c ∈ b :: l := fun c hc => mem_cons.mpr (.inl (mem_singleton.mp hc))
  intro i l₂ hl₂
  rcases h₂ i l₂ hl₂ with hl₁ | ⟨c, hc, hfrom, d, hd, hdi⟩
  · rcases h₁ i l₂ hl₁ with h | ⟨c, hc, hfrom, d, hd, hdi⟩
    · exact .inl h
    · exact .inr ⟨c, hc, hfrom.imp_left fun h => ⟨hmem c h.1, h.2⟩, d, hmem d hd, hdi⟩
  · refine .inr ⟨c, hc, ?_, d, mem_cons_of_mem _ hd, hdi⟩
    rcases hfrom with ⟨hfrom, hci⟩ | ⟨l₁, hl₁, hnewest⟩
    · exact .inl ⟨mem_cons_of_mem _ hfrom, hci⟩
    · rcases h₁ i l₁ hl₁ with h | ⟨e, he, hfrom, -⟩
      · exact .inr ⟨l₁, h, hnewest⟩
      · rw [hnewest] at he
        cases he
        exact hfrom.imp_left fun h => ⟨hmem c h.1, h.2⟩

namespace Group

variable {g : Group V Id}

theorem giveUp_lost (g : Group V Id) (b : Buffered (DataValue V)) :
    (g.giveUp env b).lost = g.lost.insert b.item.index (((g.lost.find? b.item.index).getD {}).add b) := by
  simp only [giveUp, keepBeat_buffer, Lost.add, widen]
  cases ((g.lost.find? b.item.index).getD {}).newest with
  | none => rfl
  | some newest =>
    dsimp only
    split_ifs <;> simp only [unflag_buffer, keepBeat_buffer]

/-- The entry of the dropped value's node is put anew; every other stays. -/
theorem giveUp_gathers (g : Group V Id) (b : Buffered (DataValue V)) : Gathers g.lost [b] (g.giveUp env b).lost := by
  intro i l' hl'
  rw [giveUp_lost, OrdMap.find?_insert] at hl'
  split_ifs at hl' with hi
  · subst hi
    cases hl'
    have hb : b ∈ [b] ∧ b.item.index = b.item.index := ⟨mem_singleton_self b, rfl⟩
    have hnewest : ∀ newest, ((g.lost.find? b.item.index).getD {}).newest = some newest →
        ∃ l, g.lost.find? b.item.index = some l ∧ l.newest = some newest := by
      intro newest h
      cases hl : g.lost.find? b.item.index with
      | none => simp [hl] at h
      | some l => exact ⟨l, rfl, by simpa [hl] using h⟩
    simp only [Lost.add]
    cases hn : ((g.lost.find? b.item.index).getD {}).newest with
    | none => exact .inr ⟨b, rfl, .inl hb, b, hb⟩
    | some newest =>
      dsimp only
      split_ifs
      · exact .inr ⟨b, rfl, .inl hb, b, hb⟩
      · exact .inr ⟨newest, hn, .inr (hnewest newest hn), b, hb⟩
  · exact .inl hl'

theorem giveUp_buffer (g : Group V Id) (b : Buffered (DataValue V)) :
    (g.giveUp env b).buffer = { g.buffer with lost := (g.giveUp env b).lost } := by
  simp only [giveUp, keepBeat, unflag]
  split_ifs <;> (split <;> first | rfl | (split_ifs <;> rfl))

theorem dropLoop_spec (before need : ℕ) (l : List (Buffered (DataValue V))) (freed count : ℕ) (g : Group V Id) :
    ∃ n, (dropLoop env before need l freed count g).1 = freed + costs env (l.take n) ∧
      (dropLoop env before need l freed count g).2.2.buffer =
        { g.buffer with
          values := l.drop n
          lost := (dropLoop env before need l freed count g).2.2.lost } ∧
      Gathers g.lost (l.take n) (dropLoop env before need l freed count g).2.2.lost := by
  fun_induction dropLoop env before need l freed count g with
  | case1 | case3 => exact ⟨0, rfl, rfl, .refl _⟩
  | case2 b l freed count g _ ih =>
    obtain ⟨n, hfreed, hbuffer, hlost⟩ := ih
    refine ⟨n + 1, ?_, ?_, (giveUp_gathers env g b).cons hlost⟩
    · rw [hfreed, take_succ_cons, costs, costs, map_cons, sum_cons]
      omega
    · rw [hbuffer, giveUp_buffer]
      rfl

theorem drop_spec (g : Group V Id) (before need : ℕ) : ∃ n, (g.drop env before need).2.buffer =
        { g.buffer with
          values := g.values.drop n
          held := g.held - costs env (g.values.take n)
          store := { g.store with
            buffered := g.store.buffered - min g.store.buffered (costs env (g.values.take n)) }
          lost := (g.drop env before need).2.lost } ∧
      Gathers g.lost (g.values.take n) (g.drop env before need).2.lost := by
  obtain ⟨n, hfreed, hbuffer, hlost⟩ := dropLoop_spec env before need g.values 0 0 g
  refine ⟨n, ?_, hlost⟩
  rw [Nat.zero_add] at hfreed
  have hheld : (dropLoop env before need g.values 0 0 g).2.2.held = g.held := congrArg Buffer.held hbuffer
  have hstore : (dropLoop env before need g.values 0 0 g).2.2.store = g.store := congrArg Buffer.store hbuffer
  have hvalues : (dropLoop env before need g.values 0 0 g).2.2.values = g.values.drop n :=
    congrArg Buffer.values hbuffer
  have hchanges : (dropLoop env before need g.values 0 0 g).2.2.changes = g.changes :=
    congrArg Buffer.changes hbuffer
  simp only [drop, buffer, hheld, hstore, hvalues, hchanges, hfreed]

/-- A gap's records: its marker is placed at its newest, or where that was. -/
theorem mem_lostRecords (h : b ∈ g.lostRecords env) :
    ∃ i l, g.lost.find? i = some l ∧ b.sequence = (l.newest.map Buffered.sequence).getD l.sequence ∧
      (b.item.index = i ∨ l.newest = some b) := by
  obtain ⟨⟨i, l⟩, hl, hb⟩ := mem_flatMap.mp h
  refine ⟨i, l, OrdMap.mem_entries_iff.mp hl, ?_⟩
  rcases mem_append.mp hb with hb | hb
  · simp only [gapMarker, Option.mem_toList, Option.ite_none_right_eq_some, Option.some.injEq] at hb
    rw [← hb.2]
    exact ⟨rfl, .inl rfl⟩
  · have hnewest : l.newest = some b := by simpa using hb
    simp [hnewest]

theorem mem_take {now : TimePoint} {b : Buffered (Record V Id)} (h : b ∈ (g.take env now).1) :
    (∃ c ∈ g.changes, b = c.map .change) ∨
      ∃ v ∈ g.lostRecords env ++ g.values.filter (g.takes now), b.sequence = v.sequence ∧ b.item = .value v.item := by
  have hrelease : ∀ (l : List (Buffered (DataValue V))) (b : Buffered (Record V Id)),
      b ∈ (l.map release).map (Buffered.map .value) →
      ∃ v ∈ l, b.sequence = v.sequence ∧ b.item = .value v.item := by
    intro l b hb
    rw [map_map] at hb
    obtain ⟨v, hv, rfl⟩ := mem_map.mp hb
    refine ⟨v, hv, ?_⟩
    simp only [Function.comp_apply, Buffered.map, release]
    split_ifs <;> exact ⟨rfl, rfl⟩
  simp only [take, mem_append] at h
  rcases h with h | h
  · obtain ⟨v, hv, hb⟩ := hrelease _ b h
    exact .inr ⟨v, mem_append_left _ hv, hb⟩
  · rcases mem_append.mp ((mergeBy_perm _ _ _).mem_iff.mp h) with h | h
    · obtain ⟨c, hc, rfl⟩ := mem_map.mp h
      exact .inl ⟨c, hc, rfl⟩
    · obtain ⟨v, hv, hb⟩ := hrelease _ b h
      exact .inr ⟨v, mem_append_right _ hv, hb⟩

theorem take_buffer (g : Group V Id) (now : TimePoint) : (g.take env now).2.2.buffer =
      { store := { g.store with
          buffered := g.store.buffered -
            min g.store.buffered (g.held - costs env (g.values.filter fun b => !g.takes now b)) }
        changes := []
        values := g.values.filter fun b => !g.takes now b
        held := costs env (g.values.filter fun b => !g.takes now b)
        lost := ∅ } := rfl

theorem costs_bySequence {α : Type*} (l : List (Buffered α)) : costs env (bySequence l) = costs env l :=
  ((bySequence_perm l).map (cost env)).sum_eq

theorem returnHeld_buffer (g : Group V Id) (held : List ℕ) : (g.returnHeld env held).2.buffer =
      { store := { g.store with
          buffered := g.store.buffered + (costs env (g.lostRecords env) + costs env (g.batchAt held)) }
        changes := changesOf (bySequence (g.batchAt held)) ++ g.changes
        values := valuesOf (bySequence (g.batchAt held)) ++ bySequence (g.lostRecords env) ++ g.values
        held := g.held + (costs env (g.lostRecords env) + costs env (g.batchAt held))
        lost := ∅ } := by
  rw [← costs_bySequence env (g.lostRecords env), ← costs_bySequence env (g.batchAt held)]
  rfl

end Group

/-- The same kind of record, of the same node. -/
def Record.Alike (r r' : Record V Id) : Prop := r.index = r'.index ∧ r.value?.isSome = r'.value?.isSome

theorem Record.Alike.refl (r : Record V Id) : r.Alike r := ⟨rfl, rfl⟩

/-- Each of `l'` stands where one of `l` does, for the same node. -/
def Stands (l l' : List (Buffered (Record V Id))) : Prop :=
  ∀ b' ∈ l', ∃ b ∈ l, b.sequence = b'.sequence ∧ b.item.Alike b'.item

theorem Stands.refl (l : List (Buffered (Record V Id))) : Stands l l :=
  fun b hb => ⟨b, hb, rfl, .refl _⟩

theorem stands_arrange (files : GroupFiles V Id) (batch : List (Buffered (Record V Id))) :
    Stands batch (arrange env files batch) := by
  intro b' hb'
  rcases mem_append.mp (mem_stableSort.mp hb') with hb' | hb'
  · obtain ⟨b, hb, rfl⟩ := mem_map.mp hb'
    refine ⟨b, hb, ?_⟩
    simp only [markCopied]
    split <;> exact ⟨rfl, .refl _⟩
  · obtain ⟨b, hb, hcopy⟩ := mem_flatMap.mp hb'
    refine ⟨b, hb, ?_⟩
    simp only [copies] at hcopy
    split at hcopy
    · cases hcopy
    · rename_i c hc
      split_ifs at hcopy
      · cases hcopy
      · obtain ⟨later, -, rfl⟩ := mem_map.mp hcopy
        refine ⟨rfl, ?_, ?_⟩
        · rw [hc]
          cases c <;> rfl
        · rw [hc]
          rfl

theorem stands_warned (g : Group V Id) (lo hi : ℕ) :
    Stands (g.taken.getD []) ((g.warned lo hi).taken.getD []) := by
  intro b' hb'
  obtain ⟨i, hi'⟩ := mem_iff_getElem?.mp hb'
  rw [Group.warned_getElem?] at hi'
  obtain ⟨b, hb, rfl⟩ := Option.map_eq_some_iff.mp hi'
  refine ⟨b, mem_iff_getElem?.mpr ⟨i, hb⟩, ?_⟩
  split_ifs
  · obtain ⟨item, sequence, bytes, copied, released⟩ := b
    cases item <;> exact ⟨rfl, rfl, rfl⟩
  · exact ⟨rfl, .refl _⟩

namespace System

/-- The batch, before it is shared with reads and after. -/
def out (s : System V Id) : List (Buffered (Record V Id)) :=
  match s.phase with
  | .took _ _ _ batch => batch
  | _ => s.group.taken.getD []

/-- Past the batch, at the corrections and the edits. -/
def settled (s : System V Id) : Bool :=
  match s.phase with
  | .jobs _ | .job _ _ => true
  | _ => false

/-- An action that leaves the buffer and the membership alone, and no more in the batch than there was.
Past the batch it stays there, or the flush ends. -/
structure Carries (s s' : System V Id) : Prop where
  buffer : s'.group.buffer = s.group.buffer
  nodes : s'.group.nodes = s.group.nodes
  gone : s'.group.gone = s.group.gone
  out : Stands s.out s'.out
  ended : s.settled = true → s'.settled = true ∨ s'.out = []

/-- What an action does to the buffer. -/
inductive Does [DecidableEq Id] (s : System V Id) : Action V Id → System V Id → Prop where
  | perform {s' : System V Id} (op : Op V Id) (hg : s'.group = (s.group.perform env op).1)
      (hout : s'.out = s.out) (hfiles : s'.files = s.files) (hphase : s'.phase = s.phase) :
      Does s (.perform op) s'
  | others {s' : System V Id} (sequence buffered : ℕ) (h : s.group.store.sequence ≤ sequence)
      (hs : s' = { s with group := { s.group with store := ⟨sequence, buffered⟩ } }) :
      Does s (.others sequence buffered) s'
  | trim (before need : ℕ) : Does s (.trim before need) { s with group := (s.group.drop env before need).2 }
  | take (now : TimePoint) (hphase : s.phase = .idle) : Does s (.take now) (s.take env now)
  | finish {fl : Flush} (hphase : s.phase = .writing fl)
      (hnext : fl.next env (s.group.taken.getD []) = none) : Does s .finish (s.finish env fl)
  | carries {a : Action V Id} {s' : System V Id} (h : s.Carries s') : Does s a s'

variable {env} {s s' : System V Id}

theorem Carries.of_group (hg : s'.group = s.group) (hout : s'.out = s.out)
    (hsettled : s'.settled = s.settled) : s.Carries s' where
  buffer := by rw [hg]
  nodes := by rw [hg]
  gone := by rw [hg]
  out := hout ▸ .refl _
  ended h := .inl (hsettled ▸ h)

theorem Carries.amid (hs : s.settled = false)
    (hbuffer : s'.group.buffer = s.group.buffer) (hnodes : s'.group.nodes = s.group.nodes)
    (hgone : s'.group.gone = s.group.gone) (hout : Stands s.out s'.out) : s.Carries s' where
  buffer := hbuffer
  nodes := hnodes
  gone := hgone
  out := hout
  ended h := absurd h (by simp [hs])

theorem out_of_phase {fl : Flush} {closed stopping : Bool} {batch : List (Buffered (Record V Id))}
    (h : s.phase = .took fl closed stopping batch) : s.out = batch := by
  simp only [out, h]

theorem out_eq_taken (h : ∀ fl closed stopping batch, s.phase ≠ .took fl closed stopping batch) :
    s.out = s.group.taken.getD [] := by
  unfold out
  split
  · rename_i hphase
    exact absurd hphase (h _ _ _ _)
  · rfl

theorem trim_out (s : System V Id) (before need : ℕ) :
    ({ s with group := (s.group.drop env before need).2 } : System V Id).out = s.out := by
  have htaken : (s.group.drop env before need).2.taken = s.group.taken :=
    congrArg Outside.taken (s.group.drop_untrimmed env before need).1
  simp only [out, htaken]

variable {walkBack : GroupFiles V Id → NodeIndex → Ticks → Option (DataValue V)} [DecidableEq Id]

/-- The flush's own steps: between the buffer's taking and its return they carry the batch along. -/
theorem step_does {a : Action V Id} (hs : s.step env walkBack a = some s') : s.Does env a s' := by
  cases step_steps hs with
  | perform op =>
    have htaken : (s.group.perform env op).1.taken = s.group.taken := by
      classical exact (s.group.perform_performs env op).taken
    refine .perform op rfl ?_ rfl rfl
    simp only [out, endGone, htaken]
  | others h => exact .others _ _ h rfl
  | trim before need => exact .trim before need
  | deliver | edit => exact .carries (.of_group rfl rfl rfl)
  | take now hphase => exact .take now hphase
  | taking hphase =>
    refine .carries (.amid (by simp only [settled, hphase]) rfl rfl rfl ?_)
    rw [out_of_phase hphase]
    exact stands_arrange env _ _
  | hold hphase hs =>
    obtain ⟨⟨day, stop, due⟩, -, rfl⟩ := Option.map_eq_some_iff.mp hs
    exact .carries (.of_group rfl (by simp only [out, hphase]) (by simp only [settled, hphase]))
  | @prepare fl _ hphase hs =>
    obtain ⟨⟨day, stop, due⟩, -, hs⟩ := Option.map_eq_some_iff.mp hs
    have hout : s.out = s.group.taken.getD [] := out_eq_taken (by simp [hphase])
    have hwarned := stands_warned s.group fl.done stop
    have hsettled : s.settled = false := by simp only [settled, hphase]
    subst hs
    exact .carries (.amid hsettled rfl rfl rfl (hout ▸ hwarned))
  | failDay hphase | failJob hphase | commitJob hphase | correct hphase _ =>
    exact .carries (.of_group rfl (by simp only [out, hphase]) (by simp only [settled, hphase]))
  | @commitDay fl stop due write hphase =>
    have hout : s.out = s.group.taken.getD [] := out_eq_taken (by simp [hphase])
    have hsettled : s.settled = false := by simp only [settled, hphase]
    cases write <;> exact .carries (.amid hsettled rfl rfl rfl (hout ▸ .refl _))
  | mark hphase =>
    have hout : s.out = s.group.taken.getD [] := out_eq_taken (by simp [hphase])
    exact .carries (.amid (by simp only [settled, hphase]) rfl rfl rfl (hout ▸ .refl _))
  | finish hphase hnext => exact .finish hphase hnext
  | endFlush _ =>
    exact .carries ⟨rfl, rfl, rfl, fun b hb => absurd hb not_mem_nil, fun _ => .inr rfl⟩
  | subscribe _ _ | unsubscribe id => exact .carries ⟨rfl, rfl, rfl, .refl _, .inl⟩

end System

end OpcHub.Historian
