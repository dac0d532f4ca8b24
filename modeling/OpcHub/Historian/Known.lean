import OpcHub.Historian.Order

/-! The indexes a group knows: its members', and those of nodes that left and may
have values to be written. No call, trim or take forgets one; only the prune after a
batch that was written whole does, and it looks at what is buffered since. -/

namespace OpcHub.Historian

open Lib List OrdMap

variable {V Id : Type*} (env : Env V Id)

/-- A change made for a member leaves the group's members, and forgets none that left. -/
structure Leaves (s s' : Held V Id) : Prop where
  nodes : s'.2.1.nodes = s.2.1.nodes
  gone : ∀ i, (s.2.1.gone.find? i).isSome = true → (s'.2.1.gone.find? i).isSome = true

variable {env} in
theorem Collecting.leaves {K : Node V Id → Node V Id → Prop} {index : NodeIndex} {s s' : Held V Id}
    (h : Collecting env K index s s') : Leaves s s' :=
  ⟨h.nodes_gone.1, fun i hi => by rwa [h.nodes_gone.2]⟩

theorem isSome_find?_insert {β : Type*} (m : OrdMap NodeIndex β) (k : NodeIndex) (x : β) {i : NodeIndex}
    (h : (m.find? i).isSome = true) : ((m.insert k x).find? i).isSome = true := by
  rw [find?_insert]
  split_ifs
  · rfl
  · exact h

namespace Group

variable {g g' : Group V Id}

/-- An index of a member, or of one that left and may have values to be written. -/
def Known (g : Group V Id) (i : NodeIndex) : Prop := g.HasMember i ∨ (g.gone.find? i).isSome = true

instance (g : Group V Id) (i : NodeIndex) : Decidable (g.Known i) :=
  inferInstanceAs (Decidable (_ = true ∨ _ = true))

theorem isSome_membership_find (g : Group V Id) (nextIndex : NodeIndex)
    (last : NodeIndex → Ticks → Option (DataValue V)) (i : NodeIndex) :
    ((g.membership nextIndex last).find i).isSome = true ↔ g.Known i := by
  simp only [membership, Known, HasMember]
  cases g.nodes.find? i <;> simp

/-- A change that forgets no index. -/
def Remembers (g g' : Group V Id) : Prop := ∀ i, g.Known i → g'.Known i

theorem Remembers.refl (g : Group V Id) : g.Remembers g := fun _ => id

theorem Remembers.of_eq (hnodes : g'.nodes = g.nodes) (hgone : g'.gone = g.gone) : g.Remembers g' := by
  intro i hi
  rwa [Known, HasMember, hnodes, hgone]

theorem Remembers.trans {g'' : Group V Id} (h₁ : g.Remembers g') (h₂ : g'.Remembers g'') : g.Remembers g'' :=
  fun i hi => h₂ i (h₁ i hi)

theorem remembers_of_working {p p' : Group V Id × Effects V} (h : Working (fun _ => Leaves) p p') :
    p.1.Remembers p'.1 := by
  induction h with
  | @member index f hf p =>
    intro i hi
    simp only [onMember]
    split
    · exact hi
    · rename_i node hnode
      refine hi.imp (fun hi => ?_) ((hf (node, p.1, p.2)).gone i)
      rw [HasMember, (hf (node, p.1, p.2)).nodes]
      exact isSome_find?_insert _ _ _ hi
  | timer beats armed due serial => exact .of_eq rfl rfl
  | refl p => exact .refl p.1
  | trans _ _ ih₁ ih₂ => exact ih₁.trans ih₂

theorem closeNode_leaves (by_ : Option Writer) (now : TimePoint) (index : NodeIndex) (s : Held V Id) :
    Leaves s (closeNode env by_ now index s) := by
  have h := (settle_collecting env index now s).leaves
  exact ⟨h.nodes, fun i hi => isSome_find?_insert _ _ _ (h.gone i hi)⟩

theorem gone_closeNode (by_ : Option Writer) (now : TimePoint) (index : NodeIndex) (s : Held V Id) :
    ((closeNode env by_ now index s).2.1.gone.find? index).isSome = true := by
  exact Option.isSome_iff_exists.mpr ⟨_, find?_insert_self _ _ _⟩

theorem pushChange_remembers (g : Group V Id) (c : Change Id) (bytes : ℕ) (effects : Effects V) :
    g.Remembers (g.pushChange env c bytes effects).1 := by
  simp only [pushChange, claimFlush]
  split_ifs <;> exact .of_eq rfl rfl

theorem close_remembers (g : Group V Id) (by_ : Option Writer) (now : TimePoint) :
    g.Remembers (g.close env by_ now).1 := by
  -- over the members, each of them has been left or is still to be
  have h : ∀ (indexes : List NodeIndex) (p : Group V Id × Effects V) (i : NodeIndex),
      p.1.HasMember i ∧ i ∈ indexes ∨ (p.1.gone.find? i).isSome = true →
      ((indexes.foldl (fun s index => onMember index (closeNode env by_ now index) s.1 s.2) p).1.gone.find? i).isSome
        = true := by
    intro indexes
    induction indexes with
    | nil => exact fun p i hi => hi.resolve_left fun h => absurd h.2 not_mem_nil
    | cons index indexes ih =>
      intro p i hi
      refine ih _ i ?_
      have hmember := onMember_hasMember env index (closeNode_leads env by_ now index) p.1 p.2 i
      have hkeeps : (p.1.gone.find? i).isSome = true →
          ((onMember index (closeNode env by_ now index) p.1 p.2).1.gone.find? i).isSome = true := by
        simp only [onMember]
        split
        · exact id
        · rename_i node _
          exact (closeNode_leaves env by_ now index (node, p.1, p.2)).gone i
      rcases hi with ⟨hi, hmem⟩ | hi
      · rcases mem_cons.mp hmem with rfl | hmem
        · right
          obtain ⟨node, hnode⟩ := Option.isSome_iff_exists.mp hi
          simp only [onMember, hnode]
          exact gone_closeNode env by_ now i _
        · exact .inl ⟨hmember.mpr hi, hmem⟩
      · exact .inr (hkeeps hi)
  intro i hi
  refine .inr (h g.nodes.keys (g, {}) i (hi.imp_left fun hi => ⟨hi, ?_⟩))
  obtain ⟨node, hnode⟩ := Option.isSome_iff_exists.mp hi
  exact mem_map.mpr ⟨_, mem_entries_iff.mpr hnode, rfl⟩

variable [DecidableEq Id]

theorem insert_remembers (g : Group V Id) (node : Id) (config : Thresholds) (index : NodeIndex) :
    g.Remembers (g.insert node config index).2 := by
  have hremember : ∀ (g : Group V Id) (index : NodeIndex), g.Remembers (g.remember index node) := by
    intro g index
    simp only [remember]
    split_ifs
    · exact .refl g
    · exact .of_eq rfl rfl
  have hjoin : ∀ (g : Group V Id) (index : NodeIndex) (left : List (Id × TimePoint)) (member : Node V Id),
      g.Remembers { g with left := left, nodes := g.nodes.insert index member } :=
    fun g index left member i hi => hi.imp_left (isSome_find?_insert _ _ _)
  have hissue : g.Remembers { g with nextIndex := g.nextIndex + 1 } := .of_eq rfl rfl
  simp only [insert]
  split_ifs
  · exact .refl g
  · exact hissue
  · exact (hissue.trans (hremember _ _)).trans (hjoin _ _ _ _)
  · exact .refl g
  · exact (hremember _ _).trans (hjoin _ _ _ _)

theorem perform_remembers (g : Group V Id) (op : Op V Id) : g.Remembers (g.perform env op).1 := by
  have hsettle : ∀ now index (s : Held V Id), Leaves s (settle env index now s) :=
    fun now index s => (settle_collecting env index now s).leaves
  by_cases hop : Op.collects op = true
  · obtain ⟨down, publishingInterval, h⟩ := perform_working env g hop
    have hstart : g.Remembers { g with down, publishingInterval } := .of_eq rfl rfl
    exact hstart.trans (remembers_of_working (h.mono Collecting.leaves))
  cases op with
  | add node config index by_ now =>
    have hinsert := g.insert_remembers node config index
    simp only [perform, add]
    split_ifs
    · exact .refl g
    · split
      · rename_i h
        rwa [h] at hinsert
      · rename_i h
        rw [h] at hinsert
        exact hinsert.trans (pushChange_remembers env _ _ _ _)
  | remove index by_ now =>
    simp only [perform, remove]
    split
    · exact .refl g
    · rename_i node hnode
      split_ifs
      · exact .refl g
      · have hleaves := hsettle now index (node, g, {})
        refine Remembers.trans (fun i hi => ?_) (pushChange_remembers env _ _ _ _)
        by_cases hindex : i = index
        · exact .inr (by simp [hindex])
        · refine hi.imp (fun hi => ?_) fun hi => isSome_find?_insert _ _ _ (hleaves.gone i hi)
          rwa [HasMember, find?_erase, if_neg hindex, hleaves.nodes]
  | close by_ now => exact close_remembers env g by_ now
  | stopping now =>
    have hstopped : g.Remembers { g with stopped := true } := .of_eq rfl rfl
    exact hstopped.trans (remembers_of_working (onMembers_working (hsettle now) _ {}))
  | _ => exact absurd rfl hop

end Group

namespace Buffer

variable {P Q : NodeIndex → Prop} {b b' : Buffer V Id}

/-- The values of the buffer, and those a full buffer dropped, are of indexes in `P`. -/
structure Within (P : NodeIndex → Prop) (b : Buffer V Id) : Prop where
  values : ∀ v ∈ b.values, P v.item.index
  lost : ∀ i l, b.lost.find? i = some l → P i
  newest : ∀ i l v, b.lost.find? i = some l → l.newest = some v → v.item.index = i

theorem Within.mono (h : b.Within P) (hP : ∀ i, P i → Q i) : b.Within Q :=
  ⟨fun v hv => hP _ (h.values v hv), fun i l hl => hP _ (h.lost i l hl), h.newest⟩

variable {env} in
theorem Step.within (hs : Step env P b b') (h : b.Within P) : b'.Within P := by
  cases hs with
  | value bytes hv =>
    refine ⟨fun v hmem => ?_, h.lost, h.newest⟩
    rcases mem_append.mp hmem with hmem | hmem
    · exact h.values v hmem
    · rw [mem_singleton.mp hmem]
      exact hv
  | change c bytes => exact { h with }
  | drop p => exact ⟨fun v hv => h.values v (mem_filter.mp hv).1, h.lost, h.newest⟩
  | @dropLost index lost newest hl hn =>
    have hfind : ∀ i l, (b.lost.insert index (lost.dropNewest newest)).find? i = some l →
        i = index ∧ l = lost.dropNewest newest ∨ b.lost.find? i = some l := by
      intro i l hfind
      rw [find?_insert] at hfind
      split_ifs at hfind with hi
      · exact .inl ⟨hi, (Option.some.inj hfind).symm⟩
      · exact .inr hfind
    refine ⟨h.values, fun i l hfind' => ?_, fun i l v hfind' hv => ?_⟩
    · rcases hfind i l hfind' with ⟨rfl, -⟩ | hold
      · exact h.lost i lost hl
      · exact h.lost i l hold
    · rcases hfind i l hfind' with ⟨-, rfl⟩ | hold
      · cases hv
      · exact h.newest i l v hold hv

end Buffer

namespace Group

open Buffer

variable {P : NodeIndex → Prop} {g : Group V Id}

theorem lostRecords_within (h : g.buffer.Within P) {b : Buffered (DataValue V)} (hb : b ∈ g.lostRecords env) :
    P b.item.index := by
  obtain ⟨i, l, hl, -, rfl | hnewest⟩ := mem_lostRecords env hb
  · exact h.lost _ l hl
  · exact h.newest i l b hl hnewest ▸ h.lost i l hl

section

variable (g : Group V Id)

theorem modify_remembers (index : NodeIndex) (f : Node V Id → Node V Id) :
    g.Remembers { g with nodes := g.nodes.modify index f } := by
  refine fun i hi => hi.imp_left fun hi => ?_
  simp only [HasMember, OrdMap.modify] at hi ⊢
  split
  · exact hi
  · exact isSome_find?_insert _ _ _ hi

theorem keepBeat_remembers (v : DataValue V) : g.Remembers (g.keepBeat v) := by
  simp only [keepBeat]
  split_ifs
  · exact modify_remembers g _ _
  · exact .refl g

theorem giveUp_remembers (b : Buffered (DataValue V)) : g.Remembers (g.giveUp env b) := by
  have hunflag : ∀ (g : Group V Id) (v : DataValue V), g.Remembers (g.unflag env v) := by
    intro g v
    simp only [unflag]
    split_ifs
    · exact .refl g
    · exact modify_remembers g _ _
  refine (keepBeat_remembers g b.item).trans ?_
  simp only [giveUp]
  split
  · exact .of_eq rfl rfl
  · split_ifs <;> exact (hunflag _ _).trans (.of_eq rfl rfl)

theorem drop_remembers (before need : ℕ) : g.Remembers (g.drop env before need).2 := by
  have hloop : ∀ (l : List (Buffered (DataValue V))) (freed count : ℕ) (g : Group V Id),
      g.Remembers (dropLoop env before need l freed count g).2.2 := by
    intro l freed count g
    fun_induction dropLoop env before need l freed count g with
    | case1 | case3 => exact .of_eq rfl rfl
    | case2 b l freed count g _ ih => exact (giveUp_remembers env g b).trans ih
  exact (hloop _ _ _ g).trans (.of_eq rfl rfl)

theorem take_remembers (now : TimePoint) : g.Remembers (g.take env now).2.2 := by
  have hloop : ∀ (l : List (Buffered (DataValue V))) (g : Group V Id),
      g.Remembers { g with nodes := (l.foldl (fun g b => g.keepBeat b.item) g).nodes } := by
    intro l
    induction l with
    | nil => exact fun g => .refl g
    | cons b l ih =>
      intro g i hi
      refine (ih _ i (keepBeat_remembers g b.item i hi)).imp_right fun hgone => ?_
      have hsame : (g.keepBeat b.item).gone = g.gone := by
        simp only [keepBeat]
        split_ifs <;> rfl
      rwa [← hsame]
  exact hloop (g.values.filter (g.takes now)) { g with
    lost := ∅, ledger := { g.ledger with marked := g.ledger.marked ++ g.gapMarkers env } }

end

theorem drop_within (h : g.buffer.Within P) (before need : ℕ) : (g.drop env before need).2.buffer.Within P := by
  obtain ⟨n, hbuffer, hlost⟩ := g.drop_spec env before need
  rw [hbuffer]
  have hdropped : ∀ v ∈ g.values.take n, P v.item.index := fun v hv => h.values v (mem_of_mem_take hv)
  refine ⟨fun v hv => h.values v (mem_of_mem_drop hv), fun i l hl => ?_, fun i l v hl hv => ?_⟩
  · rcases hlost i l hl with hold | ⟨-, -, -, c, hc, rfl⟩
    · exact h.lost i l hold
    · exact hdropped c hc
  · rcases hlost i l hl with hold | ⟨b, hb, hfrom, -⟩
    · exact h.newest i l v hold hv
    · rw [hv] at hb
      cases hb
      rcases hfrom with ⟨-, hi⟩ | ⟨l', hl', hnewest⟩
      · exact hi
      · exact h.newest i l' v hl' hnewest

/-- What a prune leaves: whoever has a value to be written, if only one that a full buffer dropped. -/
theorem pruneGone_known {i : NodeIndex} (h : g.Known i)
    (hi : i ∈ g.values.map (fun b => b.item.index) ++ g.lost.keys) : g.pruneGone.Known i := by
  refine h.imp_right fun h => ?_
  refine List.foldlRecOn (motive := fun gone : OrdMap NodeIndex Id => (gone.find? i).isSome = true) _ _ h ?_
  intro gone hgone k _
  split_ifs with hk
  · exact hgone
  · rw [find?_erase, if_neg]
    · exact hgone
    · rintro rfl
      exact hk (contains_iff_mem.mpr hi)

end Group

end OpcHub.Historian
