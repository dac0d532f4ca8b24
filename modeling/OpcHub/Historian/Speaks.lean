import OpcHub.Historian.Judged

/-! The stored value speaks for the newest one delivered. A member's newest value is
pending, or stored, or was left out against the value the member still holds as stored:
settling a pending value either stores it or leaves it out so, and nothing but a value
stored after it changes what it was compared with. A break's marker alone stands for no
value. -/

namespace OpcHub.Historian

open Lib List Option Historian.Group

variable {V Id : Type*} (env : Env V Id)

/-- What of a member its newest value is judged by. -/
structure Voice (V : Type*) where
  config : Thresholds
  stored : Option (Value V)
  marked : Bool
  valueTs : Option Ticks
  pending : Option (Arrival V)

def Node.voice (node : Node V Id) : Voice V := ⟨node.config, node.stored, node.marked, node.valueTs, node.pending⟩

/-- The value is in the stored one's place: it is the stored one, or was left out for it, `again` saying that it was the
first after a break and had the last delivered source time. -/
def Voice.Covers (vo : Voice V) (value : Value V) (again : Bool) : Prop :=
  vo.stored = some value ∨ vo.marked = true ∨ ∃ stored, vo.stored = some stored ∧
    (env.passes vo.config stored value = false ∨ again = true ∧ env.repeats stored value = true)

/-- The pending value is the newest one. -/
def Voice.Speaks (vo : Voice V) (value : Value V) (again : Bool) : Prop :=
  vo.pending.elim (vo.Covers env value again) fun pending => pending.data = value

namespace Group

variable (index : NodeIndex)

/-- The newest record of a member. -/
def lastOf (records : List (DataValue V)) : Option (DataValue V) :=
  (records.filter fun v => v.index = index).getLast?

/-! ### What each change does to it -/

theorem armNode_voice (now : TimePoint) (s : Held V Id) : (armNode index now s).1.voice = s.1.voice := by
  obtain ⟨_, _, _, _, _, h⟩ := armNode_eq index now s
  rw [h]
  rfl

theorem dropNodeBeats_voice (start : Ticks) (made : Bool) (s : Held V Id) :
    (dropNodeBeats env index start made s).1.voice = s.1.voice := by
  obtain ⟨_, _, _, _, _, _, _, _, h⟩ := dropNodeBeats_eq env index start made s
  rw [h]
  rfl

theorem storeValue_voice (arrival : Arrival V) (now : TimePoint) (s : Held V Id) :
    (storeValue env index arrival now s).1.voice =
      { s.1.voice with
        stored := some arrival.data, marked := false, valueTs := some arrival.data.primaryTime } := by
  rw [storeValue, armNode_voice]
  rfl

/-- What is kept of a member and its records, whatever is delivered. -/
structure Kept (config : Thresholds) (vo : Voice V) (records : List (DataValue V)) : Prop where
  config : vo.config = config
  /-- A member with no stored value holds none back. -/
  blank : vo.stored = none → vo.pending = none ∧ vo.valueTs = none
  marked : vo.marked = true → ∃ value at_, lastOf index records = some (markerAt index value at_)

variable {index} {config : Thresholds}

theorem lastOf_append_self {records : List (DataValue V)} {v : DataValue V} (h : v.index = index) :
    lastOf index (records ++ [v]) = some v := by
  simp [lastOf, h]

variable {arrival : Arrival V} {now : TimePoint} {s : Held V Id}

theorem Kept.storeValue (h : s.1.config = config) : Kept index config (storeValue env index arrival now s).1.voice
      (storeValue env index arrival now s).2.1.ledger.stored := by
  rw [storeValue_voice]
  exact ⟨h, by simp, by simp⟩

theorem Kept.mark {at_ : Ticks} {ended : Value V} (h : s.1.config = config) :
    Kept index config (mark env index at_ ended now s).1.voice
      (mark env index at_ ended now s).2.1.ledger.stored := by
  refine ⟨h, by simp [Group.mark, Node.marks, Node.voice], fun _ => ⟨ended, at_, ?_⟩⟩
  exact lastOf_append_self rfl

theorem Kept.armNode (h : Kept index config s.1.voice s.2.1.ledger.stored) :
    Kept index config (armNode index now s).1.voice (armNode index now s).2.1.ledger.stored := by
  rwa [armNode_voice, armNode_ledger]

theorem exists_stored_of_not_passes {node : Node V Id} {value : Value V} (h : node.passes env value = false) :
    ∃ stored, node.stored = some stored ∧ env.passes node.config stored value = false := by
  simp only [Node.passes] at h
  cases hst : node.stored with
  | none => simp [hst] at h
  | some stored => exact ⟨stored, rfl, by simpa [hst] using h⟩

theorem settle_covers (now : TimePoint) (hs : Kept index config s.1.voice s.2.1.ledger.stored) :
    Kept index config (settle env index now s).1.voice (settle env index now s).2.1.ledger.stored ∧
      (settle env index now s).1.pending = none ∧
      (s.1.stored.isSome = true → (settle env index now s).1.stored.isSome = true) ∧
      ∀ value again, s.1.voice.Speaks env value again → (settle env index now s).1.voice.Covers env value again := by
  obtain ⟨node, g, effects⟩ := s
  simp only [settle]
  cases hp : node.pending with
  | none =>
    refine ⟨hs, hp, id, fun value again h => ?_⟩
    simpa [Voice.Speaks, Node.voice, hp] using h
  | some pending =>
    have hspeaks : ∀ value again, node.voice.Speaks env value again → pending.data = value := by
      intro value again h
      simpa [Voice.Speaks, Node.voice, hp] using h
    dsimp only
    split_ifs with hpasses
    · have hvoice := storeValue_voice env index pending now
        ({ node with pending := none, serial := node.serial + 1 }, g, effects)
      refine ⟨.storeValue env hs.config, congrArg Voice.pending hvoice, fun _ => ?_, fun value again h => .inl ?_⟩
      · exact (congrArg (fun vo => vo.stored.isSome) hvoice).trans rfl
      · rw [storeValue_voice, hspeaks value again h]
    · -- what does not pass is left out against a stored value
      obtain ⟨stored, hstored, hleft⟩ := exists_stored_of_not_passes env (Bool.not_eq_true _ ▸ hpasses)
      have hvoice := armNode_voice index now ({ node with pending := none, serial := node.serial + 1 }, g, effects)
      refine ⟨.armNode ⟨hs.config, ?_, hs.marked⟩, congrArg Voice.pending hvoice, fun h => ?_,
        fun value again h => .inr (.inr ⟨stored, ?_, .inl ?_⟩)⟩
      · intro hnone
        exact absurd (hstored.symm.trans hnone) (by simp)
      · exact (congrArg (fun vo => vo.stored.isSome) hvoice).trans h
      · rw [armNode_voice]
        exact hstored
      · rw [armNode_voice, ← hspeaks value again h]
        exact hleft

/-- A value's delivery leaves a member with a stored value that speaks for it. -/
structure Delivers (index : NodeIndex) (config : Thresholds) (value : Value V) (again : Bool) (s : Held V Id) :
    Prop where
  kept : Kept index config s.1.voice s.2.1.ledger.stored
  stored : s.1.stored.isSome = true
  speaks : s.1.voice.Speaks env value again

theorem Delivers.storeValue {again : Bool} (h : s.1.config = config) (hpending : s.1.pending = none) :
    Delivers env index config arrival.data again (storeValue env index arrival now s) := by
  have hvoice := storeValue_voice env index arrival now s
  refine ⟨.storeValue env h, (congrArg (fun vo => vo.stored.isSome) hvoice).trans rfl, ?_⟩
  have hnone : s.1.voice.pending = none := hpending
  rw [hvoice, Voice.Speaks, hnone]
  exact .inl rfl

variable (hs : Kept index config s.1.voice s.2.1.ledger.stored)
include hs

/-- What a value judged against a break leaves: equal source times leave it out where it agrees. -/
theorem collectAfterBreak_delivers {broke : TimePoint} {last : Option Ticks}
    (hlast : last.isSome = true → s.1.stored.isSome = true)
    {again : Bool} (hagain : last.isSome = true → arrival.data.sourceTimestamp = last → again = true) :
    Delivers env index config arrival.data again (collectAfterBreak env index arrival now broke last s) := by
  obtain ⟨hs₁, hpending, hstored, -⟩ := settle_covers env now hs
  simp only [collectAfterBreak]
  generalize settle env index now s = s₁ at hs₁ hpending hstored ⊢
  have hnone : s₁.1.voice.pending = none := hpending
  split_ifs with hequal hearlier
  · simp only [Bool.and_eq_true, beq_iff_eq] at hequal
    obtain ⟨⟨hsome, hsource⟩, hagrees⟩ := hequal
    rw [hsource] at hsome
    have hst := hstored (hlast hsome)
    have hvoice := armNode_voice index now s₁
    refine ⟨hs₁.armNode, (congrArg (fun vo => vo.stored.isSome) hvoice).trans hst, ?_⟩
    rw [hvoice, Voice.Speaks, hnone]
    obtain ⟨stored, heq⟩ := isSome_iff_exists.mp hst
    simp only [Node.agrees, heq, Bool.or_eq_true, Bool.not_eq_true'] at hagrees
    rcases hagrees with hmarked | hleft | hrepeats
    · exact .inr (.inl hmarked)
    · exact .inr (.inr ⟨stored, heq, .inl hleft⟩)
    · exact .inr (.inr ⟨stored, heq, .inr ⟨hagain hsome hsource, hrepeats⟩⟩)
  · refine ⟨.mark env hs₁.config, rfl, ?_⟩
    have hmark : (mark env index (max (ticks broke) s₁.1.recordTs) arrival.data now s₁).1.voice.pending = none := hnone
    rw [Voice.Speaks, hmark]
    exact .inr (.inl rfl)
  · have hvoice := dropNodeBeats_voice env index arrival.data.primaryTime false s₁
    apply Delivers.storeValue
    · exact (congrArg Voice.config hvoice).trans hs₁.config
    · exact (congrArg Voice.pending hvoice).trans hnone

theorem collectPassing_delivers (again : Bool) :
    Delivers env index config arrival.data again (collectPassing env index arrival now s) := by
  have hvoice : (if s.1.passes env arrival.data then
      dropNodeBeats env index arrival.data.primaryTime false s else s).1.voice = s.1.voice := by
    split_ifs
    · exact dropNodeBeats_voice env index _ false s
    · rfl
  have hledger : (if s.1.passes env arrival.data then
      dropNodeBeats env index arrival.data.primaryTime false s else s).2.1.ledger.stored = s.2.1.ledger.stored := by
    split_ifs
    · exact dropNodeBeats_stored env index _ false s
    · rfl
  simp only [collectPassing]
  generalize (if s.1.passes env arrival.data then
      dropNodeBeats env index arrival.data.primaryTime false s else s) = s₁ at hvoice hledger ⊢
  have hst : s₁.1.stored = s.1.stored := congrArg Voice.stored hvoice
  have hconfig : s₁.1.config = s.1.config := congrArg Voice.config hvoice
  rw [← hvoice, ← hledger] at hs
  -- a value held back, or one to compare with, is of a member that has stored one
  have hheld : (s₁.1.pending = none → s₁.1.valueTs = none → False) → s₁.1.stored.isSome = true := by
    intro h
    by_contra hnone
    obtain ⟨hp, ht⟩ := hs.blank (not_isSome_iff_eq_none.mp hnone)
    exact h hp ht
  split_ifs with hpending hpasses hwithin
  · refine ⟨⟨hs.config, fun h => ?_, hs.marked⟩, hheld fun h => ?_, rfl⟩
    · exact absurd (hs.blank h).1 (isSome_iff_ne_none.mp hpending)
    · exact absurd h (isSome_iff_ne_none.mp hpending)
  · obtain ⟨stored, heq, hleft⟩ := exists_stored_of_not_passes env (by simpa using hpasses)
    refine ⟨hs, by rw [hst, heq]; rfl, ?_⟩
    have hnone : s₁.1.voice.pending = none := not_isSome_iff_eq_none.mp hpending
    rw [Voice.Speaks, hnone]
    refine .inr (.inr ⟨stored, hst.trans heq, .inl ?_⟩)
    change env.passes s₁.1.config stored arrival.data = false
    rw [hconfig]
    exact hleft
  · exact .storeValue env hs.config (not_isSome_iff_eq_none.mp hpending)
  · have hts : s₁.1.valueTs ≠ none := by
      intro h
      simp [within, h] at hwithin
    have hsome := hheld fun _ h => hts h
    refine ⟨⟨hs.config, fun h => ?_, hs.marked⟩, hsome, rfl⟩
    exact absurd h (isSome_iff_ne_none.mp hsome)

theorem collectOrdinary_delivers {joined : Bool} (again : Bool) :
    Delivers env index config arrival.data again (collectOrdinary env index arrival now joined s) := by
  rw [collectOrdinary_eq]
  apply collectPassing_delivers
  obtain ⟨offset, h | h⟩ := beforeTest_cases env index arrival now joined s
  · rw [h]
    exact (settle_covers env now (s := ({ s.1 with offset := offset }, s.2)) hs).1
  · rw [h]
    exact hs

/-- Whether a value is the first after a break and has the last delivered source time. -/
def again (g : Group V Id) (node : Node V Id) (value : Value V) : Bool :=
  node.broke.isSome && decide (node.broke ≠ g.down) && value.sourceTimestamp.isSome &&
    decide (value.sourceTimestamp = node.delivered)

omit hs

theorem collect_delivers {node : Node V Id} {g : Group V Id}
    {effects : Effects V} (hs : Kept index config node.voice g.ledger.stored)
    (hlast : node.delivered.isSome = true → node.stored.isSome = true) :
    Delivers env index config arrival.data (g.again node arrival.data)
      (collect env index arrival now (node, g, effects)) := by
  have hs' : Kept index config (g.receives node arrival.data.sourceTimestamp).voice g.ledger.stored := hs
  simp only [collect]
  split
  · rename_i broke hbroke
    split_ifs with hdown
    · exact collectOrdinary_delivers env hs' _
    · refine collectAfterBreak_delivers env hs' hlast fun hsome hsource => ?_
      simp [again, hbroke, Ne.symm hdown, hsource, hsome]
  · exact collectOrdinary_delivers env hs' _

end Group

/-! ### The member in its group -/

variable {K : Node V Id → Node V Id → Prop}

theorem Collecting.stored {env : Env V Id} {index : NodeIndex} {s s' : Held V Id}
    (h : Collecting env K index s s') :
    ∃ new, s'.2.1.ledger.stored = s.2.1.ledger.stored ++ new ∧ ∀ v ∈ new, v.index = index := by
  induction h with
  | node | timer => exact ⟨[], (append_nil _).symm, by simp⟩
  | store bytes h =>
    rw [storeRecord_ledger]
    exact ⟨_, rfl, by simpa using h⟩
  | drop s start made =>
    rw [dropNodeBeats_stored]
    exact ⟨[], (append_nil _).symm, by simp⟩
  | trans _ _ ih₁ ih₂ =>
    obtain ⟨new₁, h₁, hi₁⟩ := ih₁
    obtain ⟨new₂, h₂, hi₂⟩ := ih₂
    refine ⟨new₁ ++ new₂, by rw [h₂, h₁, append_assoc], fun v hv => ?_⟩
    exact (mem_append.mp hv).elim (hi₁ v) (hi₂ v)

/-- The newest value delivered to a member, and whether it came again after a break. -/
abbrev Newest (V : Type*) := Option (Value V × Bool)

/-- The member stands for its newest value. -/
structure StandsFor (index : NodeIndex) (config : Thresholds) (newest : Newest V) (node : Node V Id)
    (records : List (DataValue V)) : Prop where
  kept : Group.Kept index config node.voice records
  delivered : node.delivered.isSome = true → node.stored.isSome = true
  speaks : ∀ value again, newest = some (value, again) → node.voice.Speaks env value again

/-- The calls that deliver values, or end or break what they wait for. -/
def Op.delivers : Op V Id → Bool
  | .enqueue .. | .expire .. | .disconnected .. | .connected => true
  | _ => false

namespace Group

variable {index : NodeIndex} {config : Thresholds} {newest newest' : Newest V} {g : Group V Id}

/-- The member of the group stands for its newest value. -/
def Stands (index : NodeIndex) (config : Thresholds) (newest : Newest V) (g : Group V Id) : Prop :=
  ∃ node, g.nodes.find? index = some node ∧ StandsFor env index config newest node g.ledger.stored

/-- The newest value after a call. -/
def newestAfter (index : NodeIndex) (g : Group V Id) (newest : Newest V) : Op V Id → Newest V
  | .enqueue i value now =>
    if i = index ∧ g.stopped = false then
      (g.nodes.find? index).map fun node => (stamp env value now, g.again node (stamp env value now))
    else newest
  | _ => newest

/-- A group through calls, with the newest value its member was delivered. -/
def heard [DecidableEq Id] (index : NodeIndex) : Group V Id × Newest V → List (Op V Id) → Group V Id × Newest V :=
  List.foldl fun s op => ((s.1.perform env op).1, newestAfter env index s.1 s.2 op)

variable {env}

theorem lastOf_append {records new : List (DataValue V)} {i : NodeIndex} (hne : i ≠ index)
    (h : ∀ v ∈ new, v.index = i) : lastOf index (records ++ new) = lastOf index records := by
  have hnew : new.filter (fun v => v.index = index) = [] :=
    filter_eq_nil_iff.mpr fun v hv => by simpa [h v hv] using hne
  rw [lastOf, filter_append, hnew, append_nil]
  rfl

variable {f : Held V Id → Held V Id}

theorem Stands.onMember_other {i : NodeIndex}
    (hf : ∀ s, Collecting env K i s (f s))
    (hne : i ≠ index) (effects : Effects V) (h : g.Stands env index config newest) :
    (onMember i f g effects).1.Stands env index config newest := by
  obtain ⟨node, hnode, hs⟩ := h
  simp only [onMember]
  split
  · exact ⟨node, hnode, hs⟩
  · rename_i other hother
    obtain ⟨new, hstored, hnew⟩ := (hf (other, g, effects)).stored
    refine ⟨node, ?_, ⟨hs.kept.config, hs.kept.blank, ?_⟩, hs.delivered, hs.speaks⟩
    · rw [OrdMap.find?_insert_of_ne _ _ (Ne.symm hne), (hf (other, g, effects)).nodes_gone.1]
      exact hnode
    · intro hmarked
      rw [hstored, lastOf_append hne hnew]
      exact hs.kept.marked hmarked

theorem Stands.onMember_own (effects : Effects V)
    (hf : ∀ node, g.nodes.find? index = some node → StandsFor env index config newest node g.ledger.stored →
      StandsFor env index config newest' (f (node, g, effects)).1 (f (node, g, effects)).2.1.ledger.stored)
    (h : g.Stands env index config newest) : (onMember index f g effects).1.Stands env index config newest' := by
  obtain ⟨node, hnode, hs⟩ := h
  simp only [onMember, hnode]
  exact ⟨_, OrdMap.find?_insert_self .., hf node hnode hs⟩

theorem StandsFor.settle (now : TimePoint) {s : Held V Id}
    (h : StandsFor env index config newest s.1 s.2.1.ledger.stored) :
    StandsFor env index config newest (settle env index now s).1 (settle env index now s).2.1.ledger.stored := by
  obtain ⟨hkept, hpending, hstored, hcovers⟩ := settle_covers env now h.kept
  refine ⟨hkept, ?_, ?_⟩
  · rw [show (Group.settle env index now s).1.delivered = s.1.delivered from
      congrArg Gap.delivered (settle_collecting env index now s).gap]
    exact fun hd => hstored (h.delivered hd)
  · intro value again hnewest
    have hnone : (Group.settle env index now s).1.voice.pending = none := hpending
    rw [Voice.Speaks, hnone]
    exact hcovers value again (h.speaks value again hnewest)

theorem StandsFor.disconnectNode (at_ now : TimePoint) {s : Held V Id}
    (h : StandsFor env index config newest s.1 s.2.1.ledger.stored) :
    StandsFor env index config newest (disconnectNode env at_ now index s).1
      (disconnectNode env at_ now index s).2.1.ledger.stored := by
  have hs := StandsFor.settle now h
  simp only [Group.disconnectNode]
  generalize Group.settle env index now s = s₁ at hs ⊢
  split_ifs
  · exact hs
  · obtain ⟨_, _, _, _, _, _, _, _, hdrop⟩ :=
      dropNodeBeats_eq env index (ticks at_) true (Node.breaks s₁.1 at_, s₁.2)
    rw [hdrop]
    exact { hs with }
  · exact { hs with }

variable (h : g.Stands env index config newest)
include h

theorem Stands.enqueue (i : NodeIndex) (value : Value V) (now : TimePoint) :
    (g.enqueue env i value now).1.Stands env index config
      (newestAfter env index g newest (.enqueue i value now)) := by
  cases hstopped : g.stopped with
  | true => simpa [Group.enqueue, newestAfter, hstopped] using h
  | false =>
    simp only [Group.enqueue, newestAfter, hstopped, Bool.false_eq_true, if_false, and_true]
    split_ifs with hown
    · subst hown
      refine h.onMember_own {} fun node hnode hs => ?_
      have hd : Delivers env i config (arrivalOf env value now).data (g.again node (arrivalOf env value now).data)
          (collect env i (arrivalOf env value now) now (node, g, {})) := collect_delivers env hs.kept hs.delivered
      refine ⟨hd.kept, fun _ => hd.stored, fun v again hv => ?_⟩
      rw [hnode, map_some] at hv
      obtain ⟨rfl, rfl⟩ := Prod.mk.inj (Option.some.inj hv)
      exact hd.speaks
    · exact h.onMember_other (collect_collecting env i (arrivalOf env value now) now) hown {}

theorem Stands.expire (i : NodeIndex) (serial : ℕ) (now : TimePoint) :
    (g.expire env i serial now).1.Stands env index config newest := by
  simp only [Group.expire]
  split
  · exact h
  · split_ifs
    · exact h
    · by_cases hi : i = index
      · subst hi
        exact h.onMember_own {} fun node _ hs => StandsFor.settle now hs
      · exact h.onMember_other (settle_collecting env i now) hi {}

theorem Stands.disconnected (at_ now : TimePoint) :
    (g.disconnected env at_ now).1.Stands env index config newest := by
  refine List.foldlRecOn (motive := fun p : Group V Id × Effects V => p.1.Stands env index config newest) _ _ h ?_
  intro p hp i _
  by_cases hi : i = index
  · subst hi
    exact hp.onMember_own p.2 fun node _ hs => StandsFor.disconnectNode at_ now hs
  · exact hp.onMember_other (disconnectNode_collecting env i at_ now) hi p.2

variable [DecidableEq Id]

theorem Stands.perform {op : Op V Id} (hop : op.delivers = true) :
    (g.perform env op).1.Stands env index config (newestAfter env index g newest op) := by
  cases op with
  | enqueue i value now => exact h.enqueue i value now
  | expire i serial now => exact h.expire i serial now
  | disconnected at_ now => exact h.disconnected at_ now
  | connected => exact h
  | _ => cases hop

omit h

theorem Stands.heard {ops : List (Op V Id)} (hops : ∀ op ∈ ops, op.delivers = true)
    (h : g.Stands env index config newest) :
    (heard env index (g, newest) ops).1.Stands env index config (heard env index (g, newest) ops).2 := by
  induction ops generalizing g newest with
  | nil => exact h
  | cons op ops ih =>
    obtain ⟨hop, hops⟩ := forall_mem_cons.mp hops
    exact ih hops (h.perform hop)

/-- After any values, ends of intervals, breaks and returns of the connection a member's newest value is pending, is the
stored one, or was left out against the stored one; but where the member's newest record is a break's marker. -/
theorem stored_speaks {id : Id} {broke : Option TimePoint} {ops : List (Op V Id)}
    (hnode : g.nodes.find? index = some { id := id, config := config, broke := broke })
    (hops : ∀ op ∈ ops, op.delivers = true) :
    ∃ node, (heard env index (g, none) ops).1.nodes.find? index = some node ∧ node.config = config ∧
      ∀ value again, (heard env index (g, none) ops).2 = some (value, again) →
        (∃ pending, node.pending = some pending ∧ pending.data = value) ∨
        node.stored = some value ∨
        (∃ stored, node.stored = some stored ∧
          (env.passes config stored value = false ∨ again = true ∧ env.repeats stored value = true)) ∨
        ∃ ended at_, lastOf index (heard env index (g, none) ops).1.ledger.stored =
          some (markerAt index ended at_) := by
  have hstart : g.Stands env index config none := by
    refine ⟨_, hnode, ⟨rfl, fun _ => ⟨rfl, rfl⟩, by simp [Node.voice]⟩, by simp, by simp⟩
  obtain ⟨node, hfind, hs⟩ := hstart.heard hops
  have hconfig : node.config = config := hs.kept.config
  refine ⟨node, hfind, hconfig, fun value again hnewest => ?_⟩
  have hspeaks := hs.speaks value again hnewest
  cases hp : node.pending with
  | some pending =>
    have hp' : node.voice.pending = some pending := hp
    rw [Voice.Speaks, hp'] at hspeaks
    exact .inl ⟨pending, rfl, hspeaks⟩
  | none =>
    have hp' : node.voice.pending = none := hp
    rw [Voice.Speaks, hp'] at hspeaks
    rcases hspeaks with hstored | hmarked | ⟨stored, hstored, hleft⟩
    · exact .inr (.inl hstored)
    · exact .inr (.inr (.inr (hs.kept.marked hmarked)))
    · refine .inr (.inr (.inl ⟨stored, hstored, ?_⟩))
      rw [← hconfig]
      exact hleft

/-- A value, and the same again after a break: it repeats the stored one. -/
def repeatedOnce : List (Op ℕ ℕ) :=
  [.enqueue 1 { value := some 5, sourceTimestamp := some 10 } 1, .disconnected 3000 3000, .connected,
    .enqueue 1 { value := some 5, sourceTimestamp := some 10, serverTimestamp := some 1 } 5000]

theorem repeatedOnce_speaks : ∃ node,
    (heard plainHost 1 (oneMember.group, none) repeatedOnce).1.nodes.find? 1 = some node ∧
    node.config = {} ∧ ∀ value again, (heard plainHost 1 (oneMember.group, none) repeatedOnce).2 = some (value, again) →
      (∃ pending, node.pending = some pending ∧ pending.data = value) ∨ node.stored = some value ∨
      (∃ stored, node.stored = some stored ∧
        (plainHost.passes {} stored value = false ∨ again = true ∧ plainHost.repeats stored value = true)) ∨
      ∃ ended at_, lastOf 1 (heard plainHost 1 (oneMember.group, none) repeatedOnce).1.ledger.stored =
        some (markerAt 1 ended at_) :=
  stored_speaks rfl (by decide)

end Group

end OpcHub.Historian
