import OpcHub.Historian.Gaps

/-! A value against its node's break. After any calls a member's break is the
first of its history since its last value. A value that finds a break other than
the connection's is judged against it: it stores nothing, a marker and itself, or
a marker alone. Any other takes the ordinary test. Either way the connection's
break is what it leaves. A break found while the connection is down and not its own
should be an older one: it is, unless a member added meanwhile was given another. -/

namespace OpcHub.Historian

open Lib List

variable {V Id : Type*} (env : Env V Id)

/-- A break's `Bad_DataLost` at `at_`, found by `value`. -/
def markerAt (index : NodeIndex) (value : Value V) (at_ : Ticks) : DataValue V :=
  { index, data := marker value (some at_) }

/-- The record of a value that came from the node. -/
structure RecordOf (index : NodeIndex) (arrival : Arrival V) (v : DataValue V) : Prop where
  index : v.index = index
  data : v.data = arrival.data
  heartbeat : v.heartbeat = none

/-- What the node's pending value stores as it settles. -/
inductive Settles (index : NodeIndex) : Option (Arrival V) → List (DataValue V) → Prop where
  | nothing (pending : Option (Arrival V)) : Settles index pending []
  | stored {pending : Arrival V} {v : DataValue V} (h : RecordOf index pending v) : Settles index (some pending) [v]

/-- What a value judged against a break stores, `last` being the source time of the last one delivered and `s`
the member with its pending value settled. -/
inductive Judged (index : NodeIndex) (arrival : Arrival V) (broke : TimePoint) (last : Option Ticks)
    (s : Held V Id) : List (DataValue V) → Prop where
  | nothing (hlast : last.isSome = true) (hsource : arrival.data.sourceTimestamp = last)
      (hagrees : s.1.agrees env arrival.data = true) : Judged index arrival broke last s []
  | earlier (hearlier : isEarlier arrival.data.sourceTimestamp last = true) :
      Judged index arrival broke last s [markerAt index arrival.data (max (ticks broke) s.1.recordTs)]
  | later {at_ : Ticks} {v : DataValue V}
      (hdiffers : ¬ (last.isSome = true ∧ arrival.data.sourceTimestamp = last ∧ s.1.agrees env arrival.data = true))
      (hlater : isEarlier arrival.data.sourceTimestamp last = false)
      (hat : at_ = min (max (ticks broke)
        (Group.dropNodeBeats env index arrival.data.primaryTime false s).1.recordTs) arrival.data.primaryTime)
      (hfiles : RecordOf index arrival v) :
      Judged index arrival broke last s [markerAt index arrival.data at_, v]

/-- What a value that takes the ordinary test stores, `s` being the member as the test finds it. -/
inductive Tested (index : NodeIndex) (arrival : Arrival V) (s : Held V Id) : List (DataValue V) → Prop where
  | dropped (h : s.1.passes env arrival.data = false) : Tested index arrival s []
  | pending (h : s.1.pending.isSome = true ∨ Group.within s.1 arrival.data.primaryTime = true) :
      Tested index arrival s []
  | stored {v : DataValue V} (hpasses : s.1.passes env arrival.data = true) (hnone : s.1.pending = none)
      (hwithin : Group.within s.1 arrival.data.primaryTime = false) (hfiles : RecordOf index arrival v) :
      Tested index arrival s [v]

namespace Group

variable (index : NodeIndex)

/-! ### What is stored -/

theorem armNode_ledger (now : TimePoint) (s : Held V Id) : (armNode index now s).2.1.ledger = s.2.1.ledger := by
  obtain ⟨_, _, _, _, _, h⟩ := armNode_eq index now s
  rw [h]

variable (arrival : Arrival V)

theorem storeValue_stored (now : TimePoint) (s : Held V Id) : ∃ v, RecordOf index arrival v ∧
      (storeValue env index arrival now s).2.1.ledger.stored = s.2.1.ledger.stored ++ [v] := by
  obtain ⟨node, g, effects⟩ := s
  refine ⟨{ index, data := arrival.data, unsupported := node.warns arrival }, ⟨rfl, rfl, rfl⟩, ?_⟩
  rw [storeValue, armNode_ledger, storeRecord_ledger]

theorem mark_stored (at_ : Ticks) (ended : Value V) (now : TimePoint) (s : Held V Id) :
    (mark env index at_ ended now s).2.1.ledger.stored = s.2.1.ledger.stored ++ [markerAt index ended at_] := by
  rw [mark, storeRecord_ledger]
  rfl

theorem settle_stored (now : TimePoint) (s : Held V Id) : ∃ pre, Settles index s.1.pending pre ∧
      (settle env index now s).2.1.ledger.stored = s.2.1.ledger.stored ++ pre := by
  obtain ⟨node, g, effects⟩ := s
  simp only [settle]
  split
  · rename_i hpending
    exact ⟨[], .nothing _, (append_nil _).symm⟩
  · rename_i pending hpending
    split_ifs
    · obtain ⟨v, hv, hstored⟩ := storeValue_stored env index pending now
        ({ node with pending := none, serial := node.serial + 1 }, g, effects)
      exact ⟨[v], hpending ▸ .stored hv, hstored⟩
    · refine ⟨[], .nothing _, ?_⟩
      rw [armNode_ledger, append_nil]

theorem dropNodeBeats_stored (start : Ticks) (made : Bool) (s : Held V Id) :
    (dropNodeBeats env index start made s).2.1.ledger.stored = s.2.1.ledger.stored := by
  obtain ⟨_, _, _, _, _, _, _, _, h⟩ := dropNodeBeats_eq env index start made s
  rw [h]

theorem collectAfterBreak_stored (now broke : TimePoint) (last : Option Ticks)
    (s : Held V Id) : ∃ out, Judged env index arrival broke last (settle env index now s) out ∧
      (collectAfterBreak env index arrival now broke last s).2.1.ledger.stored =
        (settle env index now s).2.1.ledger.stored ++ out := by
  simp only [collectAfterBreak]
  generalize settle env index now s = s₁
  split_ifs with hequal hearlier
  · simp only [Bool.and_eq_true, beq_iff_eq] at hequal
    obtain ⟨⟨hsome, hsource⟩, hagrees⟩ := hequal
    refine ⟨[], .nothing (hsource ▸ hsome) hsource hagrees, ?_⟩
    rw [armNode_ledger, append_nil]
  · exact ⟨_, .earlier hearlier, mark_stored env index _ _ now s₁⟩
  · have hdrop := dropNodeBeats_stored env index arrival.data.primaryTime false s₁
    obtain ⟨v, hv, hstored⟩ := storeValue_stored env index arrival now (mark env index
      (min (max (ticks broke) (dropNodeBeats env index arrival.data.primaryTime false s₁).1.recordTs)
        arrival.data.primaryTime) arrival.data now (dropNodeBeats env index arrival.data.primaryTime false s₁))
    refine ⟨_, .later ?_ (by simpa using hearlier) rfl hv, ?_⟩
    · rintro ⟨hsome, hsource, hagrees⟩
      exact hequal (by simp [hsource, hsome, hagrees])
    · rw [hstored, mark_stored, hdrop, append_assoc, singleton_append]

theorem dropNodeBeats_pending (start : Ticks) (made : Bool) (s : Held V Id) (time : Ticks) :
    (dropNodeBeats env index start made s).1.pending = s.1.pending ∧
      within (dropNodeBeats env index start made s).1 time = within s.1 time := by
  obtain ⟨_, _, _, _, _, _, _, _, h⟩ := dropNodeBeats_eq env index start made s
  rw [h]
  exact ⟨rfl, rfl⟩

theorem collectPassing_stored (now : TimePoint) (s : Held V Id) : ∃ out, Tested env index arrival s out ∧
      (collectPassing env index arrival now s).2.1.ledger.stored = s.2.1.ledger.stored ++ out := by
  simp only [collectPassing]
  by_cases hpasses : s.1.passes env arrival.data = true
  · have hdrop := dropNodeBeats_stored env index arrival.data.primaryTime false s
    obtain ⟨hpending, hwithin⟩ := dropNodeBeats_pending env index arrival.data.primaryTime false s
      arrival.data.primaryTime
    simp only [hpasses, if_true, Bool.not_true, Bool.false_eq_true, if_false]
    generalize dropNodeBeats env index arrival.data.primaryTime false s = s₁ at hdrop hpending hwithin ⊢
    rw [← hdrop]
    split_ifs with hheld hnow
    · exact ⟨[], .pending (.inl (hpending ▸ hheld)), (append_nil _).symm⟩
    · obtain ⟨v, hv, hstored⟩ := storeValue_stored env index arrival now s₁
      refine ⟨[v], .stored hpasses ?_ ?_ hv, hstored⟩
      · exact hpending ▸ Option.not_isSome_iff_eq_none.mp hheld
      · rw [← hwithin]
        simpa using hnow
    · refine ⟨[], .pending (.inr ?_), (append_nil _).symm⟩
      rw [← hwithin]
      simpa using hnow
  · simp only [hpasses, Bool.false_eq_true, if_false, Bool.not_false, if_true]
    refine ⟨[], .dropped (by simpa using hpasses), ?_⟩
    split_ifs <;> exact (append_nil _).symm

theorem beforeTest_stored (now : TimePoint) (joined : Bool) (s : Held V Id) : ∃ pre, Settles index s.1.pending pre ∧
      (beforeTest env index arrival now joined s).2.1.ledger.stored = s.2.1.ledger.stored ++ pre := by
  obtain ⟨offset, h | h⟩ := beforeTest_cases env index arrival now joined s
  · rw [h]
    exact settle_stored env index now ({ s.1 with offset := offset }, s.2)
  · rw [h]
    exact ⟨[], .nothing _, (append_nil _).symm⟩

variable {index}

/-- What a member's value does: `last` is the source time of the last it delivered. -/
structure Answered (g : Group V Id) (index : NodeIndex) (node : Node V Id) (last : Option Ticks) (value : Value V)
    (now : TimePoint) : Prop where
  /-- The connection's break is left, and none once the connection is back. -/
  leaves : (g.enqueue env index value now).1.findBreak index = g.down
  judged : ∀ broke, g.findBreak index = some broke → g.down ≠ some broke →
    ∃ pre out, Settles index node.pending pre ∧
      Judged env index (arrivalOf env value now) broke last
        (settle env index now (g.receives node (stamp env value now).sourceTimestamp, g, {})) out ∧
      (g.enqueue env index value now).1.ledger.stored = g.ledger.stored ++ pre ++ out
  tested : g.findBreak index = none ∨ g.findBreak index = g.down →
    ∃ pre out, Settles index node.pending pre ∧
      Tested env index (arrivalOf env value now) (beforeTest env index (arrivalOf env value now) now node.joined
        (g.receives node (stamp env value now).sourceTimestamp, g, {})) out ∧
      (g.enqueue env index value now).1.ledger.stored = g.ledger.stored ++ pre ++ out

variable {g : Group V Id} {node : Node V Id}

variable (hnode : g.nodes.find? index = some node)
include hnode

theorem enqueue_eq
    (hstopped : g.stopped = false) (value : Value V) (now : TimePoint) :
    (g.enqueue env index value now).1.ledger =
      (collect env index (arrivalOf env value now) now (node, g, {})).2.1.ledger := by
  simp only [enqueue, hstopped, Bool.false_eq_true, if_false, onMember, hnode]

theorem enqueue_findBreak
    (hstopped : g.stopped = false) (value : Value V) (now : TimePoint) :
    (g.enqueue env index value now).1.findBreak index = g.down := by
  have hgap := collect_gap env index (arrivalOf env value now) now (node, g, {})
  simp only [enqueue, hstopped, Bool.false_eq_true, if_false, onMember, hnode, findBreak, OrdMap.find?_insert_self,
    Option.bind_some]
  exact congrArg Gap.broke hgap

theorem answered
    (hstopped : g.stopped = false) (value : Value V) (now : TimePoint) :
    Answered env g index node node.delivered value now := by
  have hbreak : g.findBreak index = node.broke := by rw [findBreak, hnode, Option.bind_some]
  refine ⟨enqueue_findBreak env hnode hstopped value now, fun broke hbroke hdown => ?_, fun hordinary => ?_⟩
  · rw [hbreak] at hbroke
    rw [enqueue_eq env hnode hstopped]
    obtain ⟨pre, hpre, hsettled⟩ := settle_stored env index now
      (g.receives node (stamp env value now).sourceTimestamp, g, {})
    obtain ⟨out, hout, hstored⟩ := collectAfterBreak_stored env index (arrivalOf env value now) now broke
      node.delivered (g.receives node (stamp env value now).sourceTimestamp, g, {})
    refine ⟨pre, out, hpre, hout, ?_⟩
    rw [hsettled] at hstored
    simp only [collect, hbroke, if_neg hdown]
    exact hstored
  · rw [hbreak] at hordinary
    rw [enqueue_eq env hnode hstopped]
    have hcollect : collect env index (arrivalOf env value now) now (node, g, {}) =
        collectOrdinary env index (arrivalOf env value now) now node.joined
          (g.receives node (stamp env value now).sourceTimestamp, g, {}) := by
      simp only [collect]
      split
      · rename_i at_ hat
        rw [if_pos]
        · rfl
        · rcases hordinary with hnone | hdown
          · rw [hat] at hnone
            cases hnone
          · rw [← hdown, hat]
      · rfl
    obtain ⟨pre, hpre, hsettled⟩ := beforeTest_stored env index (arrivalOf env value now) now node.joined
      (g.receives node (stamp env value now).sourceTimestamp, g, {})
    obtain ⟨out, hout, hstored⟩ := collectPassing_stored env index (arrivalOf env value now) now
      (beforeTest env index (arrivalOf env value now) now node.joined
        (g.receives node (stamp env value now).sourceTimestamp, g, {}))
    refine ⟨pre, out, hpre, hout, ?_⟩
    rw [hsettled] at hstored
    rw [hcollect, collectOrdinary_eq]
    exact hstored

variable [DecidableEq Id]

omit hnode

/-! ### While the connection is down -/

/-- A call while the connection is down that gives no break to a member that has none. -/
def Amid (g : Group V Id) : Op V Id → Prop
  | .connected => False
  | .disconnected _ _ => ∀ e ∈ g.nodes.entries, e.2.broke.isSome
  | .remove index _ _ => ∀ node ∈ g.nodes.find? index, node.broke.isSome
  | _ => True

/-- A condition on each of some calls, in the state it is made in. -/
def EachCall (q : Group V Id → Op V Id → Prop) : Group V Id → List (Op V Id) → Prop
  | _, [] => True
  | g, op :: ops => q g op ∧ EachCall q (g.perform env op).1 ops

variable {log : Id → List Incident} {at_ : TimePoint}

omit [DecidableEq Id] in
/-- The time of the connection's first loss stands. -/
theorem disconnected_down (t now : TimePoint) : (g.disconnected env t now).1.down = (g.down <|> some t) :=
  congrArg Feed.down (onMembers_feed env (fun index => disconnectNode_collecting env index t now)
    { g with down := g.down <|> some t } {})

theorem add_down (node : Id) (config : Thresholds) (index : NodeIndex) (by_ : Option Writer) (now : TimePoint) :
    (g.perform env (.add node config index by_ now)).1.down = g.down := by
  have hinsert : (g.insert node config index).2.down = g.down := by
    simp only [insert, remember]
    split_ifs <;> rfl
  simp only [perform, add]
  split_ifs
  · rfl
  · split
    · rename_i g' h
      rwa [h] at hinsert
    · rename_i i g' h
      rw [h] at hinsert
      exact (congrArg Feed.down (undisturbed_pushChange env g' _ _ {}).feed).trans hinsert

theorem remove_down (index : NodeIndex) (by_ : Option Writer) (now : TimePoint) :
    (g.perform env (.remove index by_ now)).1.down = g.down := by
  simp only [perform, remove]
  split
  · rfl
  · rename_i node hnode
    split_ifs
    · rfl
    · have hsettle := (settle_collecting env index now (node, g, {})).feed
      exact (congrArg Feed.down (undisturbed_pushChange env _ _ _ _).feed).trans (congrArg Feed.down hsettle)

theorem close_down (by_ : Option Writer) (now : TimePoint) : (g.perform env (.close by_ now)).1.down = g.down := by
  have hclose : ∀ index s, (closeNode env by_ now index s).2.1.down = s.2.1.down :=
    fun index s => congrArg Feed.down (settle_collecting env index now s).feed
  refine List.foldlRecOn (motive := fun p : Group V Id × Effects V => p.1.down = g.down) _ _ rfl ?_
  intro p hp index _
  simp only [onMember]
  split
  · exact hp
  · exact (hclose index _).trans hp

theorem perform_down (hdown : g.down = some at_) {op : Op V Id} (hop : op ≠ .connected) :
    (g.perform env op).1.down = some at_ := by
  have hfeed : ∀ {g' : Group V Id}, g'.feed = g.feed → g'.down = some at_ :=
    fun h => (congrArg Feed.down h).trans hdown
  cases op with
  | enqueue index value now =>
    refine hfeed ?_
    simp only [perform, enqueue]
    split_ifs
    · rfl
    · exact onMember_feed env (collect_collecting env index (arrivalOf env value now) now) g {}
  | expire index serial now =>
    exact hfeed (undisturbed_of_working (expire_working env (settle_collecting env index now) g serial)).feed
  | beat serial now => exact hfeed (undisturbed_beat env g serial now).feed
  | disconnected t now => exact (disconnected_down env t now).trans (by simp [hdown])
  | connected => exact absurd rfl hop
  | setPublishingInterval interval => exact hdown
  | setThresholds index thresholds now =>
    exact hfeed (undisturbed_of_working (.member (setNodeThresholds_collecting env index thresholds now) (g, {}))).feed
  | add node config index by_ now => exact (add_down env node config index by_ now).trans hdown
  | remove index by_ now => exact (remove_down env index by_ now).trans hdown
  | close by_ now => exact (close_down env by_ now).trans hdown
  | stopping now =>
    exact (congrArg Feed.down (undisturbed_of_working
      (onMembers_working (fun index => settle_collecting env index now) { g with stopped := true } {})).feed).trans hdown

/-- A break after one that stands changes nothing. -/
theorem standing_broke_of_isSome {l : List Incident} (h : (standing l).isSome) (t : TimePoint) :
    standing (l ++ [.broke t]) = standing l := by
  obtain ⟨b, hb⟩ := Option.isSome_iff_exists.mp h
  rw [standing_broke, hb]
  rfl

/-- The breaks that stand are those that stood when the connection was lost, and the connection's. -/
theorem chronicle_amid (h : g.Chronicled log) (hdown : g.down = some at_) {op : Op V Id} (hop : g.Amid op) (x : Id) :
    standing (g.chronicle env log op x) = standing (log x) ∨ standing (g.chronicle env log op x) = some at_ := by
  have hmember : ∀ {i : NodeIndex} {node : Node V Id}, g.nodes.find? i = some node → node.broke.isSome →
      (standing (log node.id)).isSome := by
    intro i node hnode hbroke
    have hgap : g.gaps i = some node.gap := by simp only [gaps, hnode, Option.map_some]
    have hstands : node.broke = _ := (h.member hgap).1
    exact hstands ▸ hbroke
  cases op with
  | enqueue index value now =>
    simp only [chronicle]
    split_ifs
    · exact .inr ((standing_delivered _ _ g.down).trans hdown)
    · exact .inl rfl
  | disconnected t now =>
    simp only [chronicle]
    split_ifs with hx
    · obtain ⟨i, a, ha, rfl⟩ := indexOf_isSome.mp hx
      obtain ⟨node, hnode, rfl⟩ := Option.map_eq_some_iff.mp ha
      exact .inl (standing_broke_of_isSome (hmember hnode (hop _ (OrdMap.mem_entries_iff.mpr hnode))) t)
    · exact .inl rfl
  | remove index by_ now =>
    simp only [chronicle]
    split_ifs with hx
    · simp only [Bool.and_eq_true, Option.any_eq_true, decide_eq_true_eq] at hx
      obtain ⟨-, node, hnode, rfl⟩ := hx
      exact .inl (standing_broke_of_isSome (hmember hnode (hop node hnode)) now)
    · exact .inl rfl
  | add node config index by_ now =>
    simp only [chronicle]
    split_ifs
    · exact .inl (standing_joined _)
    · exact .inl rfl
  | _ => exact .inl rfl

theorem through_amid (h : g.Chronicled log) (hdown : g.down = some at_) {ops : List (Op V Id)}
    (hops : g.EachCall env Amid ops) : (g.through env log ops).1.down = some at_ ∧
      ∀ x, standing ((g.through env log ops).2 x) = standing (log x) ∨
        standing ((g.through env log ops).2 x) = some at_ := by
  induction ops generalizing g log with
  | nil => exact ⟨hdown, fun x => .inl rfl⟩
  | cons op ops ih =>
    obtain ⟨hop, hrest⟩ := hops
    have hne : op ≠ .connected := by
      rintro rfl
      exact hop
    obtain ⟨hafter, hstands⟩ := ih (h.perform env op) (perform_down env hdown hne) hrest
    refine ⟨hafter, fun x => ?_⟩
    rcases hstands x with hsame | hat
    · rcases chronicle_amid env h hdown hop x with hone | hone
      · exact .inl (hsame.trans hone)
      · exact .inr (hsame.trans hone)
    · exact .inr hat

/-- The histories when the connection is lost, and those since. -/
theorem through_loss (h : g.Chronicled log) (hup : g.down = none) (now : TimePoint) {ops : List (Op V Id)}
    (hops : (g.disconnected env at_ now).1.EachCall env Amid ops) :
    (g.through env log (.disconnected at_ now :: ops)).1.down = some at_ ∧
      ∀ x broke, standing ((g.through env log (.disconnected at_ now :: ops)).2 x) = some broke → broke ≠ at_ →
        standing (log x) = some broke := by
  have hdown : (g.disconnected env at_ now).1.down = some at_ := (disconnected_down env at_ now).trans (by simp [hup])
  obtain ⟨hafter, hstands⟩ := through_amid env (h.disconnected env at_ now) hdown hops
  refine ⟨hafter, fun x broke hbroke hne => ?_⟩
  have hthen : standing (g.chronicle env log (.disconnected at_ now) x) = some broke := by
    rcases hstands x with hsame | hat
    · exact hsame.symm.trans hbroke
    · exact absurd (Option.some.inj (hbroke.symm.trans hat)) hne
  simp only [chronicle] at hthen
  split_ifs at hthen
  · rw [standing_broke] at hthen
    cases hlog : standing (log x) with
    | none =>
      rw [hlog] at hthen
      exact absurd (Option.some.inj hthen).symm hne
    | some b =>
      rw [hlog] at hthen
      exact hthen
  · exact hthen

/-- After any calls, a member's break is the first of its history since its last value, and a value it then
delivers is judged against that break or takes the ordinary test. While the connection is down, a break other than
its own is one that stood when it was lost, if no call since gave a break to a member that had none. -/
theorem break_judged {g : Group V Id} {log : Id → List Incident} (h : g.Chronicled log) (ops : List (Op V Id))
    {node : Node V Id} (hnode : (g.through env log ops).1.nodes.find? index = some node) :
    (g.through env log ops).1.findBreak index = standing ((g.through env log ops).2 node.id) ∧
      ((g.through env log ops).1.stopped = false → ∀ value now,
        Answered env (g.through env log ops).1 index node (lastSource ((g.through env log ops).2 node.id))
          value now) ∧
      ∀ before at_ now since, ops = before ++ .disconnected at_ now :: since →
        (g.through env log before).1.down = none →
        ((g.through env log before).1.disconnected env at_ now).1.EachCall env Amid since →
        (g.through env log ops).1.down = some at_ ∧
          ∀ broke, (g.through env log ops).1.findBreak index = some broke → broke ≠ at_ →
            standing ((g.through env log before).2 node.id) = some broke := by
  have hchronicled := h.through env ops
  have hgap : (g.through env log ops).1.gaps index = some node.gap := by simp only [gaps, hnode, Option.map_some]
  obtain ⟨hbroke, hdelivered⟩ := hchronicled.member hgap
  have hbreak : (g.through env log ops).1.findBreak index = standing ((g.through env log ops).2 node.id) := by
    rw [findBreak, hnode, Option.bind_some]
    exact hbroke
  refine ⟨hbreak, fun hstopped value now => ?_, fun before at_ now since hops hup hsince => ?_⟩
  · have hanswered := answered env hnode hstopped value now
    rwa [show node.delivered = _ from hdelivered] at hanswered
  · have hsplit : g.through env log ops = (g.through env log before).1.through env (g.through env log before).2
        (.disconnected at_ now :: since) := by
      rw [hops]
      exact foldl_append ..
    obtain ⟨hdown, hstood⟩ := through_loss env (h.through env before) hup now hsince
    rw [hbreak, hsplit]
    exact ⟨hdown, fun broke => hstood node.id broke⟩

/-- A member with one value that left and came back, and two reports of one loss. -/
def brokenBefore : List (Op ℕ ℕ) :=
  [.add 7 {} 0 none 0, .enqueue 1 { value := some 5, sourceTimestamp := some 10 } 1, .remove 1 none 2000,
    .add 7 {} 0 none 2500]

/-- The value that arrives while the connection is down is judged against the removal, which stood before. -/
theorem brokenBefore_judged : ∃ node : Node ℕ ℕ,
    (({} : Group ℕ ℕ).through plainHost (fun _ => [])
      (brokenBefore ++ [.disconnected 3000 3000, .disconnected 3500 3500])).1.nodes.find? 2 = some node ∧
    (({} : Group ℕ ℕ).through plainHost (fun _ => [])
      (brokenBefore ++ [.disconnected 3000 3000, .disconnected 3500 3500])).1.findBreak 2 = some 2000 ∧
    Answered plainHost (({} : Group ℕ ℕ).through plainHost (fun _ => [])
        (brokenBefore ++ [.disconnected 3000 3000, .disconnected 3500 3500])).1 2 node none
      { value := some 6, sourceTimestamp := some 40 } 5000 ∧
    (({} : Group ℕ ℕ).through plainHost (fun _ => [])
      (brokenBefore ++ [.disconnected 3000 3000, .disconnected 3500 3500])).1.down = some 3000 ∧
    standing ((({} : Group ℕ ℕ).through plainHost (fun _ => []) brokenBefore).2 7) = some 2000 := by
  obtain ⟨node, hnode, hid⟩ : ∃ node, (({} : Group ℕ ℕ).through plainHost (fun _ => [])
      (brokenBefore ++ [.disconnected 3000 3000, .disconnected 3500 3500])).1.nodes.find? 2 = some node ∧ node.id = 7 :=
    Option.map_eq_some_iff.mp (by decide +kernel)
  obtain ⟨hbreak, hanswered, hloss⟩ := break_judged plainHost (chronicled_empty rfl rfl) _ hnode
  have hstanding : standing ((({} : Group ℕ ℕ).through plainHost (fun _ => [])
      (brokenBefore ++ [.disconnected 3000 3000, .disconnected 3500 3500])).2 7) = some 2000 := by
    decide +kernel
  have hlast : lastSource ((({} : Group ℕ ℕ).through plainHost (fun _ => [])
      (brokenBefore ++ [.disconnected 3000 3000, .disconnected 3500 3500])).2 7) = none := by
    decide +kernel
  obtain ⟨hdown, hstood⟩ := hloss brokenBefore 3000 3000 [.disconnected 3500 3500] rfl (by decide +kernel)
    ⟨by unfold Amid; decide +kernel, trivial⟩
  rw [hid] at hbreak hanswered hstood
  rw [hlast] at hanswered
  have hbroke := hbreak.trans hstanding
  exact ⟨node, hnode, hbroke, hanswered (by decide +kernel) _ _, hdown, hstood 2000 hbroke (by decide)⟩

/-- A member added while the connection is down, and a second report of the loss. -/
def reportedTwice : List (Op ℕ ℕ) := [.disconnected 3000 3000, .add 7 {} 0 none 4000, .disconnected 5000 5000]

/-- A value in flight is judged against the second report, with a marker, and the connection's break that it leaves
is judged by the next. -/
theorem reportedTwice_judged :
    (({} : Group ℕ ℕ).through plainHost (fun _ => []) reportedTwice).1.down = some 3000 ∧
    (({} : Group ℕ ℕ).through plainHost (fun _ => []) reportedTwice).1.findBreak 1 = some 5000 ∧
    (({} : Group ℕ ℕ).through plainHost (fun _ => []) (reportedTwice ++
        [.enqueue 1 { value := some 6, sourceTimestamp := some 40 } 6000, .connected,
          .enqueue 1 { value := some 7, sourceTimestamp := some 50 } 7000])).1.values.map
      (fun b => (b.item.data.status, b.item.data.value)) =
        [(some badDataLost, none), (none, some 6), (some badDataLost, none), (none, some 7)] := by
  decide +kernel

end Group

end OpcHub.Historian
