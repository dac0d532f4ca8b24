import OpcHub.Historian.Visible

/-! The breaks of a group's members over any calls. A node's history lists when it
joined, each break of it and each value it delivered; a value that arrives while
the connection is down was sent before it broke, so the connection's break follows
it there. A member's break is the first of its history since its last value, and
its next value is judged against that one and answers it, or takes the ordinary
test. -/

namespace OpcHub.Historian

open Lib OrdMap Option Historian.Group

/-- What a node's gaps depend on. -/
inductive Incident where
  | joined
  /-- The connection's loss as it was reported, or the node's removal. -/
  | broke (at_ : TimePoint)
  /-- A value, by its source time. -/
  | value (source : Option Ticks)
  deriving DecidableEq, Repr

namespace Incident

def isValue : Incident → Bool
  | value _ => true
  | _ => false

def isJoin : Incident → Bool
  | joined => true
  | _ => false

def break? : Incident → Option TimePoint
  | broke at_ => some at_
  | _ => none

def source? : Incident → Option (Option Ticks)
  | value source => some source
  | _ => none

end Incident

/-- The first break since the last value. -/
def standing (log : List Incident) : Option TimePoint :=
  (log.reverse.takeWhile fun x => !x.isValue).reverse.findSome? Incident.break?

/-- The source time of the last value since the node joined. -/
def lastSource (log : List Incident) : Option Ticks :=
  ((log.reverse.takeWhile fun x => !x.isJoin).findSome? Incident.source?).join

section Log

variable (log : List Incident)

@[simp] theorem standing_nil : standing [] = none := rfl

open Incident

@[simp] theorem standing_joined : standing (log ++ [.joined]) = standing log := by
  simp [standing, isValue, break?]

@[simp] theorem standing_broke (at_ : TimePoint) : standing (log ++ [.broke at_]) = (standing log <|> some at_) := by
  simp [standing, isValue, break?]

variable (source : Option Ticks)

@[simp] theorem standing_value : standing (log ++ [.value source]) = none := by
  simp [standing, isValue]

@[simp] theorem lastSource_joined : lastSource (log ++ [.joined]) = none := by
  simp [lastSource, isJoin]

@[simp] theorem lastSource_broke (at_ : TimePoint) : lastSource (log ++ [.broke at_]) = lastSource log := by
  simp [lastSource, isJoin, List.findSome?_cons, source?]

@[simp] theorem lastSource_value : lastSource (log ++ [.value source]) = source := by
  simp [lastSource, isJoin, List.findSome?_cons, source?]

theorem standing_delivered (down : Option TimePoint) :
    standing (log ++ [.value source] ++ down.toList.map .broke) = down := by
  cases down with
  | none => simp
  | some at_ =>
    rw [toList_some, List.map_singleton, standing_broke, standing_value]
    rfl

theorem lastSource_delivered (down : Option TimePoint) :
    lastSource (log ++ [.value source] ++ down.toList.map .broke) = source := by
  cases down with
  | none => simp
  | some at_ => rw [toList_some, List.map_singleton, lastSource_broke, lastSource_value]

end Log

variable {V Id : Type*}

/-- The connection breaks at `at_`; an earlier break stays. -/
def Gap.breaks (at_ : TimePoint) (gap : Gap Id) : Gap Id := { gap with broke := gap.broke <|> some at_ }

/-- What of a group a change made for one member leaves. -/
structure Feed (Id : Type*) where
  left : List (Id × TimePoint)
  down : Option TimePoint
  stopped : Bool
  closed : Bool

def Group.feed (g : Group V Id) : Feed Id := ⟨g.left, g.down, g.stopped, g.closed⟩

theorem Collecting.feed {env : Env V Id} {K : Node V Id → Node V Id → Prop} {index : NodeIndex} {s s' : Held V Id}
    (h : Collecting env K index s s') : s'.2.1.feed = s.2.1.feed := by
  induction h with
  | node | timer => rfl
  | store bytes h =>
    simp only [storeRecord, claimFlush]
    split_ifs <;> rfl
  | drop s start made =>
    obtain ⟨_, _, _, _, _, _, _, _, h⟩ := dropNodeBeats_eq env index start made s
    rw [h]
    rfl
  | trans _ _ ih₁ ih₂ => exact ih₂.trans ih₁

namespace Group

variable (env : Env V Id) (index : NodeIndex)

/-! ### The member beside the group -/

variable (arrival : Arrival V)

/-- The member as the ordinary test finds it: a pending value whose interval ended before this change, by the
source's clock, is settled. -/
def beforeTest (arrival : Arrival V) (now : TimePoint) (joined : Bool) (s : Held V Id) : Held V Id :=
  let s := if joined then s else (s.1.offsetBy arrival.data now, s.2)
  if s.1.pending.isSome && !within s.1 arrival.data.primaryTime then settle env index now s else s

variable (now : TimePoint)

theorem collectOrdinary_eq (joined : Bool) (s : Held V Id) :
    collectOrdinary env index arrival now joined s =
      collectPassing env index arrival now (beforeTest env index arrival now joined s) := by
  exact (apply_ite (collectPassing env index arrival now) _ _ _).symm

theorem beforeTest_cases (joined : Bool) (s : Held V Id) : ∃ offset,
    beforeTest env index arrival now joined s = settle env index now ({ s.1 with offset := offset }, s.2) ∨
      beforeTest env index arrival now joined s = ({ s.1 with offset := offset }, s.2) := by
  have hoffset : ∃ offset, (if joined then s else (s.1.offsetBy arrival.data now, s.2)) =
      ({ s.1 with offset := offset }, s.2) := by
    simp only [Node.offsetBy]
    split_ifs
    · exact ⟨_, rfl⟩
    · split <;> exact ⟨_, rfl⟩
  obtain ⟨offset, hoffset⟩ := hoffset
  refine ⟨offset, ?_⟩
  simp only [beforeTest, hoffset]
  split_ifs
  · exact .inl rfl
  · exact .inr rfl

/-- The member a value is collected for. -/
def receives (g : Group V Id) (node : Node V Id) (source : Option Ticks) : Node V Id :=
  { node with delivered := source, joined := false, broke := g.down }

theorem collect_gap (s : Held V Id) :
    (collect env index arrival now s).1.gap = ⟨s.1.id, s.2.1.down, arrival.data.sourceTimestamp⟩ := by
  simp only [collect]
  split
  · split_ifs
    · exact (collectOrdinary_collecting env index arrival now _ _).gap
    · exact (collectAfterBreak_collecting env index arrival now _ _ _).gap
  · exact (collectOrdinary_collecting env index arrival now _ _).gap

theorem disconnectNode_gap (at_ now : TimePoint) (s : Held V Id) :
    (disconnectNode env at_ now index s).1.gap = Gap.breaks at_ s.1.gap := by
  have hsettle := (settle_collecting env index now s).gap
  simp only [disconnectNode]
  generalize settle env index now s = s₁ at hsettle ⊢
  rw [← hsettle]
  cases hbroke : s₁.1.broke with
  | some _ => simp [Gap.breaks, Node.gap, hbroke]
  | none =>
    have hbreaks : (Node.breaks s₁.1 at_).gap = Gap.breaks at_ s₁.1.gap := by
      simp [Gap.breaks, Node.gap, Node.breaks, hbroke]
    simp only [isSome_none, Bool.false_eq_true, if_false]
    split_ifs
    · have hdrop : Collecting env SameGap index _ _ := .drop (Node.breaks s₁.1 at_, s₁.2) (ticks at_) true
      exact hdrop.gap.trans hbreaks
    · exact hbreaks

/-! ### The members in the group -/

variable {index}

/-- Each member's gap. -/
def gaps (g : Group V Id) (index : NodeIndex) : Option (Gap Id) := (g.nodes.find? index).map Node.gap

def findBreak (g : Group V Id) (index : NodeIndex) : Option TimePoint := (g.nodes.find? index).bind Node.broke

variable {f : Held V Id → Held V Id}

theorem onMember_gaps (hf : ∀ s, Collecting env SameId index s (f s)) (g : Group V Id) (effects : Effects V)
    (i : NodeIndex) : (onMember index f g effects).1.gaps i =
      if i = index then (g.nodes.find? i).map fun node => (f (node, g, effects)).1.gap else g.gaps i := by
  simp only [onMember]
  cases hnode : g.nodes.find? index with
  | none =>
    split_ifs with hi
    · simp [gaps, hi, hnode]
    · rfl
  | some node =>
    have hnodes : (f (node, g, effects)).2.1.nodes = g.nodes := (hf _).nodes_gone.1
    simp only [gaps, find?_insert, hnodes]
    split_ifs with hi
    · simp [hi, hnode]
    · rfl

theorem onMember_feed (hf : ∀ s, Collecting env SameId index s (f s)) (g : Group V Id) (effects : Effects V) :
    (onMember index f g effects).1.feed = g.feed := by
  simp only [onMember]
  split
  · rfl
  · exact (hf _).feed

variable {f : NodeIndex → Held V Id → Held V Id}

/-- Each member once: the indexes of a map's entries are different. -/
theorem onMembers_gaps (φ : Gap Id → Gap Id) (hf : ∀ index s, Collecting env SameId index s (f index s))
    (hgap : ∀ index s, (f index s).1.gap = φ s.1.gap) (g : Group V Id) (effects : Effects V) (i : NodeIndex) :
    (onMembers f g effects).1.gaps i = (g.gaps i).map φ := by
  have h : ∀ (indexes : List NodeIndex), indexes.Nodup → ∀ p : Group V Id × Effects V,
      (indexes.foldl (fun s index => onMember index (f index) s.1 s.2) p).1.gaps i =
        if i ∈ indexes then (p.1.gaps i).map φ else p.1.gaps i := by
    intro indexes hnodup
    induction hnodup with
    | nil => simp
    | @cons index indexes hindex _ ih =>
      intro p
      simp only [List.foldl_cons, ih, onMember_gaps env (hf index), hgap]
      by_cases hi : i = index
      · have hnot : index ∉ indexes := fun hmem => hindex index hmem rfl
        simp [hi, hnot, gaps, Function.comp_def]
      · simp [hi]
  have hnodup : g.nodes.keys.Nodup := (List.pairwise_map.mpr g.nodes.sorted).imp fun h => h.ne
  rw [onMembers, h _ hnodup]
  split_ifs with hi
  · rfl
  · have hnone : g.nodes.find? i = none := eq_none_iff_forall_ne_some.mpr fun node hnode =>
      hi (mem_keys.mpr ⟨node, hnode⟩)
    simp [gaps, hnone]

theorem onMembers_feed (hf : ∀ index s, Collecting env SameId index s (f index s)) (g : Group V Id)
    (effects : Effects V) : (onMembers f g effects).1.feed = g.feed := by
  have h : ∀ {p p' : Group V Id × Effects V}, Working (Collecting env SameId) p p' → p'.1.feed = p.1.feed := by
    intro p p' h
    induction h with
    | member hf p => exact onMember_feed env hf p.1 p.2
    | timer | refl => rfl
    | trans _ _ ih₁ ih₂ => exact ih₂.trans ih₁
  exact h (onMembers_working hf g effects)

/-- A group whose members have the breaks they had. -/
structure Undisturbed (g g' : Group V Id) : Prop where
  gaps : g'.gaps = g.gaps
  feed : g'.feed = g.feed

theorem Undisturbed.trans {g g' g'' : Group V Id} (h : Undisturbed g g') (h' : Undisturbed g' g'') :
    Undisturbed g g'' :=
  ⟨h'.gaps.trans h.gaps, h'.feed.trans h.feed⟩

variable {env} in
theorem undisturbed_of_working {p p' : Group V Id × Effects V} (h : Working (Collecting env SameGap) p p') :
    Undisturbed p.1 p'.1 := by
  induction h with
  | @member index f hf p =>
    refine ⟨funext fun i => ?_, onMember_feed env (fun s => (hf s).sameId) p.1 p.2⟩
    simp only [onMember_gaps env (fun s => (hf s).sameId), (hf _).gap]
    exact ite_self _
  | timer | refl => exact ⟨rfl, rfl⟩
  | trans _ _ ih₁ ih₂ => exact ih₁.trans ih₂

theorem undisturbed_beat (g : Group V Id) (serial : ℕ) (now : TimePoint) : Undisturbed g (g.beat env serial now).1 :=
  undisturbed_of_working (beat_working env
    (fun index => beatNode_collecting env index now) (fun index => rewatch_collecting env index now) g serial)

theorem undisturbed_pushChange (g : Group V Id) (c : Change Id) (bytes : ℕ) (effects : Effects V) :
    Undisturbed g (g.pushChange env c bytes effects).1 := by
  simp only [pushChange, claimFlush]
  split_ifs <;> exact ⟨rfl, rfl⟩

/-! ### The histories -/

variable [DecidableEq Id]

/-- The nodes' histories after a call. -/
def chronicle (g : Group V Id) (log : Id → List Incident) : Op V Id → Id → List Incident
  | .enqueue index value now, x =>
    if !g.stopped && (g.nodes.find? index).any fun node => node.id = x then
      -- the connection's break, while it is down, follows the value
      log x ++ [.value (stamp env value now).sourceTimestamp] ++ g.down.toList.map .broke
    else log x
  | .disconnected at_ _, x => if (g.indexOf x).isSome then log x ++ [.broke at_] else log x
  | .add node config index by_ now, x =>
    if x = node && (g.indexOf x).isNone && ((g.add env node config index by_ now).1.indexOf x).isSome then
      log x ++ [.joined]
    else log x
  | .remove index _ now, x =>
    if !g.stopped && (g.nodes.find? index).any fun node => node.id = x then log x ++ [.broke now] else log x
  | _, x => log x

/-- The group's breaks are those of the histories. -/
structure Chronicled (g : Group V Id) (log : Id → List Incident) : Prop where
  distinct : ∀ {i j : NodeIndex} {a b : Gap Id}, g.gaps i = some a → g.gaps j = some b → a.id = b.id → i = j
  member : ∀ {i : NodeIndex} {a : Gap Id}, g.gaps i = some a →
    a.broke = standing (log a.id) ∧ a.delivered = lastSource (log a.id)
  /-- A node that is no member has its break kept for a rejoin. -/
  away : g.closed = false → ∀ x, (∀ i a, g.gaps i = some a → a.id ≠ x) → g.left.lookup x = standing (log x)

variable {g g' : Group V Id} {log log' : Id → List Incident}

theorem Chronicled.congr (h : g.Chronicled log) (h' : Undisturbed g g') : g'.Chronicled log := by
  have hleft : g'.left = g.left := congrArg Feed.left h'.feed
  have hclosed : g'.closed = g.closed := congrArg Feed.closed h'.feed
  refine ⟨?_, ?_, ?_⟩
  · rw [h'.gaps]
    exact h.distinct
  · rw [h'.gaps]
    exact h.member
  · rw [h'.gaps, hleft, hclosed]
    exact h.away

theorem indexOf_isSome {x : Id} : (g.indexOf x).isSome ↔ ∃ i a, g.gaps i = some a ∧ a.id = x := by
  simp only [indexOf, isSome_map, List.find?_isSome, decide_eq_true_eq, Prod.exists, gaps,
    map_eq_some_iff]
  constructor
  · rintro ⟨i, node, hmem, rfl⟩
    exact ⟨i, node.gap, ⟨node, mem_entries_iff.mp hmem, rfl⟩, rfl⟩
  · rintro ⟨i, _, ⟨node, hnode, rfl⟩, rfl⟩
    exact ⟨i, node, mem_entries_iff.mpr hnode, rfl⟩

/-- One member's gap becomes `gap`, with its history. -/
theorem Chronicled.update (h : g.Chronicled log) (gap : Gap Id) {old : Gap Id} (hold : g.gaps index = some old)
    (hid : gap.id = old.id) (hgaps : ∀ i, g'.gaps i = if i = index then some gap else g.gaps i)
    (hfeed : g'.feed = g.feed) (hlog : ∀ x, x ≠ old.id → log' x = log x)
    (hbroke : gap.broke = standing (log' old.id)) (hdelivered : gap.delivered = lastSource (log' old.id)) :
    g'.Chronicled log' := by
  have hback : ∀ {i a}, g'.gaps i = some a → ∃ b, g.gaps i = some b ∧ b.id = a.id := by
    intro i a ha
    rw [hgaps] at ha
    split_ifs at ha with hi
    · cases ha
      exact ⟨old, hi ▸ hold, hid.symm⟩
    · exact ⟨a, ha, rfl⟩
  refine ⟨fun {i j a b} ha hb hab => ?_, fun {i a} ha => ?_, fun hclosed x hx => ?_⟩
  · obtain ⟨a', ha', hida⟩ := hback ha
    obtain ⟨b', hb', hidb⟩ := hback hb
    exact h.distinct ha' hb' (by rw [hida, hidb, hab])
  · rw [hgaps] at ha
    split_ifs at ha with hi
    · cases ha
      rw [hid]
      exact ⟨hbroke, hdelivered⟩
    · have hne : a.id ≠ old.id := fun hid => hi (h.distinct ha hold hid)
      rw [hlog _ hne]
      exact h.member ha
  · have hne : x ≠ old.id := by
      rintro rfl
      exact hx index gap (by rw [hgaps, if_pos rfl]) hid
    have hclosed' : g.closed = false := (congrArg Feed.closed hfeed).symm.trans hclosed
    have hleft : g'.left = g.left := congrArg Feed.left hfeed
    rw [hleft, hlog x hne]
    refine h.away hclosed' x fun i a ha hax => ?_
    by_cases hi : i = index
    · rw [hi, hold, some.injEq] at ha
      exact hne (hax ▸ ha ▸ rfl)
    · exact hx i a (by rw [hgaps, if_neg hi, ha]) hax

theorem Chronicled.enqueue (h : g.Chronicled log) (index : NodeIndex) (value : Value V) (now : TimePoint) :
    (g.enqueue env index value now).1.Chronicled (g.chronicle env log (.enqueue index value now)) := by
  have hsame : ∀ x, ((!g.stopped && (g.nodes.find? index).any fun node => node.id = x) = false) →
      g.chronicle env log (.enqueue index value now) x = log x := fun x hx => by simp [chronicle, hx]
  by_cases hstopped : g.stopped = true
  · have hlog : g.chronicle env log (.enqueue index value now) = log := funext fun x => hsame x (by simp [hstopped])
    rw [hlog, Group.enqueue, if_pos hstopped]
    exact h
  rw [Group.enqueue, if_neg hstopped]
  cases hnode : g.nodes.find? index with
  | none =>
    have hlog : g.chronicle env log (.enqueue index value now) = log := funext fun x => hsame x (by simp [hnode])
    simp only [hlog, onMember, hnode]
    exact h
  | some node =>
    have hold : g.gaps index = some node.gap := by simp [gaps, hnode]
    have hlog : g.chronicle env log (.enqueue index value now) node.id =
        log node.id ++ [.value (stamp env value now).sourceTimestamp] ++ g.down.toList.map .broke := by
      simp [chronicle, hstopped, hnode]
    have hf := collect_collecting env index (arrivalOf env value now) now
    refine h.update ⟨node.id, g.down, (stamp env value now).sourceTimestamp⟩ hold rfl ?_
      (onMember_feed env hf g {}) (fun x hx => hsame x (by simpa [hnode] using fun _ heq => hx heq.symm)) ?_ ?_
    · intro i
      rw [onMember_gaps env hf]
      split_ifs with hi
      · simp only [hi, hnode, collect_gap]
        rfl
      · rfl
    · exact ((congrArg standing hlog).trans (standing_delivered _ _ g.down)).symm
    · exact ((congrArg lastSource hlog).trans (lastSource_delivered _ _ g.down)).symm

theorem Chronicled.disconnected (h : g.Chronicled log) (at_ now : TimePoint) :
    (g.disconnected env at_ now).1.Chronicled (g.chronicle env log (.disconnected at_ now)) := by
  let g₀ : Group V Id := { g with down := g.down <|> some at_ }
  have hf : ∀ index s, Collecting env SameId index s (disconnectNode env at_ now index s) :=
    fun index => disconnectNode_collecting env index at_ now
  have hgaps : ∀ i, (g.disconnected env at_ now).1.gaps i = (g.gaps i).map (Gap.breaks at_) :=
    onMembers_gaps env (Gap.breaks at_) hf (fun index => disconnectNode_gap env index at_ now) g₀ {}
  have hfeed : (g.disconnected env at_ now).1.feed = g₀.feed := onMembers_feed env hf g₀ {}
  have hlog : ∀ {i a}, g.gaps i = some a →
      g.chronicle env log (.disconnected at_ now) a.id = log a.id ++ [.broke at_] := fun {i a} ha =>
    if_pos (indexOf_isSome.mpr ⟨i, a, ha, rfl⟩)
  have hback : ∀ {i a}, (g.disconnected env at_ now).1.gaps i = some a →
      ∃ b, g.gaps i = some b ∧ b.breaks at_ = a := fun {i a} ha => map_eq_some_iff.mp ((hgaps i).symm.trans ha)
  refine ⟨fun {i j a b} ha hb hab => ?_, fun {i a} ha => ?_, fun hclosed x hx => ?_⟩
  · obtain ⟨a, hold, rfl⟩ := hback ha
    obtain ⟨b, hold', rfl⟩ := hback hb
    exact h.distinct hold hold' hab
  · obtain ⟨a, hold, rfl⟩ := hback ha
    obtain ⟨hbroke, hdelivered⟩ := h.member hold
    have hnew := hlog hold
    change _ = standing (g.chronicle env log (.disconnected at_ now) a.id) ∧
      _ = lastSource (g.chronicle env log (.disconnected at_ now) a.id)
    rw [hnew, standing_broke, lastSource_broke, ← hbroke, ← hdelivered]
    exact ⟨rfl, rfl⟩
  · have haway : ∀ i a, g.gaps i = some a → a.id ≠ x := fun i a ha =>
      hx i (a.breaks at_) (by rw [hgaps, ha, map_some])
    have hsame : g.chronicle env log (.disconnected at_ now) x = log x :=
      if_neg fun hsome => by
        obtain ⟨i, a, ha, hax⟩ := indexOf_isSome.mp hsome
        exact haway i a ha hax
    have hleft : (g.disconnected env at_ now).1.left = g.left := congrArg Feed.left hfeed
    rw [hsame, hleft]
    exact h.away ((congrArg Feed.closed hfeed).symm.trans hclosed) x haway

theorem insert_undisturbed {node : Id} {config : Thresholds} {i : NodeIndex}
    (hinsert : (g.insert node config i).1 = none) : Undisturbed g (g.insert node config i).2 := by
  simp only [insert] at hinsert ⊢
  split_ifs at hinsert ⊢ <;> exact ⟨rfl, rfl⟩

theorem insert_gaps {node : Id} {config : Thresholds} {i index : NodeIndex}
    (hinsert : (g.insert node config i).1 = some index) :
    (∀ j a, g.gaps j = some a → a.id ≠ node) ∧ g.gaps index = none ∧
      (∀ j, (g.insert node config i).2.gaps j =
        if j = index then some ⟨node, g.left.lookup node, none⟩ else g.gaps j) ∧
      (g.insert node config i).2.left = (g.left.filter fun e => e.1 ≠ node) ∧
      (g.insert node config i).2.closed = g.closed := by
  have hnew : (g.indexOf node).isSome = false → ∀ j a, g.gaps j = some a → a.id ≠ node := by
    rintro hmember j a ha rfl
    exact absurd (indexOf_isSome.mpr ⟨j, a, ha, rfl⟩) (by simp [hmember])
  have hfree : ∀ j, (g.nodes.contains j) = false → g.gaps j = none := by
    intro j hj
    simpa [gaps, contains] using hj
  have hput : ∀ (j k : NodeIndex), ((g.nodes.insert k
      { id := node, config, broke := g.left.lookup node }).find? j).map Node.gap =
        if j = k then some ⟨node, g.left.lookup node, none⟩ else g.gaps j := by
    intro j k
    rw [find?_insert]
    split_ifs <;> rfl
  simp only [insert, remember] at hinsert ⊢
  by_cases hmember : (g.indexOf node).isSome = true
  · simp [hmember] at hinsert
  have hmember := hnew (by simpa using hmember)
  split_ifs at hinsert ⊢ with hzero hcontains
  all_goals
    cases hinsert
    exact ⟨hmember, hfree _ (by simpa using ‹¬ contains _ _ = true›), fun j => hput j _, rfl, rfl⟩

variable (h : g.Chronicled log)
include h

theorem Chronicled.add (node : Id) (config : Thresholds) (i : NodeIndex)
    (by_ : Option Writer) (now : TimePoint) :
    (g.add env node config i by_ now).1.Chronicled (g.chronicle env log (.add node config i by_ now)) := by
  -- nothing changed: no node becomes a member
  have hrefused : Undisturbed g (g.add env node config i by_ now).1 →
      (g.add env node config i by_ now).1.Chronicled (g.chronicle env log (.add node config i by_ now)) := by
    intro hsame
    have hlog : g.chronicle env log (.add node config i by_ now) = log := by
      funext x
      refine if_neg fun hjoins => ?_
      simp only [Bool.and_eq_true, isNone_iff_eq_none] at hjoins
      have hmember := indexOf_isSome.mp hjoins.2
      rw [hsame.gaps, ← indexOf_isSome, hjoins.1.2] at hmember
      simp at hmember
    rw [hlog]
    exact h.congr hsame
  by_cases hclosed : (g.issues == (i != 0) || g.closed || g.stopped) = true
  · refine hrefused ?_
    rw [Group.add, if_pos hclosed]
    exact ⟨rfl, rfl⟩
  have hopen : g.closed = false := by
    simp only [Bool.or_eq_true, not_or, Bool.not_eq_true] at hclosed
    exact hclosed.1.2
  cases hinsert : (g.insert node config i).1 with
  | none =>
    refine hrefused ?_
    have hsame := insert_undisturbed hinsert
    rw [Group.add, if_neg hclosed]
    generalize g.insert node config i = p at hinsert hsame ⊢
    obtain ⟨_, g'⟩ := p
    cases hinsert
    exact hsame
  | some index =>
    obtain ⟨hnew, hfree, hgaps, hleft, hstays⟩ := insert_gaps hinsert
    have hadd : ∃ g', Undisturbed (g.insert node config i).2 g' ∧ (g.add env node config i by_ now).1 = g' := by
      refine ⟨_, ?_, rfl⟩
      rw [Group.add, if_neg hclosed]
      generalize g.insert node config i = p at hinsert ⊢
      obtain ⟨_, g'⟩ := p
      cases hinsert
      exact undisturbed_pushChange env g' _ _ {}
    obtain ⟨g', hpushed, hadd⟩ := hadd
    have hgaps' : ∀ j, g'.gaps j = if j = index then some ⟨node, g.left.lookup node, none⟩ else g.gaps j :=
      fun j => (congrFun hpushed.gaps j).trans (hgaps j)
    have hself : g'.gaps index = some ⟨node, g.left.lookup node, none⟩ := by rw [hgaps', if_pos rfl]
    have hlog : g.chronicle env log (.add node config i by_ now) node = log node ++ [.joined] := by
      have hnone : g.indexOf node = none := by
        refine not_isSome_iff_eq_none.mp fun hsome => ?_
        obtain ⟨j, a, ha, hid⟩ := indexOf_isSome.mp hsome
        exact hnew j a ha hid
      have hsome : (g'.indexOf node).isSome = true := indexOf_isSome.mpr ⟨index, _, hself, rfl⟩
      simp [chronicle, hadd, hnone, hsome]
    have hother : ∀ x, x ≠ node → g.chronicle env log (.add node config i by_ now) x = log x := fun x hx => by
      simp [chronicle, hx]
    rw [hadd]
    refine ⟨fun {j k a b} ha hb hab => ?_, fun {j a} ha => ?_, fun _ x hx => ?_⟩
    · rw [hgaps'] at ha hb
      split_ifs at ha hb with hj hk hk
      · rw [hj, hk]
      · cases ha
        exact absurd hab.symm (hnew k b hb)
      · cases hb
        exact absurd hab (hnew j a ha)
      · exact h.distinct ha hb hab
    · rw [hgaps'] at ha
      split_ifs at ha with hj
      · cases ha
        simp only [hlog, standing_joined, lastSource_joined, and_true]
        exact h.away hopen node hnew
      · rw [hother a.id (hnew j a ha)]
        exact h.member ha
    · have hne : x ≠ node := fun heq => hx index _ hself heq.symm
      have hleft' : g'.left = g.left.filter fun e => e.1 ≠ node := (congrArg Feed.left hpushed.feed).trans hleft
      rw [hother x hne, hleft', lookup_filter_ne, if_neg hne]
      refine h.away hopen x fun j a ha => hx j a ?_
      have hj : j ≠ index := by
        rintro rfl
        exact absurd (hfree.symm.trans ha) (by simp)
      rw [hgaps', if_neg hj, ha]

theorem Chronicled.remove (index : NodeIndex) (by_ : Option Writer) (now : TimePoint) :
    (g.remove env index by_ now).1.Chronicled (g.chronicle env log (.remove index by_ now)) := by
  have hsame : ∀ x, ((!g.stopped && (g.nodes.find? index).any fun node => node.id = x) = false) →
      g.chronicle env log (.remove index by_ now) x = log x := fun x hx => by simp [chronicle, hx]
  cases hnode : g.nodes.find? index with
  | none =>
    have hlog : g.chronicle env log (.remove index by_ now) = log := funext fun x => hsame x (by simp [hnode])
    simp only [hlog, Group.remove, hnode]
    exact h
  | some node =>
    by_cases hstopped : g.stopped = true
    · have hlog : g.chronicle env log (.remove index by_ now) = log := funext fun x => hsame x (by simp [hstopped])
      simp only [hlog, Group.remove, hnode, hstopped]
      exact h
    have hfeed := (settle_collecting env index now (node, g, {})).feed
    have hnodes := (settle_collecting env index now (node, g, {})).nodes_gone.1
    have hgap := (settle_collecting env index now (node, g, {})).gap
    have hold : g.gaps index = some node.gap := by simp [gaps, hnode]
    have hlog : g.chronicle env log (.remove index by_ now) node.id = log node.id ++ [.broke now] := by
      simp [chronicle, hstopped, hnode]
    have hother : ∀ x, x ≠ node.id → g.chronicle env log (.remove index by_ now) x = log x := fun x hx =>
      hsame x (by simpa [hnode] using fun _ heq => hx heq.symm)
    simp only [Group.remove, hnode, hstopped]
    generalize settle env index now (node, g, {}) = s at hfeed hnodes hgap
    obtain ⟨node', g₁, effects⟩ := s
    have hid : node'.id = node.id := congrArg Gap.id hgap
    have hbroke : node'.broke = node.broke := congrArg Gap.broke hgap
    -- the node's break goes with it, and its removal is one if it had none
    refine Chronicled.congr ?_ (undisturbed_pushChange env _ _ _ _)
    have hgaps : ∀ j, gaps { g₁ with
        gone := g₁.gone.insert index node'.id
        left := (node'.id, node'.broke.getD now) :: g₁.left.filter fun e => e.1 ≠ node'.id
        nodes := g₁.nodes.erase index } j = if j = index then none else g.gaps j := by
      intro j
      change ((g₁.nodes.erase index).find? j).map Node.gap = _
      rw [find?_erase]
      split_ifs with hj
      · rfl
      · rw [show g₁.nodes = g.nodes from hnodes]
        rfl
    refine ⟨fun {j k a b} ha hb hab => ?_, fun {j a} ha => ?_, fun hclosed x hx => ?_⟩
    · rw [hgaps] at ha hb
      split_ifs at ha hb
      exact h.distinct ha hb hab
    · rw [hgaps] at ha
      split_ifs at ha with hj
      rw [hother a.id fun heq => hj (h.distinct ha hold heq)]
      exact h.member ha
    · have hleft : g₁.left = g.left := congrArg Feed.left hfeed
      have hclosed' : g.closed = false := (congrArg Feed.closed hfeed).symm.trans hclosed
      simp only [List.lookup_cons]
      by_cases hx' : x = node.id
      · subst hx'
        rw [hid, beq_self_eq_true, hlog, standing_broke, hbroke]
        have hstands : node.broke = standing (log node.id) := (h.member hold).1
        rw [← hstands]
        cases node.broke <;> rfl
      · rw [hid, beq_eq_false_iff_ne.mpr hx', hleft, lookup_filter_ne, if_neg hx', hother x hx']
        refine h.away hclosed' x fun j a ha hax => ?_
        by_cases hj : j = index
        · rw [hj, hold, some.injEq] at ha
          exact hx' (hax ▸ ha ▸ rfl)
        · exact hx j a (by rw [hgaps, if_neg hj, ha]) hax

theorem Chronicled.perform (op : Op V Id) :
    (g.perform env op).1.Chronicled (g.chronicle env log op) := by
  cases op with
  | enqueue index value now => exact h.enqueue env index value now
  | expire index serial now =>
    exact h.congr (undisturbed_of_working (expire_working env (settle_collecting env index now) g serial))
  | beat serial now => exact h.congr (undisturbed_beat env g serial now)
  | disconnected at_ now => exact h.disconnected env at_ now
  | connected => exact { h with }
  | setPublishingInterval interval => exact h.congr ⟨rfl, rfl⟩
  | setThresholds index thresholds now =>
    exact h.congr (undisturbed_of_working (.member (setNodeThresholds_collecting env index thresholds now) (g, {})))
  | add node config index by_ now => exact h.add env node config index by_ now
  | remove index by_ now => exact h.remove env index by_ now
  | close by_ now =>
    -- no member is left, and none can join
    refine ⟨fun ha => ?_, fun ha => ?_, fun hclosed => ?_⟩
    · exact absurd ha (by simp [gaps, Group.perform, Group.close])
    · exact absurd ha (by simp [gaps, Group.perform, Group.close])
    · exact absurd hclosed (by simp [Group.perform, Group.close])
  | stopping now =>
    have hstop : ({ g with stopped := true } : Group V Id).Chronicled log := { h with }
    have hsettled := undisturbed_of_working
      (onMembers_working (fun index => settle_collecting env index now) { g with stopped := true } {})
    exact (hstop.congr hsettled).congr ⟨rfl, rfl⟩

/-- The group after calls, with its nodes' histories. -/
def through (g : Group V Id) (log : Id → List Incident) (ops : List (Op V Id)) :
    Group V Id × (Id → List Incident) :=
  ops.foldl (fun s op => ((s.1.perform env op).1, s.1.chronicle env s.2 op)) (g, log)

theorem Chronicled.through (ops : List (Op V Id)) :
    (g.through env log ops).1.Chronicled (g.through env log ops).2 := by
  induction ops generalizing g log with
  | nil => exact h
  | cons op ops ih => exact ih (h.perform env op)

omit h

theorem chronicled_empty (h : g.nodes = ∅) (hleft : g.left = []) : g.Chronicled fun _ => [] := by
  refine ⟨fun ha => ?_, fun ha => ?_, fun _ x _ => by simp [hleft]⟩
  · simp [gaps, h] at ha
  · simp [gaps, h] at ha

end Group

end OpcHub.Historian
