import OpcHub.Historian.Balance
import OpcHub.Historian.Collecting

/-! What one hold of the buffer's lock can do. Whatever the collector runs, the
buffer stays in balance, what it streams is what it stored, to the subscribers of
that moment, and the members, the batch and the flush's flags stay as they were.
Each of the collector's parts is such a move, and moves compose. -/

namespace OpcHub.Historian

open Lib

variable {V Id : Type*}

/-- What no change of the buffer touches: the members, the subscribers and the flush's part. -/
structure Outside (V Id : Type*) where
  members : List (NodeIndex × Id)
  subscribers : List Registration
  taken : Option (List (Buffered (Record V Id)))
  written : List Bool
  marked : List (DataValue V)
  released : List (DataValue V)
  discarded : List (Buffered (DataValue V))

def Group.outside (g : Group V Id) : Outside V Id where
  members := g.members
  subscribers := g.subscribers
  taken := g.taken
  written := g.written
  marked := g.ledger.marked
  released := g.ledger.released
  discarded := g.ledger.discarded

/-- What only a join, a removal or the group's end touches. -/
structure Joins (Id : Type*) where
  issues : Bool
  left : List (Id × TimePoint)
  gone : OrdMap NodeIndex Id
  nodeOf : List (NodeIndex × Id)
  nextIndex : NodeIndex
  closed : Bool
  stopped : Bool
  changes : List (Buffered (Change Id))

def Group.joins (g : Group V Id) : Joins Id where
  issues := g.issues
  left := g.left
  gone := g.gone
  nodeOf := g.nodeOf
  nextIndex := g.nextIndex
  closed := g.closed
  stopped := g.stopped
  changes := g.changes

/-- The effects are for the subscribers there are, or there are none yet. -/
def Addressed (p : Group V Id × Effects V) : Prop :=
  (p.2.recipients = [] ∧ p.2.stored = []) ∨ p.2.recipients = p.1.subscribers

/-- What is stored is streamed, but heartbeats, while anyone subscribes. -/
structure Streams (p p' : Group V Id × Effects V) (new : List (DataValue V)) : Prop where
  stored : p'.1.ledger.stored = p.1.ledger.stored ++ new
  streamed : p'.2.stored =
    p.2.stored ++ if p.1.subscribers = [] then [] else new.filter fun v => v.heartbeat.isNone
  addressed : Addressed p → Addressed p'

variable [DecidableEq V]

/-- The buffer's part of a change under the lock: from a group and the effects so far to those after. -/
structure Keeps (p p' : Group V Id × Effects V) : Prop where
  outside : p'.1.outside = p.1.outside
  net : p'.1.net = p.1.net
  streams : ∃ new, Streams p p' new

/-- A change of the buffer alone. -/
structure Moves (p p' : Group V Id × Effects V) : Prop extends Keeps p p' where
  joins : p'.1.joins = p.1.joins

/-- A move made for a member, which stays the node it is. -/
structure HeldMoves (s s' : Held V Id) : Prop where
  id : s'.1.id = s.1.id
  moves : Moves s.2 s'.2

namespace Keeps

variable {p p' p'' : Group V Id × Effects V}

theorem subscribers (h : Keeps p p') : p'.1.subscribers = p.1.subscribers :=
  congrArg Outside.subscribers h.outside

theorem refl (p : Group V Id × Effects V) : Keeps p p :=
  ⟨rfl, rfl, [], by simp, by simp, id⟩

theorem trans (h₁ : Keeps p p') (h₂ : Keeps p' p'') : Keeps p p'' := by
  obtain ⟨new₁, hs₁⟩ := h₁.streams
  obtain ⟨new₂, hs₂⟩ := h₂.streams
  refine ⟨h₂.outside.trans h₁.outside, h₂.net.trans h₁.net, new₁ ++ new₂, ?_, ?_,
    fun h => hs₂.addressed (hs₁.addressed h)⟩
  · rw [hs₂.stored, hs₁.stored, List.append_assoc]
  · rw [hs₂.streamed, hs₁.streamed, h₁.subscribers]
    split_ifs <;> simp

theorem of_buffer_eq {g g' : Group V Id} (effects : Effects V) (hout : g'.outside = g.outside)
    (hvalues : g'.values = g.values) (hlost : g'.lost = g.lost) (hledger : g'.ledger = g.ledger) :
    Keeps (g, effects) (g', effects) := by
  refine ⟨hout, Group.net_congr hvalues hlost hledger, [], by simp [hledger], by simp, ?_⟩
  have hsub : g'.subscribers = g.subscribers := congrArg Outside.subscribers hout
  simp [Addressed, hsub]

end Keeps

namespace Moves

variable {p p' p'' : Group V Id × Effects V}

theorem refl (p : Group V Id × Effects V) : Moves p p := ⟨.refl p, rfl⟩

theorem trans (h₁ : Moves p p') (h₂ : Moves p' p'') : Moves p p'' :=
  ⟨h₁.toKeeps.trans h₂.toKeeps, h₂.joins.trans h₁.joins⟩

/-- A change of neither the buffer nor the membership is a move. -/
theorem of_buffer_eq {g g' : Group V Id} (effects : Effects V) (hout : g'.outside = g.outside)
    (hvalues : g'.values = g.values) (hlost : g'.lost = g.lost) (hledger : g'.ledger = g.ledger)
    (hjoins : g'.joins = g.joins) : Moves (g, effects) (g', effects) :=
  ⟨.of_buffer_eq effects hout hvalues hlost hledger, hjoins⟩

end Moves

namespace HeldMoves

variable {s s' s'' : Held V Id}

theorem trans (h₁ : HeldMoves s s') (h₂ : HeldMoves s' s'') : HeldMoves s s'' :=
  ⟨h₂.id.trans h₁.id, h₁.moves.trans h₂.moves⟩

end HeldMoves

namespace Group

variable (env : Env V Id)

theorem storeRecord_moves (g : Group V Id) (v : DataValue V) (bytes : ℕ) (effects : Effects V) :
    Moves (g, effects) (g.storeRecord env v bytes effects) := by
  have hout : (g.storeRecord env v bytes effects).1.outside = g.outside ∧
      (g.storeRecord env v bytes effects).1.joins = g.joins := by
    simp only [storeRecord, claimFlush]
    split_ifs <;> exact ⟨rfl, rfl⟩
  refine ⟨⟨hout.1, storeRecord_net env g v bytes effects, [v], ?_, ?_, ?_⟩, hout.2⟩
  · simp [storeRecord_ledger]
  · simp only [storeRecord, Effects.push]
    cases hs : g.subscribers <;> cases hb : v.heartbeat <;> simp [hb]
  · have hsub : (g.storeRecord env v bytes effects).1.subscribers = g.subscribers :=
      congrArg Outside.subscribers hout.1
    simp only [Addressed, hsub]
    simp only [storeRecord, Effects.push]
    split_ifs <;> simp_all

theorem dropNodeBeats_moves (index : NodeIndex) (start : Ticks) (made : Bool) (s : Held V Id) :
    HeldMoves s (dropNodeBeats env index start made s) := by
  have hnet : (dropNodeBeats env index start made s).2.1.net = s.2.1.net := dropBeats_net env s.2.1 index s.1 start made
  obtain ⟨_, _, _, _, _, _, _, _, h⟩ := dropNodeBeats_eq env index start made s
  rw [h] at hnet ⊢
  exact ⟨rfl, ⟨rfl, hnet, [], by simp, by simp, by simp [Addressed]⟩, rfl⟩

variable {env} in
theorem heldMoves_of_collecting {index : NodeIndex} {s s' : Held V Id} (h : Collecting env SameId index s s') :
    HeldMoves s s' := by
  induction h with
  | node h => exact ⟨h, .refl _⟩
  | timer beats armed due serial => exact ⟨rfl, .of_buffer_eq _ rfl rfl rfl rfl rfl⟩
  | store bytes h => exact ⟨rfl, storeRecord_moves env _ _ bytes _⟩
  | drop s start made => exact dropNodeBeats_moves env index start made s
  | trans _ _ ih₁ ih₂ => exact ih₁.trans ih₂

theorem settle_moves (now : TimePoint) (index : NodeIndex) (s : Held V Id) :
    HeldMoves s (settle env index now s) := heldMoves_of_collecting (settle_collecting env index now s).sameId

omit [DecidableEq V] in
theorem mem_members {g : Group V Id} {index : NodeIndex} {node : Id} :
    (index, node) ∈ g.members ↔ ∃ n, g.nodes.find? index = some n ∧ n.id = node := by
  simp only [members, List.mem_map, Prod.mk.injEq, Prod.exists]
  constructor
  · rintro ⟨i, n, hn, rfl, hid⟩
    exact ⟨n, OrdMap.mem_entries_iff.mp hn, hid⟩
  · rintro ⟨n, hn, hid⟩
    exact ⟨index, n, OrdMap.mem_entries_iff.mpr hn, rfl, hid⟩

theorem onMember_keeps (index : NodeIndex) {f : Held V Id → Held V Id}
    (hf : ∀ s, (f s).1.id = s.1.id ∧ Keeps s.2 (f s).2) (g : Group V Id) (effects : Effects V) :
    Keeps (g, effects) (onMember index f g effects) := by
  simp only [onMember]
  split
  · exact .refl _
  · rename_i node hnode
    have h := hf (node, g, effects)
    generalize f (node, g, effects) = s at h ⊢
    obtain ⟨node', g', effects'⟩ := s
    have hmembers : g'.members = g.members := congrArg Outside.members h.2.outside
    obtain ⟨n, hn, hid⟩ : ∃ n, g'.nodes.find? index = some n ∧ n.id = node.id := by
      rw [← mem_members, hmembers]
      exact mem_members.mpr ⟨node, hnode, rfl⟩
    have hputs : ({ g' with nodes := g'.nodes.insert index node' } : Group V Id).members = g'.members :=
      OrdMap.map_insert_of_eq Node.id hn (h.1.trans hid.symm)
    refine h.2.trans (.of_buffer_eq effects' ?_ rfl rfl rfl)
    simp only [outside, hputs]

theorem keeps_of_working {p p' : Group V Id × Effects V}
    (h : Working (fun _ s s' => s'.1.id = s.1.id ∧ Keeps s.2 s'.2) p p') : Keeps p p' := by
  induction h with
  | member hf p => exact onMember_keeps _ hf p.1 p.2
  | timer beats armed due serial => exact .of_buffer_eq _ rfl rfl rfl rfl
  | refl p => exact .refl p
  | trans _ _ ih₁ ih₂ => exact ih₁.trans ih₂

theorem moves_of_working {p p' : Group V Id × Effects V} (h : Working (fun _ => HeldMoves) p p') : Moves p p' := by
  induction h with
  | @member index f hf p =>
    refine ⟨onMember_keeps index (fun s => ⟨(hf s).id, (hf s).moves.toKeeps⟩) p.1 p.2, ?_⟩
    simp only [onMember]
    split
    · rfl
    · exact (hf _).moves.joins
  | timer beats armed due serial => exact .of_buffer_eq _ rfl rfl rfl rfl rfl
  | refl p => exact .refl p
  | trans _ _ ih₁ ih₂ => exact ih₁.trans ih₂

theorem perform_moves [DecidableEq Id] (g : Group V Id) {op : Op V Id} (h : Op.collects op = true) :
    Moves (g, {}) (g.perform env op) := by
  obtain ⟨down, publishingInterval, h⟩ := perform_working env g h
  have hstart : Moves (g, ({} : Effects V)) ({ g with down, publishingInterval }, {}) :=
    .of_buffer_eq {} rfl rfl rfl rfl rfl
  exact hstart.trans (moves_of_working (h.mono heldMoves_of_collecting))

end Group

/-- What a call does to the buffer, a join, a removal and the group's end among them. -/
structure Performs (g : Group V Id) (p : Group V Id × Effects V) : Prop where
  net : p.1.net = g.net
  taken : p.1.taken = g.taken
  written : p.1.written = g.written
  marked : p.1.ledger.marked = g.ledger.marked
  released : p.1.ledger.released = g.ledger.released
  discarded : p.1.ledger.discarded = g.ledger.discarded
  subscribers : p.1.subscribers = g.subscribers ∨ p.1.subscribers = []
  streams : ∃ new, p.1.ledger.stored = g.ledger.stored ++ new ∧
    p.2.stored = if g.subscribers = [] then [] else new.filter fun v => v.heartbeat.isNone
  recipients : p.2.stored = [] ∨ p.2.recipients = g.subscribers

namespace Performs

variable {g : Group V Id} {p : Group V Id × Effects V}

theorem of_keeps (h : Keeps (g, {}) p) : Performs g p := by
  obtain ⟨new, hs⟩ := h.streams
  refine ⟨h.net, congrArg Outside.taken h.outside, congrArg Outside.written h.outside,
    congrArg Outside.marked h.outside, congrArg Outside.released h.outside,
    congrArg Outside.discarded h.outside, .inl h.subscribers, ⟨new, hs.stored, by simpa using hs.streamed⟩, ?_⟩
  rcases hs.addressed (.inl ⟨rfl, rfl⟩) with h' | h'
  · exact .inl h'.2
  · exact .inr (h'.trans h.subscribers)

/-- A change of anything but the buffer and the flush's part, subscribers that end excepted, comes after. -/
theorem then_eq {g' : Group V Id} {effects : Effects V} (h : Performs g p) (hvalues : g'.values = p.1.values)
    (hlost : g'.lost = p.1.lost) (hledger : g'.ledger = p.1.ledger) (htaken : g'.taken = p.1.taken)
    (hwritten : g'.written = p.1.written) (hsub : g'.subscribers = p.1.subscribers ∨ g'.subscribers = [])
    (hstored : effects.stored = p.2.stored) (hto : effects.recipients = p.2.recipients) :
    Performs g (g', effects) := by
  refine ⟨(Group.net_congr hvalues hlost hledger).trans h.net, htaken.trans h.taken, hwritten.trans h.written,
    ?_, ?_, ?_, ?_, ?_, ?_⟩
  · rw [hledger, h.marked]
  · rw [hledger, h.released]
  · rw [hledger, h.discarded]
  · rcases hsub with hsub | hsub
    · rw [hsub]
      exact h.subscribers
    · exact .inr hsub
  · simpa only [hledger, hstored] using h.streams
  · simpa only [hstored, hto] using h.recipients

end Performs

namespace Group

variable (env : Env V Id)

omit [DecidableEq V] in
theorem pushChange_eq (g : Group V Id) (c : Change Id) (bytes : ℕ) (effects : Effects V) :
    let p := g.pushChange env c bytes effects
    p.1.values = g.values ∧ p.1.lost = g.lost ∧ p.1.ledger = g.ledger ∧ p.1.taken = g.taken ∧
      p.1.written = g.written ∧ p.1.subscribers = g.subscribers ∧ p.2.stored = effects.stored ∧
      p.2.recipients = effects.recipients := by
  simp only [pushChange, claimFlush]
  split_ifs <;> exact ⟨rfl, rfl, rfl, rfl, rfl, rfl, rfl, rfl⟩

theorem performs_pushChange {g g' : Group V Id} {effects : Effects V} (h : Performs g (g', effects))
    (c : Change Id) (bytes : ℕ) : Performs g (g'.pushChange env c bytes effects) := by
  obtain ⟨hvalues, hlost, hledger, htaken, hwritten, hsub, hstored, hto⟩ := pushChange_eq env g' c bytes effects
  exact h.then_eq hvalues hlost hledger htaken hwritten (.inl hsub) hstored hto

theorem add_performs [DecidableEq Id] (g : Group V Id) (node : Id) (config : Thresholds) (index : NodeIndex)
    (by_ : Option Writer) (now : TimePoint) : Performs g (g.add env node config index by_ now) := by
  have hrefl : Performs g (g, ({} : Effects V)) := .of_keeps (.refl _)
  have hinsert : Performs g ((g.insert node config index).2, ({} : Effects V)) := by
    simp only [insert, remember]
    split_ifs <;> exact hrefl.then_eq rfl rfl rfl rfl rfl (.inl rfl) rfl rfl
  simp only [add]
  split_ifs
  · exact hrefl
  · split
    · rename_i h
      rw [h] at hinsert
      exact hinsert
    · rename_i h
      rw [h] at hinsert
      exact performs_pushChange env hinsert _ _

theorem remove_performs [DecidableEq Id] (g : Group V Id) (index : NodeIndex) (by_ : Option Writer)
    (now : TimePoint) : Performs g (g.remove env index by_ now) := by
  have hrefl : Performs g (g, ({} : Effects V)) := .of_keeps (.refl _)
  simp only [remove]
  split
  · exact hrefl
  · rename_i node _
    split_ifs
    · exact hrefl
    · have h : Performs g (settle env index now (node, g, {})).2 :=
        .of_keeps (settle_moves env now index (node, g, {})).moves.toKeeps
      refine performs_pushChange env ?_ _ _
      exact h.then_eq rfl rfl rfl rfl rfl (.inl rfl) rfl rfl

theorem closeNode_keeps (by_ : Option Writer) (now : TimePoint) (index : NodeIndex) (s : Held V Id) :
    (closeNode env by_ now index s).1.id = s.1.id ∧ Keeps s.2 (closeNode env by_ now index s).2 := by
  have h := settle_moves env now index s
  simp only [closeNode]
  refine ⟨h.id, h.moves.toKeeps.trans ?_⟩
  refine ⟨rfl, net_congr rfl rfl rfl, [], by simp [holdChange, account, arrive], by simp, ?_⟩
  exact id

theorem close_performs (g : Group V Id) (by_ : Option Writer) (now : TimePoint) :
    Performs g (g.close env by_ now) := by
  have h : Performs g (g.onMembers (closeNode env by_ now) {}) :=
    .of_keeps (keeps_of_working (onMembers_working (closeNode_keeps env by_ now) g {}))
  exact h.then_eq rfl rfl rfl rfl rfl (.inr rfl) rfl rfl

theorem stopping_performs (g : Group V Id) (now : TimePoint) : Performs g (g.stopping env now) := by
  have h : Performs g (({ g with stopped := true } : Group V Id).onMembers (fun index => settle env index now) {}) := by
    have hstop : Keeps (g, ({} : Effects V)) ({ g with stopped := true }, {}) := .of_buffer_eq {} rfl rfl rfl rfl
    refine .of_keeps (hstop.trans (keeps_of_working (onMembers_working ?_ _ _)))
    intro index s
    have h := settle_moves env now index s
    exact ⟨h.id, h.moves.toKeeps⟩
  exact h.then_eq rfl rfl rfl rfl rfl (.inr rfl) rfl rfl

theorem perform_performs [DecidableEq Id] (g : Group V Id) (op : Op V Id) : Performs g (g.perform env op) := by
  cases op with
  | add node config index by_ now => exact add_performs env g node config index by_ now
  | remove index by_ now => exact remove_performs env g index by_ now
  | close by_ now => exact close_performs env g by_ now
  | stopping now => exact stopping_performs env g now
  | _ => exact .of_keeps (perform_moves env g rfl).toKeeps

section Trim

omit [DecidableEq V]

theorem members_modify (g : Group V Id) (index : NodeIndex) (f : Node V Id → Node V Id)
    (hf : ∀ node, (f node).id = node.id) :
    ({ g with nodes := g.nodes.modify index f } : Group V Id).members = g.members := by
  simp only [members, OrdMap.modify]
  split
  · rfl
  · rename_i node h
    exact OrdMap.map_insert_of_eq Node.id h (hf node)

/-- What the trim leaves as it is. -/
def Untrimmed (g g' : Group V Id) : Prop :=
  g'.outside = g.outside ∧ g'.joins = g.joins ∧ g'.ledger.stored = g.ledger.stored

theorem Untrimmed.trans {g g' g'' : Group V Id} (h₁ : Untrimmed g g') (h₂ : Untrimmed g' g'') :
    Untrimmed g g'' := ⟨h₂.1.trans h₁.1, h₂.2.1.trans h₁.2.1, h₂.2.2.trans h₁.2.2⟩

theorem untrimmed_of_nodes {g : Group V Id} {nodes : OrdMap NodeIndex (Node V Id)}
    (h : ({ g with nodes } : Group V Id).members = g.members) : Untrimmed g { g with nodes } := by
  refine ⟨?_, rfl, rfl⟩
  simp only [outside, h]

theorem keepBeat_untrimmed (g : Group V Id) (v : DataValue V) : Untrimmed g (g.keepBeat v) := by
  simp only [keepBeat]
  split_ifs
  · exact untrimmed_of_nodes (members_modify g _ _ fun _ => rfl)
  · exact ⟨rfl, rfl, rfl⟩

theorem unflag_untrimmed (g : Group V Id) (v : DataValue V) : Untrimmed g (g.unflag env v) := by
  simp only [unflag]
  split_ifs
  · exact ⟨rfl, rfl, rfl⟩
  · refine untrimmed_of_nodes (members_modify g _ _ fun node => ?_)
    split
    · split_ifs <;> rfl
    · rfl

theorem giveUp_untrimmed (g : Group V Id) (b : Buffered (DataValue V)) : Untrimmed g (g.giveUp env b) := by
  have hkeep := keepBeat_untrimmed g b.item
  simp only [giveUp]
  generalize g.keepBeat b.item = g' at hkeep ⊢
  split
  · exact hkeep.trans ⟨rfl, rfl, rfl⟩
  · rename_i newest _
    split_ifs
    · exact (hkeep.trans (unflag_untrimmed env g' newest.item)).trans ⟨rfl, rfl, rfl⟩
    · exact (hkeep.trans (unflag_untrimmed env g' b.item)).trans ⟨rfl, rfl, rfl⟩

theorem drop_untrimmed (g : Group V Id) (before need : ℕ) : Untrimmed g (g.drop env before need).2 := by
  have hloop : ∀ (l : List (Buffered (DataValue V))) (freed count : ℕ) (g : Group V Id),
      Untrimmed g (dropLoop env before need l freed count g).2.2 := by
    intro l freed count g
    fun_induction dropLoop env before need l freed count g with
    | case1 | case3 => exact ⟨rfl, rfl, rfl⟩
    | case2 b l freed count g _ ih => exact (giveUp_untrimmed env g b).trans ih
  exact (hloop g.values 0 0 g).trans ⟨rfl, rfl, rfl⟩

end Trim

end Group

end OpcHub.Historian
