import OpcHub.Historian.Flush

/-! What the collector does to a member's buffer under one hold of the lock, said
once: it changes the member, moves the heartbeat timer, stores a record of the
member and drops its heartbeats, any number of times; a call does so for one member
after another. The buffer itself, the part the store counts, then takes four kinds
of step, and whatever those keep every call keeps. -/

namespace OpcHub.Historian

open Lib Historian.Group

variable {V Id : Type*} (env : Env V Id)

/-- A member's break and the source time of its last value. -/
structure Gap (Id : Type*) where
  id : Id
  broke : Option TimePoint
  delivered : Option Ticks

def Node.gap (node : Node V Id) : Gap Id := ⟨node.id, node.broke, node.delivered⟩

/-- A change of a member that leaves its break. -/
def SameGap (node node' : Node V Id) : Prop := node'.gap = node.gap

def SameId (node node' : Node V Id) : Prop := node'.id = node.id

/-- What a change made for the member `index` can be made of, the member itself changing as `K` says. -/
inductive Collecting (K : Node V Id → Node V Id → Prop) (index : NodeIndex) : Held V Id → Held V Id → Prop where
  | node {node node' : Node V Id} {p : Group V Id × Effects V} (h : K node node') :
      Collecting K index (node, p) (node', p)
  | timer {node : Node V Id} {g : Group V Id} {effects : Effects V} (beats : List (TimePoint × NodeIndex))
      (armed : Bool) (due : TimePoint) (serial : ℕ) :
      Collecting K index (node, g, effects)
        (node, { g with beats := beats, beatArmed := armed, beatDue := due, beatSerial := serial }, effects)
  | store {node : Node V Id} {g : Group V Id} {effects : Effects V} {v : DataValue V} (bytes : ℕ)
      (h : v.index = index) : Collecting K index (node, g, effects) (node, g.storeRecord env v bytes effects)
  | drop (s : Held V Id) (start : Ticks) (made : Bool) :
      Collecting K index s (dropNodeBeats env index start made s)
  | trans {s s' s'' : Held V Id} (h₁ : Collecting K index s s') (h₂ : Collecting K index s' s'') :
      Collecting K index s s''

namespace Collecting

variable {env} {K : Node V Id → Node V Id → Prop} {index : NodeIndex}

theorem refl (s : Held V Id) : Collecting env SameGap index s s := .node rfl

theorem after_node {node node' : Node V Id} {p : Group V Id × Effects V} {s : Held V Id}
    (h : Collecting env K index (node', p) s) (hnode : K node node') : Collecting env K index (node, p) s :=
  .trans (.node hnode) h

theorem then_node {node : Node V Id} {s s' : Held V Id} (h : Collecting env K index s s') (hnode : K s'.1 node) :
    Collecting env K index s (node, s'.2) :=
  .trans h (.node hnode)

theorem store_node {node node' : Node V Id} {g : Group V Id} {effects : Effects V} {v : DataValue V}
    (bytes : ℕ) (h : v.index = index) (hnode : K node node') :
    Collecting env K index (node, g, effects) (node', g.storeRecord env v bytes effects) :=
  .trans (.store bytes h) (.node hnode)

theorem sameId {s s' : Held V Id} (h : Collecting env SameGap index s s') : Collecting env SameId index s s' := by
  induction h with
  | node h => exact .node (congrArg Gap.id h)
  | timer beats armed due serial => exact .timer beats armed due serial
  | store bytes h => exact .store bytes h
  | drop s start made => exact .drop s start made
  | trans _ _ ih₁ ih₂ => exact ih₁.trans ih₂

end Collecting

namespace Group

variable (index : NodeIndex)

theorem watch_collecting (g : Group V Id) (node : Node V Id) (due : TimePoint) (effects : Effects V) :
    Collecting env SameGap index (node, g, effects)
      ((g.watch index node due).1, (g.watch index node due).2, effects) := by
  have hqueue : Collecting env SameGap index (node, g, effects) (node, (g.watch index node due).2, effects) :=
    .timer _ g.beatArmed g.beatDue g.beatSerial
  exact hqueue.then_node rfl

variable (now : TimePoint)

variable (s : Held V Id)

theorem armNode_eq : ∃ beatAt beats armed due serial, armNode index now s = ({ s.1 with beatAt := beatAt },
    { s.2.1 with beats := beats, beatArmed := armed, beatDue := due, beatSerial := serial }, s.2.2) := by
  simp only [armNode, arm]
  split_ifs
  · exact ⟨_, _, _, _, _, rfl⟩
  all_goals
    split
    · split_ifs <;> exact ⟨_, _, _, _, _, rfl⟩
    · exact ⟨_, _, _, _, _, rfl⟩

open Collecting

theorem armNode_collecting : Collecting env SameGap index s (armNode index now s) := by
  obtain ⟨beatAt, beats, armed, due, serial, h⟩ := armNode_eq index now s
  rw [h]
  exact (timer beats armed due serial).then_node rfl

theorem dropNodeBeats_eq (start : Ticks) (made : Bool) (s : Held V Id) :
    ∃ beat recordTs store values held fresh lost dropped, dropNodeBeats env index start made s =
      ({ s.1 with beat := beat, recordTs := recordTs },
        { s.2.1 with
          store := store, values := values, held := held, fresh := fresh, lost := lost
          ledger := { s.2.1.ledger with dropped := dropped } }, s.2.2) := by
  simp only [dropNodeBeats, dropBeats]
  split
  · exact ⟨_, _, _, _, _, _, _, _, rfl⟩
  · split_ifs
    · exact ⟨_, _, _, _, _, _, _, _, rfl⟩
    · simp only [dropLost]
      split
      · exact ⟨_, _, _, _, _, _, _, _, rfl⟩
      · split
        · exact ⟨_, _, _, _, _, _, _, _, rfl⟩
        · split_ifs <;> exact ⟨_, _, _, _, _, _, _, _, rfl⟩

variable (arrival : Arrival V)

theorem storeValue_collecting (now : TimePoint) (s : Held V Id) :
    Collecting env SameGap index s (storeValue env index arrival now s) := by
  obtain ⟨node, g, effects⟩ := s
  have hstore : Collecting env SameGap index (node, g, effects) (node.stores arrival now, g.storeRecord env
      { index, data := arrival.data, unsupported := node.warns arrival } arrival.bytes effects) :=
    .store_node arrival.bytes rfl rfl
  exact hstore.trans (armNode_collecting env index now _)

theorem mark_collecting (at_ : Ticks) (ended : Value V) (now : TimePoint) (s : Held V Id) :
    Collecting env SameGap index s (mark env index at_ ended now s) := by
  exact .store_node _ rfl rfl

theorem settle_collecting : Collecting env SameGap index s (settle env index now s) := by
  simp only [settle]
  split
  · exact .refl _
  · split_ifs
    · exact (storeValue_collecting env index _ now _).after_node rfl
    · exact (armNode_collecting env index now _).after_node rfl

theorem collectAfterBreak_collecting (now broke : TimePoint) (last : Option Ticks)
    (s : Held V Id) : Collecting env SameGap index s (collectAfterBreak env index arrival now broke last s) := by
  have hsettle := settle_collecting env index now s
  simp only [collectAfterBreak]
  generalize settle env index now s = s₁ at hsettle ⊢
  split_ifs
  · exact hsettle.trans (armNode_collecting env index now s₁)
  · exact hsettle.trans (mark_collecting env index _ _ now s₁)
  · have hdrop : Collecting env SameGap index s₁ (dropNodeBeats env index arrival.data.primaryTime false s₁) :=
      .drop s₁ _ false
    generalize dropNodeBeats env index arrival.data.primaryTime false s₁ = s₂ at hdrop ⊢
    have hmark := mark_collecting env index
      (min (max (ticks broke) s₂.1.recordTs) arrival.data.primaryTime) arrival.data now s₂
    exact hsettle.trans (hdrop.trans (hmark.trans (storeValue_collecting env index arrival now _)))

theorem collectPassing_collecting (now : TimePoint) (s : Held V Id) :
    Collecting env SameGap index s (collectPassing env index arrival now s) := by
  have hdrop : Collecting env SameGap index s (if s.1.passes env arrival.data then
      dropNodeBeats env index arrival.data.primaryTime false s else s) := by
    split_ifs
    · exact .drop s _ false
    · exact .refl s
  simp only [collectPassing]
  generalize (if s.1.passes env arrival.data then
      dropNodeBeats env index arrival.data.primaryTime false s else s) = s₁ at hdrop ⊢
  split_ifs
  · exact hdrop.then_node rfl
  · exact hdrop
  · exact hdrop.trans (storeValue_collecting env index arrival now s₁)
  · exact hdrop.then_node rfl

theorem collectOrdinary_collecting (now : TimePoint) (joined : Bool) (s : Held V Id) :
    Collecting env SameGap index s (collectOrdinary env index arrival now joined s) := by
  have hoffset : Collecting env SameGap index s (if joined then s else (s.1.offsetBy arrival.data now, s.2)) := by
    split_ifs
    · exact .refl s
    · refine (refl s).then_node ?_
      simp only [Node.offsetBy]
      split <;> rfl
  simp only [collectOrdinary]
  generalize (if joined then s else (s.1.offsetBy arrival.data now, s.2)) = s₁ at hoffset ⊢
  split_ifs
  · exact hoffset.trans ((settle_collecting env index now s₁).trans
      (collectPassing_collecting env index arrival now _))
  · exact hoffset.trans (collectPassing_collecting env index arrival now s₁)

theorem collect_collecting (now : TimePoint) (s : Held V Id) :
    Collecting env SameId index s (collect env index arrival now s) := by
  simp only [collect]
  split
  · split_ifs
    · exact (collectOrdinary_collecting env index arrival now _ _).sameId.after_node rfl
    · exact (collectAfterBreak_collecting env index arrival now _ _ _).sameId.after_node rfl
  · exact (collectOrdinary_collecting env index arrival now _ _).sameId.after_node rfl

theorem watchNode_collecting : Collecting env SameGap index s (watchNode index s) := by
  obtain ⟨node, g, effects⟩ := s
  exact watch_collecting env index g node _ effects

theorem storeBeat_collecting (stored : Value V) (now : TimePoint) (s : Held V Id) :
    Collecting env SameGap index s (storeBeat env index stored now s) := by
  exact .store_node _ rfl rfl

theorem beatNode_collecting : Collecting env SameGap index s (beatNode env index now s) := by
  simp only [beatNode]
  split
  · exact (refl _).then_node rfl
  · split_ifs
    · exact (refl _).then_node rfl
    · exact ((storeBeat_collecting env index _ now _).trans (watchNode_collecting env index _)).after_node rfl
    · exact (watchNode_collecting env index _).after_node rfl

theorem rewatch_collecting : Collecting env SameGap index s (rewatch index now s) := by
  simp only [rewatch]
  split_ifs
  · exact (refl _).then_node rfl
  · exact (watchNode_collecting env index _).after_node rfl

theorem disconnectNode_collecting (at_ now : TimePoint) (s : Held V Id) :
    Collecting env SameId index s (disconnectNode env at_ now index s) := by
  have hsettle := (settle_collecting env index now s).sameId
  simp only [disconnectNode]
  generalize settle env index now s = s₁ at hsettle ⊢
  have hbreak : Collecting env SameId index s (Node.breaks s₁.1 at_, s₁.2) := hsettle.then_node rfl
  split_ifs
  · exact hsettle
  · exact (hbreak.trans (.drop _ (ticks at_) true)).then_node rfl
  · exact hbreak

theorem setNodeThresholds_collecting (thresholds : Thresholds) (now : TimePoint) (s : Held V Id) :
    Collecting env SameGap index s (setNodeThresholds env thresholds now index s) := by
  simp only [setNodeThresholds]
  split_ifs
  · exact ((settle_collecting env index now _).trans (armNode_collecting env index now _)).after_node rfl
  · exact (armNode_collecting env index now _).after_node rfl
  · exact (armNode_collecting env index now _).after_node rfl

end Group

/-- What a call can do to the members of its group: a change of one, of a kind `Q`, and moves of the heartbeat
timer, any number of times. -/
inductive Working (Q : NodeIndex → Held V Id → Held V Id → Prop) :
    Group V Id × Effects V → Group V Id × Effects V → Prop where
  | member {index : NodeIndex} {f : Held V Id → Held V Id} (hf : ∀ s, Q index s (f s))
      (p : Group V Id × Effects V) : Working Q p (onMember index f p.1 p.2)
  | timer {g : Group V Id} {effects : Effects V} (beats : List (TimePoint × NodeIndex)) (armed : Bool)
      (due : TimePoint) (serial : ℕ) : Working Q (g, effects)
        ({ g with beats := beats, beatArmed := armed, beatDue := due, beatSerial := serial }, effects)
  | refl (p : Group V Id × Effects V) : Working Q p p
  | trans {p p' p'' : Group V Id × Effects V} (h₁ : Working Q p p') (h₂ : Working Q p' p'') : Working Q p p''

variable {Q : NodeIndex → Held V Id → Held V Id → Prop}

theorem Working.mono {Q' : NodeIndex → Held V Id → Held V Id → Prop} {p p' : Group V Id × Effects V}
    (h : Working Q p p') (hQ : ∀ {index s s'}, Q index s s' → Q' index s s') : Working Q' p p' := by
  induction h with
  | member hf p => exact .member (fun s => hQ (hf s)) p
  | timer beats armed due serial => exact .timer beats armed due serial
  | refl p => exact .refl p
  | trans _ _ ih₁ ih₂ => exact ih₁.trans ih₂

namespace Group

theorem onMembers_working {f : NodeIndex → Held V Id → Held V Id} (hf : ∀ index s, Q index s (f index s))
    (g : Group V Id) (effects : Effects V) : Working Q (g, effects) (onMembers f g effects) :=
  List.foldlRecOn (motive := fun p => Working Q (g, effects) p) _ _ (.refl _) fun p hp index _ => hp.trans (.member (hf index) p)

theorem enqueue_working {index : NodeIndex} {value : Value V} {now : TimePoint}
    (hcollect : ∀ s, Q index s (collect env index (arrivalOf env value now) now s)) (g : Group V Id) :
    Working Q (g, {}) (g.enqueue env index value now) := by
  simp only [enqueue]
  split_ifs
  · exact .refl _
  · exact .member hcollect (g, {})

theorem expire_working {index : NodeIndex} {now : TimePoint}
    (hsettle : ∀ s, Q index s (settle env index now s)) (g : Group V Id) (serial : ℕ) :
    Working Q (g, {}) (g.expire env index serial now) := by
  simp only [expire]
  split
  · exact .refl _
  · split_ifs
    · exact .refl _
    · exact .member hsettle (g, {})

theorem beatLoop_working {now : TimePoint} (hbeat : ∀ index s, Q index s (beatNode env index now s)) (fuel : ℕ)
    (g : Group V Id) (effects : Effects V) : Working Q (g, effects) (g.beatLoop env now fuel effects) := by
  induction fuel generalizing g effects with
  | zero => exact .refl _
  | succ fuel ih =>
    simp only [beatLoop]
    split
    · exact .refl _
    · rename_i at_ index rest hbeats
      have hpop : Working Q (g, effects) ({ g with beats := rest }, effects) :=
        .timer rest g.beatArmed g.beatDue g.beatSerial
      split_ifs
      · exact .refl _
      · split
        · exact hpop.trans (ih _ effects)
        · split_ifs
          · exact hpop.trans (ih _ effects)
          · exact hpop.trans ((Working.member (hbeat index) _).trans (ih _ _))

theorem beat_working {now : TimePoint} (hbeat : ∀ index s, Q index s (beatNode env index now s))
    (hrewatch : ∀ index s, Q index s (rewatch index now s)) (g : Group V Id) (serial : ℕ) :
    Working Q (g, {}) (g.beat env serial now) := by
  have hdisarm : Working Q (g, {}) ({ g with beatArmed := false }, {}) :=
    .timer g.beats false g.beatDue g.beatSerial
  have hwatch : ∀ g : Group V Id, Working Q (g, {}) (rewatchAll now g) := by
    intro g
    have hclear : Working Q (g, {}) ({ g with beats := [] }, {}) := .timer [] g.beatArmed g.beatDue g.beatSerial
    simp only [rewatchAll]
    split_ifs
    · exact hclear.trans (onMembers_working hrewatch _ {})
    · exact .refl _
  have hschedule : ∀ p : Group V Id × Effects V, Working Q p (reschedule p) := by
    rintro ⟨g, effects⟩
    simp only [reschedule]
    split
    · exact .refl _
    · exact .timer g.beats true _ _
  simp only [beat]
  split_ifs
  · exact .refl _
  · exact hdisarm
  · exact hdisarm.trans ((hwatch _).trans ((beatLoop_working env hbeat _ _ _).trans (hschedule _)))

end Group

/-- A gap whose newest, a heartbeat, is dropped. -/
def Lost.dropNewest (lost : Lost V) (newest : Buffered (DataValue V)) : Lost V :=
  { lost with count := lost.count - 1, sequence := newest.sequence, newest := none }

/-- The part of a group the store counts: what it buffers, and what a full buffer dropped. -/
structure Buffer (V Id : Type*) where
  store : Store
  changes : List (Buffered (Change Id))
  values : List (Buffered (DataValue V))
  held : ℕ
  lost : OrdMap NodeIndex (Lost V)

def Group.buffer (g : Group V Id) : Buffer V Id where
  store := g.store
  changes := g.changes
  values := g.values
  held := g.held
  lost := g.lost

namespace Buffer

/-- A record's sequence and its cost. -/
def count (b : Buffer V Id) (cost : ℕ) : Buffer V Id :=
  { b with
    store := ⟨b.store.sequence + 1, b.store.buffered + cost⟩
    held := b.held + cost }

/-- The values `p` picks, taken out of the buffer and its count. -/
def without (b : Buffer V Id) (p : Buffered (DataValue V) → Bool) : Buffer V Id :=
  { b with
    values := b.values.filter fun v => !p v
    held := b.held - costs env (b.values.filter p)
    store := { b.store with
      buffered := b.store.buffered - min b.store.buffered (costs env (b.values.filter p)) } }

/-- One change of the buffer, a value stored being of an index in `P`. -/
inductive Step (P : NodeIndex → Prop) : Buffer V Id → Buffer V Id → Prop where
  | value {b : Buffer V Id} {v : DataValue V} (bytes : ℕ) (h : P v.index) :
      Step P b { b.count (bytes + env.sizeofBuffered) with
        values := b.values ++ [⟨v, b.store.sequence + 1, bytes, false, false⟩] }
  | change {b : Buffer V Id} (c : Change Id) (bytes : ℕ) :
      Step P b { b.count (bytes + env.sizeofBuffered) with
        changes := b.changes ++ [⟨c, b.store.sequence + 1, bytes, false, false⟩] }
  | drop (b : Buffer V Id) (p : Buffered (DataValue V) → Bool) : Step P b (b.without env p)
  | dropLost {b : Buffer V Id} {index : NodeIndex} {lost : Lost V} {newest : Buffered (DataValue V)}
      (h : b.lost.find? index = some lost) (hn : lost.newest = some newest) :
      Step P b { b with lost := b.lost.insert index (lost.dropNewest newest) }

/-- Any number of changes. -/
def Path (P : NodeIndex → Prop) : Buffer V Id → Buffer V Id → Prop := Relation.ReflTransGen (Step env P)

variable {env} {P Q : NodeIndex → Prop} {b b' b'' : Buffer V Id}

theorem Path.refl (b : Buffer V Id) : Path env P b b := Relation.ReflTransGen.refl

theorem Path.of_eq (h : b' = b) : Path env P b b' := by
  rw [h]
  exact .refl b

theorem Path.trans (h₁ : Path env P b b') (h₂ : Path env P b' b'') : Path env P b b'' :=
  Relation.ReflTransGen.trans h₁ h₂

theorem Step.path (h : Step env P b b') : Path env P b b' := Relation.ReflTransGen.single h

theorem Step.mono (h : Step env P b b') (hP : ∀ i, P i → Q i) : Step env Q b b' := by
  cases h with
  | value bytes h => exact .value bytes (hP _ h)
  | change c bytes => exact .change c bytes
  | drop p => exact .drop b p
  | dropLost h hn => exact .dropLost h hn

theorem Path.mono (h : Path env P b b') (hP : ∀ i, P i → Q i) : Path env Q b b' :=
  Relation.ReflTransGen.mono (fun _ _ (h : Step env P _ _) => h.mono hP) _ _ h

theorem Path.invariant {I : Buffer V Id → Prop} (hstep : ∀ b b', Step env P b b' → I b → I b')
    (h : Path env P b b') (hb : I b) : I b' := by
  induction h with
  | refl => exact hb
  | tail _ hs ih => exact hstep _ _ hs ih

end Buffer

namespace Group

open Buffer

variable {P : NodeIndex → Prop}

variable (g : Group V Id)

theorem storeRecord_step {v : DataValue V} (h : P v.index) (bytes : ℕ) (effects : Effects V) :
    Step env P g.buffer (g.storeRecord env v bytes effects).1.buffer := by
  have heq : (g.storeRecord env v bytes effects).1.buffer =
      { g.buffer.count (bytes + env.sizeofBuffered) with
        values := g.values ++ [⟨v, g.store.sequence + 1, bytes, false, false⟩] } := by
    simp only [storeRecord, claimFlush]
    split_ifs <;> rfl
  rw [heq]
  exact .value bytes h

theorem pushChange_step (c : Change Id) (bytes : ℕ) (effects : Effects V) :
    Step env P g.buffer (g.pushChange env c bytes effects).1.buffer := by
  have heq : (g.pushChange env c bytes effects).1.buffer =
      { g.buffer.count (bytes + env.sizeofBuffered) with
        changes := g.changes ++ [⟨c, g.store.sequence + 1, bytes, false, false⟩] } := by
    simp only [pushChange, claimFlush]
    split_ifs <;> rfl
  rw [heq]
  exact .change c bytes

theorem pushChange_path {g : Group V Id} {b : Buffer V Id} (hb : g.buffer = b) (c : Change Id) (bytes : ℕ)
    (effects : Effects V) : Path env P b (g.pushChange env c bytes effects).1.buffer := by
  rw [← hb]
  exact (pushChange_step env g c bytes effects).path

theorem dropLost_path (index : NodeIndex) (later : DataValue V → Bool) (beat : Option Ticks) :
    Path env P g.buffer (g.dropLost index later beat).2.buffer := by
  simp only [dropLost]
  split
  · exact .refl _
  · rename_i lost hlost
    split
    · exact .refl _
    · rename_i newest hnewest
      split_ifs
      · exact .refl _
      · have hstep : Step env P g.buffer
            { g.buffer with lost := g.lost.insert index (lost.dropNewest newest) } := .dropLost hlost hnewest
        exact hstep.path
      · exact .refl _

theorem dropBeats_path (index : NodeIndex) (node : Node V Id) (start : Ticks) (made : Bool) :
    Path env P g.buffer (g.dropBeats env index node start made).2.buffer := by
  simp only [dropBeats]
  split
  · exact .refl _
  · split_ifs
    · exact .refl _
    · have hdrop : ∀ later : DataValue V → Bool,
          Step env P g.buffer (g.dropBuffered env index later).buffer :=
        fun later => .drop g.buffer fun b => isBeat index b && later b.item
      exact (hdrop _).path.trans (dropLost_path env _ index _ _)

end Group

/-- A change made for a member leads the buffer along such steps, and leaves the members in the group,
beside which it is made. -/
structure Leads (index : NodeIndex) (s s' : Held V Id) : Prop where
  path : Buffer.Path env (· = index) s.2.1.buffer s'.2.1.buffer
  nodes : s'.2.1.nodes = s.2.1.nodes

section

variable {env} {K : Node V Id → Node V Id → Prop} {index : NodeIndex} {s s' : Held V Id}

theorem Collecting.nodes_gone (h : Collecting env K index s s') :
    s'.2.1.nodes = s.2.1.nodes ∧ s'.2.1.gone = s.2.1.gone := by
  induction h with
  | node | timer => exact ⟨rfl, rfl⟩
  | store bytes h =>
    simp only [storeRecord, claimFlush]
    split_ifs <;> exact ⟨rfl, rfl⟩
  | drop s start made =>
    obtain ⟨_, _, _, _, _, _, _, _, h⟩ := dropNodeBeats_eq env index start made s
    rw [h]
    exact ⟨rfl, rfl⟩
  | trans _ _ ih₁ ih₂ => exact ⟨ih₂.1.trans ih₁.1, ih₂.2.trans ih₁.2⟩

theorem Collecting.leads (h : Collecting env K index s s') : Leads env index s s' := by
  refine ⟨?_, h.nodes_gone.1⟩
  induction h with
  | node | timer => exact .refl _
  | store bytes h => exact (storeRecord_step env _ h bytes _).path
  | drop s start made => exact dropBeats_path env s.2.1 index s.1 start made
  | trans _ _ ih₁ ih₂ => exact ih₁.trans ih₂

theorem Collecting.gap (h : Collecting env SameGap index s s') : s'.1.gap = s.1.gap := by
  induction h with
  | node h => exact h
  | timer | store => rfl
  | drop s start made =>
    obtain ⟨_, _, _, _, _, _, _, _, h⟩ := dropNodeBeats_eq env index start made s
    rw [h]
    rfl
  | trans _ _ ih₁ ih₂ => exact ih₂.trans ih₁

end

namespace Group

open Buffer

/-- The members' indexes. -/
def HasMember (g : Group V Id) (index : NodeIndex) : Prop := (g.nodes.find? index).isSome = true

theorem onMember_hasMember (index : NodeIndex) {f : Held V Id → Held V Id}
    (hf : ∀ s, Leads env index s (f s)) (g : Group V Id) (effects : Effects V) (i : NodeIndex) :
    (onMember index f g effects).1.HasMember i ↔ g.HasMember i := by
  simp only [onMember]
  split
  · rfl
  · rename_i node hnode
    simp only [HasMember, (hf (node, g, effects)).nodes, OrdMap.find?_insert]
    split_ifs with hi
    · simp [hi, hnode]
    · rfl

variable {env} in
theorem hasMember_of_working {p p' : Group V Id × Effects V} (h : Working (Leads env) p p') (i : NodeIndex) :
    p'.1.HasMember i ↔ p.1.HasMember i := by
  induction h with
  | member hf p => exact onMember_hasMember env _ hf p.1 p.2 i
  | timer | refl => exact Iff.rfl
  | trans _ _ ih₁ ih₂ => exact ih₂.trans ih₁

variable {env} in
theorem path_of_working {p p' : Group V Id × Effects V} (h : Working (Leads env) p p') :
    Path env p.1.HasMember p.1.buffer p'.1.buffer := by
  induction h with
  | @member index f hf p =>
    simp only [onMember]
    split
    · exact .refl _
    · rename_i node hnode
      refine (hf (node, p.1, p.2)).path.mono ?_
      rintro i rfl
      simp [HasMember, hnode]
  | timer | refl => exact .refl _
  | trans h₁ _ ih₁ ih₂ => exact ih₁.trans (ih₂.mono fun i => (hasMember_of_working h₁ i).mp)

theorem closeNode_leads (by_ : Option Writer) (now : TimePoint) (index : NodeIndex) (s : Held V Id) :
    Leads env index s (closeNode env by_ now index s) := by
  have h := (settle_collecting env index now s).leads
  simp only [closeNode]
  generalize settle env index now s = s₁ at h ⊢
  have hchange : Step env (· = index) s₁.2.1.buffer _ :=
    .change (.removed index now by_) (env.changeBytes by_ none)
  exact ⟨h.path.trans hchange.path, h.nodes⟩

/-- The calls that leave the membership and the subscribers as they are. -/
def Op.collects : Op V Id → Bool
  | .add .. | .remove .. | .close .. | .stopping .. => false
  | _ => true

variable [DecidableEq Id]

/-- Such a call only collects, from when the group went down or is to publish on. -/
theorem perform_working (g : Group V Id) {op : Op V Id} (h : Op.collects op = true) : ∃ down publishingInterval,
    Working (Collecting env SameId) ({ g with down, publishingInterval }, {}) (g.perform env op) := by
  cases op with
  | enqueue index value now => exact ⟨_, _, enqueue_working env (collect_collecting env index _ now) g⟩
  | expire index serial now =>
    exact ⟨_, _, expire_working env (fun s => (settle_collecting env index now s).sameId) g serial⟩
  | beat serial now =>
    exact ⟨_, _, beat_working env (fun index s => (beatNode_collecting env index now s).sameId)
      (fun index s => (rewatch_collecting env index now s).sameId) g serial⟩
  | disconnected at_ now =>
    exact ⟨_, _, onMembers_working (fun index => disconnectNode_collecting env index at_ now)
      { g with down := g.down <|> some at_ } {}⟩
  | connected => exact ⟨_, _, .refl ({ g with down := none }, {})⟩
  | setPublishingInterval interval => exact ⟨_, _, .refl ({ g with publishingInterval := interval }, {})⟩
  | setThresholds index thresholds now =>
    exact ⟨_, _, .member (fun s => (setNodeThresholds_collecting env index thresholds now s).sameId) (g, {})⟩
  | add | remove | close | stopping => cases h

theorem perform_path (g : Group V Id) (op : Op V Id) : Path env g.HasMember g.buffer (g.perform env op).1.buffer := by
  have hsettle : ∀ now index (s : Held V Id), Leads env index s (settle env index now s) :=
    fun now index s => (settle_collecting env index now s).leads
  by_cases hop : Op.collects op = true
  · obtain ⟨_, _, h⟩ := perform_working env g hop
    exact path_of_working (h.mono Collecting.leads)
  cases op with
  | add node config index by_ now =>
    have hinsert : (g.insert node config index).2.buffer = g.buffer := by
      simp only [insert, remember]
      split_ifs <;> rfl
    simp only [perform, add]
    split_ifs
    · exact .refl _
    · split
      · rename_i h
        rw [h] at hinsert
        exact .of_eq hinsert
      · rename_i h
        rw [h] at hinsert
        exact pushChange_path env hinsert _ _ _
  | remove index by_ now =>
    simp only [perform, remove]
    split
    · exact .refl _
    · rename_i node hnode
      split_ifs
      · exact .refl _
      · have hpath := (hsettle now index (node, g, {})).path
        refine (hpath.mono ?_).trans (pushChange_path env ?_ _ _ _)
        · rintro i rfl
          simp [HasMember, hnode]
        · rfl
  | close by_ now => exact path_of_working (onMembers_working (closeNode_leads env by_ now) g {})
  | stopping now => exact path_of_working (onMembers_working (hsettle now) { g with stopped := true } {})
  | _ => exact absurd rfl hop

end Group

end OpcHub.Historian
