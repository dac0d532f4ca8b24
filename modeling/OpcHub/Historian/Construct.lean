import OpcHub.Historian.Collecting

/-! A group made from its files. A member the files know keeps its index and
resumes from its newest record there, a node they know that is no member any more
leaves, and a new one joins. The changes are buffered once nothing can fail, so a
group that could not be made has counted nothing. -/

namespace OpcHub.Historian

open Lib

variable {V Id : Type*} [DecidableEq Id] (env : Env V Id)

/-- A member as its host names it; index 0 has the group issue one. -/
structure Member (Id : Type*) where
  node : Id
  config : Thresholds
  index : NodeIndex := 0

/-- What a group's files say of it at start. -/
structure Restored (Id : Type*) where
  members : List (Id × NodeIndex) := []
  nextIndex : NodeIndex := 1
  /-- The last flush, each member's break. -/
  flushed : Option TimePoint := none

/-- A member as its newest record in the files leaves it; a marker stands for no value. -/
def Node.resume (node : Node V Id) (newest : DataValue V) (now : TimePoint) : Node V Id :=
  let primary := newest.primaryTime
  let node := { node with
    recordTs := primary, keptTs := primary, storedAt := min (timePoint primary) now }
  if newest.data.value.isNone && newest.heartbeat.isNone && newest.data.status == some badDataLost then
    { node with stored := some { status := some badDataLost }, marked := true }
  else
    let valueTs := newest.heartbeat.getD primary
    -- a heartbeat's own times are the timer's: the value it repeats came as the record says
    let sourced := if newest.heartbeat.isSome then !newest.unsourced
      else newest.data.sourceTimestamp.isSome
    let stored := { newest.data with
      sourceTimestamp := if sourced then some (newest.data.sourceTimestamp.getD 0) else none }
    { node with
      stored := some stored
      valueTs := some valueTs
      delivered := if sourced then some valueTs else node.delivered }

namespace Group

/-- The members put in as the files know them, and those that join. -/
structure Joining (V Id : Type*) where
  group : Group V Id
  kept : List NodeIndex := []
  added : List (NodeIndex × Id) := []

/-- One member at the group's start; none when it is one already, or has an index of another's. -/
def joinMember (restored : Restored Id) (newest : NodeIndex → Option (DataValue V)) (now : TimePoint)
    (j : Joining V Id) (m : Member Id) : Option (Joining V Id) :=
  match restored.members.lookup m.node with
  | some known =>
    if j.group.issues || known == m.index then
      match j.group.insert m.node m.config known with
      | (none, _) => none
      | (some index, group) =>
        -- the stop is its break, unless the files hold nothing of it
        let group := match newest index with
          | none => group
          | some value => { group with nodes := group.nodes.modify index fun node =>
              { node with broke := restored.flushed }.resume value now }
        some { j with group, kept := j.kept ++ [known] }
    else joinNew m
  | none => joinNew m
where
  /-- One the files do not know. -/
  joinNew (m : Member Id) : Option (Joining V Id) :=
    match j.group.insert m.node m.config m.index with
    | (none, _) => none
    | (some index, group) =>
      if restored.members.any fun e => e.2 == index then none
      else some { j with group, added := j.added ++ [(index, m.node)] }

def joinMembers (restored : Restored Id) (newest : NodeIndex → Option (DataValue V)) (now : TimePoint) :
    List (Member Id) → Joining V Id → Option (Joining V Id)
  | [], j => some j
  | m :: ms, j => (joinMember restored newest now j m).bind (joinMembers restored newest now ms)

/-- A node the files know and the host no longer names. -/
def leaveKnown (now : TimePoint) (g : Group V Id) (e : Id × NodeIndex) : Group V Id :=
  let gone := if (g.gone.find? e.2).isSome then g.gone else g.gone.insert e.2 e.1
  (({ g with gone }.remember e.2 e.1).holdChange env (.removed e.2 now none) (env.changeBytes none none)).2

def joinHeld (now : TimePoint) (g : Group V Id) (e : NodeIndex × Id) : Group V Id :=
  (g.holdChange env (.added e.1 e.2 now none) (env.changeBytes none (some e.2))).2

/-- A group of the store, from what its files restore and each index's newest record in them. -/
def construct (store : Store) (issues : Bool) (publishingInterval : Duration) (restored : Restored Id)
    (newest : NodeIndex → Option (DataValue V)) (members : List (Member Id)) (now : TimePoint) :
    Option (Group V Id) :=
  (joinMembers restored newest now members
    { group := { store, issues, publishingInterval, nextIndex := restored.nextIndex } }).map fun j =>
      let g := (restored.members.filter fun e => !j.kept.contains e.2).foldl (leaveKnown env now) j.group
      j.added.foldl (joinHeld env now) g

open Buffer

variable {P : NodeIndex → Prop}

theorem insert_buffer (g : Group V Id) (node : Id) (config : Thresholds) (index : NodeIndex) :
    (g.insert node config index).2.buffer = g.buffer := by
  simp only [insert, remember]
  split_ifs <;> rfl

variable {restored : Restored Id} {newest : NodeIndex → Option (DataValue V)} {now : TimePoint}

theorem joinMember_buffer {j j' : Joining V Id} {m : Member Id} (h : joinMember restored newest now j m = some j') :
    j'.group.buffer = j.group.buffer := by
  have hnew : ∀ {j'}, joinMember.joinNew restored j m = some j' → j'.group.buffer = j.group.buffer := by
    intro j' h
    have hinsert := insert_buffer j.group m.node m.config m.index
    simp only [joinMember.joinNew] at h
    split at h
    · cases h
    · rename_i hi
      rw [hi] at hinsert
      split_ifs at h
      cases h
      exact hinsert
  simp only [joinMember] at h
  split at h
  · rename_i known _
    have hinsert := insert_buffer j.group m.node m.config known
    split_ifs at h
    · split at h
      · cases h
      · rename_i hi
        rw [hi] at hinsert
        cases h
        rw [← hinsert]
        split <;> rfl
    · exact hnew h
  · exact hnew h

theorem joinMembers_buffer
    {ms : List (Member Id)} {j j' : Joining V Id} (h : joinMembers restored newest now ms j = some j') :
    j'.group.buffer = j.group.buffer := by
  induction ms generalizing j with
  | nil =>
    cases h
    rfl
  | cons m ms ih =>
    obtain ⟨j₁, hm, hms⟩ := Option.bind_eq_some_iff.mp h
    rw [ih hms, joinMember_buffer hm]

omit [DecidableEq Id] in
theorem holdChange_path {g : Group V Id} {b : Buffer V Id} (hb : g.buffer = b) (c : Change Id) (bytes : ℕ) :
    Path env P b (g.holdChange env c bytes).2.buffer := by
  have hstep : Step env P g.buffer (g.holdChange env c bytes).2.buffer := .change c bytes
  rw [← hb]
  exact hstep.path

omit [DecidableEq Id] in
theorem foldl_path {α : Type*} {f : Group V Id → α → Group V Id}
    (hf : ∀ g x, Path env P g.buffer (f g x).buffer) (l : List α) (g : Group V Id) :
    Path env P g.buffer (l.foldl f g).buffer := by
  induction l generalizing g with
  | nil => exact .refl _
  | cons x l ih => exact (hf g x).trans (ih _)

omit [DecidableEq Id] in
theorem remember_buffer (g : Group V Id) (index : NodeIndex) (node : Id) :
    (g.remember index node).buffer = g.buffer := by
  simp only [remember]
  split_ifs <;> rfl

theorem construct_path {store : Store} {issues : Bool} {publishingInterval : Duration}
    {members : List (Member Id)} {g : Group V Id}
    (h : construct env store issues publishingInterval restored newest members now = some g) :
    Path env P ({ store } : Group V Id).buffer g.buffer := by
  obtain ⟨j, hj, rfl⟩ := Option.map_eq_some_iff.mp h
  have hstart : j.group.buffer = ({ store } : Group V Id).buffer := joinMembers_buffer hj
  rw [← hstart]
  have hleave : ∀ (g : Group V Id) e, Path env P g.buffer (leaveKnown env now g e).buffer := by
    intro g e
    refine holdChange_path env ?_ _ _
    rw [remember_buffer]
    rfl
  have hjoin : ∀ (g : Group V Id) e, Path env P g.buffer (joinHeld env now g e).buffer :=
    fun g e => holdChange_path env rfl _ _
  exact (foldl_path env hleave _ _).trans (foldl_path env hjoin _ _)

end Group

end OpcHub.Historian
