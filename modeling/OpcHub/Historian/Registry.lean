import OpcHub.Historian.Rounds

/-! The historian's groups by name. A name is held from AddGroup's first look at
it until the group of that name, removed, has written what it buffered and is
ended; a group object can outlive its name, and its host can still ask it for a
flush. Every step is one hold of the historian's lock or one of a group's. -/

namespace OpcHub.Historian

open Lib List Option

variable {N A : Type*}

/-- What a historian knows of its groups. -/
structure Registry (N A : Type*) where
  /-- Every group constructed, in order. -/
  made : List (N × Rounds A) := []
  groups : List (N × ℕ) := []
  /-- The names AddGroup holds, each with its group once that is constructed. -/
  adding : List (N × Option ℕ) := []
  removed : List (N × ℕ) := []
  deriving DecidableEq

/-- A group under its name, by its place among those made. -/
def held (group : N × ℕ) : N × Option ℕ := (group.1, some group.2)

/-- The names in use, and what holds each. -/
def Registry.holders (s : Registry N A) : List (N × Option ℕ) :=
  s.groups.map held ++ s.adding ++ s.removed.map held

/-- The steps of a group's own and of those who hold it: the historian's end and its sweep are not. -/
def Rounds.Move.ofHost : Rounds.Move A → Bool
  | .stopping _ _ => false
  | .stopped _ => false
  | .endIfWritten => false
  | _ => true

inductive Registry.Move (N A : Type*) where
  /-- AddGroup finds the name free and holds it. -/
  | addGroup (name : N)
  /-- The group's constructor returns. -/
  | construct (name : N) (archived buffered : Bool)
  /-- The group's constructor throws. -/
  | throws (name : N)
  | install (name : N) (i : ℕ)
  | removeGroup (name : N) (i : ℕ)
  /-- AddGroup or RemoveGroup ends a removed group that has written what it buffered. -/
  | sweep (name : N) (i : ℕ)
  /-- A group's own step. -/
  | act (i : ℕ) (move : Rounds.Move A)

namespace Registry

variable [DecidableEq N] [DecidableEq A]

def step (s : Registry N A) : Move N A → Option (Registry N A)
  | .addGroup name =>
    if name ∈ s.holders.map Prod.fst then none else some { s with adding := (name, none) :: s.adding }
  | .construct name archived buffered =>
    if (name, none) ∈ s.adding then
      some { s with
        made := s.made ++ [(name, .fresh archived buffered)]
        adding := (name, some s.made.length) :: s.adding.erase (name, none) }
    else none
  | .throws name =>
    if (name, none) ∈ s.adding then some { s with adding := s.adding.erase (name, none) } else none
  | .install name i =>
    if (name, some i) ∈ s.adding then
      some { s with adding := s.adding.erase (name, some i), groups := (name, i) :: s.groups }
    else none
  | .removeGroup name i =>
    if (name, i) ∈ s.groups then
      some { s with groups := s.groups.erase (name, i), removed := (name, i) :: s.removed }
    else none
  | .sweep name i =>
    if (name, i) ∈ s.removed then
      match s.made[i]? with
      | some (owner, group) =>
        group.endIfWritten.map fun group =>
          { s with made := s.made.set i (owner, group), removed := s.removed.erase (name, i) }
      | none => none
    else none
  | .act i move =>
    if move.ofHost then
      match s.made[i]? with
      | some (name, group) => (group.step move).map fun group => { s with made := s.made.set i (name, group) }
      | none => none
    else none

def run : Registry N A → List (Move N A) → Option (Registry N A)
  | s, [] => some s
  | s, m :: ms => (s.step m).bind fun s => s.run ms

end Registry

/-- A group that writes no more: it is ended, and no flush of it is under way. -/
def Rounds.Done (r : Rounds A) : Prop := r.ended = true ∧ r.flushing = false

section Done

variable {r r' : Rounds A}

theorem Rounds.endIfWritten_done (h : r.endIfWritten = some r') : r'.Done := by
  unfold Rounds.endIfWritten at h
  split at h
  · cases h
  · rename_i hnot
    cases h
    simp only [Bool.or_eq_true, not_or, Bool.not_eq_true] at hnot
    exact ⟨rfl, hnot.2⟩

theorem Rounds.Done.step [DecidableEq A] (h : r.Done) (hr : r.Single) {m : Rounds.Move A} (hm : m.ofHost = true)
    (hstep : r.step m = some r') : r'.Done := by
  obtain ⟨hended, hflushing⟩ := h
  have hnone : ∀ {i : ℕ} {c : Coroutine A}, r.flushes[i]? = some c → c.runs = true → False := fun hi hc =>
    Bool.false_ne_true (hflushing.symm.trans (hr.flushing_of_runs hi hc))
  cases m with
  | stopping | stopped | endIfWritten => cases hm
  | ready kind id =>
    simp only [Rounds.step] at hstep
    split_ifs at hstep
    all_goals exact some.inj hstep ▸ ⟨hended, hflushing⟩
  | suspend kind id =>
    obtain ⟨-, rfl⟩ := of_guard hstep
    cases kind <;> simp [Rounds.ask, Rounds.waits, hended, Rounds.Done, hflushing]
  | request =>
    cases hstep
    simp [Rounds.request, hended, Rounds.Done, hflushing]
  | close | buffer => exact some.inj hstep ▸ ⟨hended, hflushing⟩
  | dismiss | fail =>
    obtain ⟨-, rfl⟩ := of_guard hstep
    exact ⟨hended, hflushing⟩
  | goAround | archive => simp [Rounds.step, hflushing] at hstep
  | take i =>
    simp only [Rounds.step] at hstep
    split_ifs at hstep with hi
    exact (hnone hi rfl).elim
  | endPass i =>
    simp only [Rounds.step] at hstep
    split at hstep
    · rename_i hi
      exact (hnone hi rfl).elim
    · cases hstep
  | resume i =>
    simp only [Rounds.step] at hstep
    split at hstep
    · exact some.inj hstep ▸ ⟨hended, hflushing⟩
    · cases hstep
  | leave i =>
    simp only [Rounds.step] at hstep
    split at hstep
    · exact some.inj hstep ▸ ⟨hended, hflushing⟩
    · exact some.inj hstep ▸ ⟨hended, hflushing⟩
    · cases hstep

theorem Rounds.Done.countP (h : r.Done) (hr : r.Single) : r.flushes.countP Coroutine.runs = 0 := by
  rw [hr.one, h.2]
  rfl

end Done

namespace Registry

/-- What the historian's locks keep: a name has one holder, and a group of a name that another holds,
or none, is done. -/
structure Sound (s : Registry N A) : Prop where
  names : (s.holders.map Prod.fst).Nodup
  single : ∀ (i : ℕ) name (r : Rounds A), s.made[i]? = some (name, r) → r.Single
  holds : ∀ (i : ℕ) name (r : Rounds A), s.made[i]? = some (name, r) → (name, some i) ∈ s.holders ∨ r.Done
  earlier : ∀ (i j : ℕ) name (r r' : Rounds A), i < j → s.made[i]? = some (name, r) → s.made[j]? = some (name, r') →
    r.Done

variable {s s' : Registry N A}

theorem Sound.of_holders (h : s.Sound) (hmade : s'.made = s.made) (hnames : (s'.holders.map Prod.fst).Nodup)
    (hmem : ∀ name i, (name, some i) ∈ s.holders → (name, some i) ∈ s'.holders) : s'.Sound where
  names := hnames
  single i name r hi := h.single i name r (hmade ▸ hi)
  holds i name r hi := (h.holds i name r (hmade ▸ hi)).imp_left (hmem name i)
  earlier i j name r r' hij hi hj := h.earlier i j name r r' hij (hmade ▸ hi) (hmade ▸ hj)

theorem Sound.of_set (h : s.Sound) {k : ℕ} {owner : N} {r r' : Rounds A} (hk : s.made[k]? = some (owner, r))
    (hmade : s'.made = s.made.set k (owner, r')) (hnames : (s'.holders.map Prod.fst).Nodup) (hr' : r'.Single)
    (hdone : r.Done → r'.Done)
    (hmem : ∀ name i, (name, some i) ∈ s.holders → (name, some i) ∈ s'.holders ∨ i = k ∧ r'.Done) : s'.Sound := by
  have hcases : ∀ {i : ℕ} {name : N} {x : Rounds A}, s'.made[i]? = some (name, x) →
      i = k ∧ name = owner ∧ x = r' ∨ i ≠ k ∧ s.made[i]? = some (name, x) := by
    intro i name x hi
    rw [hmade, getElem?_set] at hi
    by_cases hik : k = i
    · have hlt : k < s.made.length := (List.getElem?_eq_some_iff.mp hk).1
      rw [if_pos hik, if_pos hlt] at hi
      obtain ⟨rfl, rfl⟩ := Prod.mk.inj (some.inj hi)
      exact .inl ⟨hik.symm, rfl, rfl⟩
    · rw [if_neg hik] at hi
      exact .inr ⟨Ne.symm hik, hi⟩
  refine ⟨hnames, fun i name x hi => ?_, fun i name x hi => ?_, fun i j name x x' hij hi hj => ?_⟩
  · obtain ⟨-, -, rfl⟩ | ⟨-, hi⟩ := hcases hi
    · exact hr'
    · exact h.single i name x hi
  · obtain ⟨rfl, rfl, rfl⟩ | ⟨hne, hi⟩ := hcases hi
    · obtain hheld | hr := h.holds _ _ _ hk
      · exact (hmem _ _ hheld).imp_right And.right
      · exact .inr (hdone hr)
    · refine (h.holds i name x hi).imp_left fun hheld => ?_
      exact (hmem name i hheld).resolve_right fun h => hne h.1
  · obtain ⟨rfl, rfl, rfl⟩ | ⟨hne, hi⟩ := hcases hi
    · obtain ⟨rfl, -, -⟩ | ⟨-, hj⟩ := hcases hj
      · exact absurd hij (Nat.lt_irrefl _)
      · exact hdone (h.earlier _ j _ r x' hij hk hj)
    · obtain ⟨rfl, rfl, rfl⟩ | ⟨-, hj⟩ := hcases hj
      · exact h.earlier i _ _ x r hij hi hk
      · exact h.earlier i j name x x' hij hi hj

theorem Sound.holder_unique (h : s.Sound) {name : N} {x y : Option ℕ} (hx : (name, x) ∈ s.holders)
    (hy : (name, y) ∈ s.holders) : x = y :=
  congrArg Prod.snd (inj_on_of_nodup_map h.names hx hy rfl)

theorem Sound.construct (h : s.Sound) {name : N} {r : Rounds A} (hadding : (name, none) ∈ s.holders)
    (hmade : s'.made = s.made ++ [(name, r)]) (hr : r.Single) (hnames : (s'.holders.map Prod.fst).Nodup)
    (hnew : (name, some s.made.length) ∈ s'.holders)
    (hmem : ∀ name i, (name, some i) ∈ s.holders → (name, some i) ∈ s'.holders) : s'.Sound := by
  have hcases : ∀ {i : ℕ} {owner : N} {x : Rounds A}, s'.made[i]? = some (owner, x) →
      i = s.made.length ∧ owner = name ∧ x = r ∨ i < s.made.length ∧ s.made[i]? = some (owner, x) := by
    intro i owner x hi
    rw [hmade] at hi
    obtain hlt | hge := Nat.lt_or_ge i s.made.length
    · exact .inr ⟨hlt, by rwa [getElem?_append_left hlt] at hi⟩
    · rw [getElem?_append_right hge, getElem?_singleton] at hi
      split_ifs at hi with hzero
      obtain ⟨rfl, rfl⟩ := Prod.mk.inj (some.inj hi)
      exact .inl ⟨by omega, rfl, rfl⟩
  refine ⟨hnames, fun i owner x hi => ?_, fun i owner x hi => ?_, fun i j owner x x' hij hi hj => ?_⟩
  · obtain ⟨-, -, rfl⟩ | ⟨-, hi⟩ := hcases hi
    · exact hr
    · exact h.single i owner x hi
  · obtain ⟨rfl, rfl, -⟩ | ⟨-, hi⟩ := hcases hi
    · exact .inl hnew
    · exact (h.holds i owner x hi).imp_left (hmem owner i)
  · obtain ⟨rfl, -, -⟩ | ⟨-, hi⟩ := hcases hi
    · obtain ⟨rfl, -, -⟩ | ⟨hlt, -⟩ := hcases hj
      · exact absurd hij (Nat.lt_irrefl _)
      · exact absurd (Nat.lt_trans hij hlt) (Nat.lt_irrefl _)
    · obtain ⟨-, rfl, -⟩ | ⟨-, hj⟩ := hcases hj
      · -- the name was AddGroup's, so no earlier group held it
        refine (h.holds i _ x hi).resolve_left fun hheld => ?_
        exact absurd (h.holder_unique hadding hheld).symm (some_ne_none _)
      · exact h.earlier i j owner x x' hij hi hj

variable [DecidableEq N] [DecidableEq A]

section Holders

variable (s : Registry N A)

omit [DecidableEq N] [DecidableEq A] in
theorem holders_adding (x : N × Option ℕ) (adding : List (N × Option ℕ)) :
    ({ s with adding := x :: adding } : Registry N A).holders.Perm
      (x :: ({ s with adding := adding } : Registry N A).holders) :=
  perm_middle.append_right _

omit [DecidableEq A] in
theorem holders_erase_adding {x : N × Option ℕ} (h : x ∈ s.adding) :
    s.holders.Perm (x :: ({ s with adding := s.adding.erase x } : Registry N A).holders) :=
  (((perm_cons_erase h).append_left _).append_right _).trans (s.holders_adding x _)

omit [DecidableEq A] in
theorem holders_erase_groups {g : N × ℕ} (h : g ∈ s.groups) :
    s.holders.Perm (held g :: ({ s with groups := s.groups.erase g } : Registry N A).holders) :=
  (((perm_cons_erase h).map held).append_right _).append_right _

omit [DecidableEq N] [DecidableEq A] in
theorem holders_removed (g : N × ℕ) (removed : List (N × ℕ)) :
    ({ s with removed := g :: removed } : Registry N A).holders.Perm
      (held g :: ({ s with removed := removed } : Registry N A).holders) :=
  perm_middle

omit [DecidableEq A] in
theorem holders_erase_removed {g : N × ℕ} (h : g ∈ s.removed) :
    s.holders.Perm (held g :: ({ s with removed := s.removed.erase g } : Registry N A).holders) :=
  (((perm_cons_erase h).map held).append_left _).trans (s.holders_removed g _)

end Holders

omit [DecidableEq N] [DecidableEq A] in
theorem Sound.of_perm (h : s.Sound) (hmade : s'.made = s.made) (hperm : s'.holders.Perm s.holders) : s'.Sound :=
  h.of_holders hmade ((hperm.map _).nodup_iff.mpr h.names) fun _ _ => hperm.mem_iff.mpr

theorem step_sound (h : s.Sound) {m : Move N A} (hstep : s.step m = some s') : s'.Sound := by
  cases m with
  | addGroup name =>
    obtain ⟨hfree, rfl⟩ := of_unless hstep
    have hperm := s.holders_adding (name, none) s.adding
    refine h.of_holders rfl ((hperm.map _).nodup_iff.mpr ?_) fun _ _ hmem => hperm.mem_iff.mpr (.tail _ hmem)
    exact nodup_cons.mpr ⟨hfree, h.names⟩
  | construct name archived buffered =>
    obtain ⟨hadding, rfl⟩ := of_guard hstep
    have hbefore := s.holders_erase_adding hadding
    have hafter := s.holders_adding (name, some s.made.length) (s.adding.erase (name, none))
    refine h.construct (hbefore.mem_iff.mpr (.head _)) rfl (Rounds.fresh_single _ _) ?_ (hafter.mem_iff.mpr (.head _))
      fun owner i hmem => hafter.mem_iff.mpr (.tail _ ?_)
    · exact (hafter.map _).nodup_iff.mpr ((hbefore.map _).nodup_iff.mp h.names)
    · exact (mem_cons.mp (hbefore.mem_iff.mp hmem)).resolve_left fun h => by simp at h
  | throws name =>
    obtain ⟨hadding, rfl⟩ := of_guard hstep
    have hbefore := s.holders_erase_adding hadding
    refine h.of_holders rfl (nodup_cons.mp ((hbefore.map _).nodup_iff.mp h.names)).2 fun owner i hmem => ?_
    exact (mem_cons.mp (hbefore.mem_iff.mp hmem)).resolve_left fun h => by simp at h
  | install name i =>
    obtain ⟨hadding, rfl⟩ := of_guard hstep
    exact h.of_perm rfl (s.holders_erase_adding hadding).symm
  | removeGroup name i =>
    obtain ⟨hgroup, rfl⟩ := of_guard hstep
    have hafter := holders_removed { s with groups := s.groups.erase (name, i) } (name, i) s.removed
    exact h.of_perm rfl (hafter.trans (s.holders_erase_groups hgroup).symm)
  | sweep name i =>
    simp only [step] at hstep
    split_ifs at hstep with hremoved
    split at hstep
    · rename_i owner group hi
      obtain ⟨r', hr', rfl⟩ := map_eq_some_iff.mp hstep
      have hbefore := s.holders_erase_removed hremoved
      have hdone := Rounds.endIfWritten_done hr'
      have hstep : group.step .endIfWritten = some r' := hr'
      refine h.of_set hi rfl (nodup_cons.mp ((hbefore.map _).nodup_iff.mp h.names)).2
        (Rounds.step_single (h.single i owner group hi) hstep) (fun _ => hdone) fun n j hmem => ?_
      obtain heq | hmem := mem_cons.mp (hbefore.mem_iff.mp hmem)
      · exact .inr ⟨some.inj (congrArg Prod.snd heq), hdone⟩
      · exact .inl hmem
    · cases hstep
  | act i move =>
    simp only [step] at hstep
    split_ifs at hstep with hmove
    split at hstep
    · rename_i name group hi
      obtain ⟨r', hr', rfl⟩ := map_eq_some_iff.mp hstep
      have hsingle := h.single i name group hi
      exact h.of_set hi rfl h.names (Rounds.step_single hsingle hr') (fun hdone => hdone.step hsingle hmove hr')
        fun _ _ hheld => .inl hheld
    · cases hstep

theorem run_sound {ms : List (Move N A)} (h : s.Sound) (hrun : s.run ms = some s') : s'.Sound := by
  induction ms generalizing s with
  | nil => exact some.inj hrun ▸ h
  | cons m ms ih =>
    obtain ⟨mid, hstep, hrun⟩ := bind_eq_some_iff.mp hrun
    exact ih (step_sound h hstep) hrun

omit [DecidableEq N] [DecidableEq A] in
theorem sound_empty : ({} : Registry N A).Sound :=
  ⟨nodup_nil, fun _ _ _ h => by simp at h, fun _ _ _ h => by simp at h, fun _ _ _ _ _ _ h => by simp at h⟩

/-- Whatever the interleaving, of two groups of one name the earlier is ended, has no flush under way,
and none of its requests starts one. -/
theorem earlier_group_done {ms : List (Move N A)} (hrun : ({} : Registry N A).run ms = some s) {i j : ℕ} {name : N}
    {r r' : Rounds A} (hij : i < j) (hi : s.made[i]? = some (name, r)) (hj : s.made[j]? = some (name, r')) :
    r.ended = true ∧ r.flushing = false ∧ r.flushes.countP Coroutine.runs = 0 ∧
      ∀ m r₁, m.ofHost = true → r.step m = some r₁ →
        r₁.ended = true ∧ r₁.flushing = false ∧ r₁.flushes.countP Coroutine.runs = 0 := by
  have hsound := run_sound sound_empty hrun
  have hdone := hsound.earlier i j name r r' hij hi hj
  have hsingle := hsound.single i name r hi
  refine ⟨hdone.1, hdone.2, hdone.countP hsingle, fun m r₁ hm hstep => ?_⟩
  have hdone₁ := hdone.step hsingle hm hstep
  exact ⟨hdone₁.1, hdone₁.2, hdone₁.countP (Rounds.step_single hsingle hstep)⟩

end Registry

/-- A group that is flushed, removed and closed, a name held until it is written, and a second group of
its name. -/
def nameReused : List (Registry.Move ℕ ℕ) :=
  [.addGroup 5, .throws 5, .addGroup 5, .construct 5 true true, .install 5 0, .removeGroup 5 0, .act 0 (.close true),
    .act 0 .request, .act 0 (.take 0 false), .act 0 (.archive true), .act 0 (.endPass 0), .act 0 (.leave 0),
    .sweep 5 0, .addGroup 5, .construct 5 true false]

/-- A Flush its host still asks of the first group is resumed and starts nothing. -/
theorem nameReused_done : ∃ s r r', ({} : Registry ℕ ℕ).run nameReused = some s ∧ s.made[0]? = some (5, r) ∧
    s.made[1]? = some (5, r') ∧ r.ended = true ∧ r.flushing = false ∧ r.flushes.countP Coroutine.runs = 0 ∧
      ∀ m r₁, m.ofHost = true → r.step m = some r₁ →
        r₁.ended = true ∧ r₁.flushing = false ∧ r₁.flushes.countP Coroutine.runs = 0 := by
  refine ⟨_, _, _, rfl, rfl, rfl, ?_⟩
  have hrun : ({} : Registry ℕ ℕ).run nameReused = some _ := rfl
  exact Registry.earlier_group_done hrun Nat.zero_lt_one rfl rfl

end OpcHub.Historian
