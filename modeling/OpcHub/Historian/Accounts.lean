import Mathlib.Algebra.Order.BigOperators.Group.List
import OpcHub.Historian.Construct
import OpcHub.Historian.Order

/-! The count against `maxBuffer`, over all the groups of a store. Each group holds
the cost of what it buffers and the store the sum of the groups' costs, whatever
the groups do and in whatever order. So nothing ever asks the store for more than is
there, and once every group is gone it counts nothing. -/

namespace OpcHub.Historian

open Lib Historian.Group List OrdMap

variable {V Id : Type*} (env : Env V Id)

@[simp] theorem costs_nil {α : Type*} : costs env ([] : List (Buffered α)) = 0 := rfl

@[simp] theorem costs_append {α : Type*} (l l' : List (Buffered α)) :
    costs env (l ++ l') = costs env l + costs env l' := by
  simp [costs]

theorem costs_filter {α : Type*} (p : Buffered α → Bool) (l : List (Buffered α)) :
    costs env (l.filter p) + costs env (l.filter fun b => !p b) = costs env l := by
  rw [← costs_append]
  exact ((filter_append_perm p l).map (cost env)).sum_eq

theorem costs_le_of_sublist {α : Type*} {l l' : List (Buffered α)} (h : l.Sublist l') : costs env l ≤ costs env l' :=
  (h.map (cost env)).sum_le_sum fun _ _ => Nat.zero_le _

/-- A buffer's count, the other groups holding `rest`. -/
structure Buffer.Accounts (rest : ℕ) (b : Buffer V Id) : Prop where
  held : b.held = costs env b.changes + costs env b.values
  total : b.store.buffered = b.held + rest

namespace Buffer.Accounts

variable {env} {rest : ℕ} {b b' : Buffer V Id}

theorem take_out {values out : List (Buffered (DataValue V))} (h : b.Accounts env rest)
    (hcosts : costs env out + costs env values = costs env b.values) (lost : OrdMap NodeIndex (Lost V)) :
    ({ b with
      values := values
      held := b.held - costs env out
      store := { b.store with buffered := b.store.buffered - min b.store.buffered (costs env out) }
      lost := lost } : Buffer V Id).Accounts env rest := by
  have hheld := h.held
  have htotal := h.total
  refine ⟨?_, ?_⟩
  · simp only
    omega
  · simp only
    omega

theorem step {P : NodeIndex → Prop} (h : b.Accounts env rest) (hs : Buffer.Step env P b b') :
    b'.Accounts env rest := by
  have hheld := h.held
  have htotal := h.total
  cases hs with
  | value | change =>
    refine ⟨?_, ?_⟩
    · simp only [count, costs_append]
      simp only [costs, cost, map_cons, map_nil, sum_cons, sum_nil] at hheld ⊢
      omega
    · simp only [count]
      omega
  | drop p => exact take_out h (costs_filter env p b.values) b.lost
  | dropLost _ _ => exact ⟨h.held, h.total⟩

theorem path {P : NodeIndex → Prop} (h : b.Accounts env rest) (hs : Buffer.Path env P b b') : b'.Accounts env rest :=
  Buffer.Path.invariant (fun _ _ hs h => step h hs) hs h

end Buffer.Accounts

namespace Group

variable {env} {g : Group V Id} {rest : ℕ}

theorem drop_accounts (h : g.buffer.Accounts env rest) (before need : ℕ) :
    (g.drop env before need).2.buffer.Accounts env rest := by
  obtain ⟨n, hbuffer, -⟩ := drop_spec env g before need
  rw [hbuffer]
  refine h.take_out ?_ _
  rw [← costs_append, take_append_drop]
  rfl

theorem take_accounts (h : g.buffer.Accounts env rest) (now : TimePoint) :
    (g.take env now).2.2.buffer.Accounts env rest := by
  have hheld : g.held = costs env g.changes + costs env g.values := h.held
  have htotal : g.store.buffered = g.held + rest := h.total
  have hsplit := costs_filter env (g.takes now) g.values
  rw [take_buffer]
  refine ⟨?_, ?_⟩
  · simp
  · simp only
    omega

omit env in
theorem costs_valuesOf (env : Env V Id) (l : List (Buffered (Record V Id))) :
    costs env (changesOf l) + costs env (valuesOf l) = costs env l := by
  induction l with
  | nil => rfl
  | cons b l ih =>
    obtain ⟨item, sequence, bytes, copied, released⟩ := b
    cases item with
    | change | value =>
      simp only [changesOf, valuesOf, filterMap_cons, costs, cost, Buffered.map, map_cons,
        sum_cons] at ih ⊢
      omega

end Group

namespace System

variable {env} {s s' : System V Id} {rest : ℕ}

theorem finish_accounts (h : s.group.buffer.Accounts env rest) (fl : Flush) :
    (s.finish env fl).group.buffer.Accounts env rest := by
  by_cases hheld : fl.held = []
  · rw [finish_of_not_held hheld]
    exact h
  · have hcosts : s.group.held = costs env s.group.changes + costs env s.group.values := h.held
    have htotal : s.group.store.buffered = s.group.held + rest := h.total
    have hback := costs_valuesOf env (bySequence (s.group.batchAt fl.held))
    have hbatch := costs_bySequence env (s.group.batchAt fl.held)
    have hgaps := costs_bySequence env (s.group.lostRecords env)
    rw [finish_of_held hheld]
    refine ⟨?_, ?_⟩
    · simp only [costs_append]
      omega
    · simp only
      omega

variable {walkBack : GroupFiles V Id → NodeIndex → Ticks → Option (DataValue V)} [DecidableEq Id]

theorem step_accounts (h : s.group.buffer.Accounts env rest) {a : Action V Id}
    (ha : ∀ sequence buffered, a ≠ .others sequence buffered) (hs : s.step env walkBack a = some s') :
    s'.group.buffer.Accounts env rest := by
  cases step_does hs with
  | perform op hg _ _ _ =>
    rw [hg]
    exact h.path (s.group.perform_path env op)
  | others sequence buffered _ _ => exact absurd rfl (ha sequence buffered)
  | trim before need => exact drop_accounts h before need
  | take now _ => exact take_accounts h now
  | finish _ _ => exact finish_accounts h _
  | carries hc =>
    rw [hc.buffer]
    exact h

end System

/-- The groups of a store, each with its files and its flush. -/
structure Groups (V Id : Type*) where
  store : Store := {}
  groups : OrdMap ℕ (System V Id) := ∅

/-- What happens to a store's groups: one is made, one acts, one is destroyed. -/
inductive GroupAction (V Id : Type*) where
  | construct (id : ℕ) (files : GroupFiles V Id) (issues : Bool) (publishingInterval : Duration)
    (restored : Restored Id) (newest : NodeIndex → Option (DataValue V)) (members : List (Member Id))
    (now : TimePoint)
  | act (id : ℕ) (a : Action V Id)
  | destroy (id : ℕ)

namespace Groups

/-- A group as it acts: the store's counts are its own for the while. -/
def withStore (store : Store) (s : System V Id) : System V Id := { s with group := { s.group with store } }

variable [DecidableEq Id] (walkBack : GroupFiles V Id → NodeIndex → Ticks → Option (DataValue V))

/-- One action; what other groups count comes from their own. -/
def step (h : Groups V Id) : GroupAction V Id → Option (Groups V Id)
  | .construct id files issues publishingInterval restored newest members now =>
    if h.groups.contains id then none
    else (construct env h.store issues publishingInterval restored newest members now).map fun group =>
      ⟨group.store, h.groups.insert id { group, files }⟩
  | .act id a =>
    match a, h.groups.find? id with
    | .others .., _ => none
    | _, none => none
    | a, some s => ((withStore h.store s).step env walkBack a).map fun s' =>
      ⟨s'.group.store, h.groups.insert id s'⟩
  | .destroy id =>
    match h.groups.find? id with
    | none => none
    | some s => match s.phase with
      -- a running flush holds its group
      | .idle => some ⟨{ h.store with
          buffered := h.store.buffered - min h.store.buffered s.group.held }, h.groups.erase id⟩
      | _ => none

def run (h : Groups V Id) : List (GroupAction V Id) → Option (Groups V Id)
  | [] => some h
  | a :: as => (h.step env walkBack a).bind fun h => h.run as

/-- What the groups hold together. -/
def held (h : Groups V Id) : ℕ := (h.groups.values.map fun s => s.group.held).sum

/-- Every group counts what it buffers, and the store what they hold. -/
structure Accounts (h : Groups V Id) : Prop where
  held : ∀ id s, h.groups.find? id = some s →
    s.group.held = costs env s.group.changes + costs env s.group.values
  total : h.store.buffered = h.held

variable {env walkBack} {h h' : Groups V Id}

omit [DecidableEq Id] in
theorem held_insert (groups : OrdMap ℕ (System V Id)) (id : ℕ) (s : System V Id) (store store' : Store) :
    (⟨store, groups.insert id s⟩ : Groups V Id).held =
      s.group.held + (⟨store', groups.erase id⟩ : Groups V Id).held := by
  have hperm := (insert_perm groups id s).map fun e => e.2.group.held
  simpa [held, OrdMap.values, Function.comp_def] using hperm.sum_eq

omit [DecidableEq Id] in
theorem held_of_find {groups : OrdMap ℕ (System V Id)} {id : ℕ} {s : System V Id}
    (hs : groups.find? id = some s) (store store' : Store) :
    (⟨store, groups⟩ : Groups V Id).held = s.group.held + (⟨store', groups.erase id⟩ : Groups V Id).held := by
  have hperm := (perm_cons_erase hs).map fun e => e.2.group.held
  simpa [held, OrdMap.values, Function.comp_def] using hperm.sum_eq

omit [DecidableEq Id] in
theorem Accounts.group (ha : h.Accounts env) {id : ℕ} {s : System V Id} (hs : h.groups.find? id = some s) :
    (withStore h.store s).group.buffer.Accounts env (⟨h.store, h.groups.erase id⟩ : Groups V Id).held :=
  ⟨ha.held id s hs, ha.total.trans (held_of_find hs h.store h.store)⟩

omit [DecidableEq Id] in
theorem Accounts.put (ha : h.Accounts env) {id : ℕ} {s : System V Id}
    (hs : s.group.buffer.Accounts env (⟨h.store, h.groups.erase id⟩ : Groups V Id).held) :
    (⟨s.group.store, h.groups.insert id s⟩ : Groups V Id).Accounts env := by
  refine ⟨?_, ?_⟩
  · intro id' s' hs'
    rw [find?_insert] at hs'
    split_ifs at hs'
    · cases hs'
      exact hs.held
    · exact ha.held id' s' hs'
  · exact hs.total.trans (held_insert h.groups id s s.group.store h.store).symm

theorem step_accounts (ha : h.Accounts env) {a : GroupAction V Id} (hs : h.step env walkBack a = some h') :
    h'.Accounts env := by
  cases a with
  | construct id files issues publishingInterval restored newest members now =>
    simp only [step] at hs
    split_ifs at hs with hid
    obtain ⟨group, hgroup, rfl⟩ := Option.map_eq_some_iff.mp hs
    have hnone : h.groups.find? id = none := by simpa [OrdMap.contains] using hid
    have herase : h.groups.erase id = h.groups := erase_eq_self hnone
    have hstart : ({ store := h.store } : Group V Id).buffer.Accounts env
        (⟨h.store, h.groups.erase id⟩ : Groups V Id).held := by
      refine ⟨by simp [buffer], ?_⟩
      rw [herase]
      simpa [buffer] using ha.total
    have hpath : Buffer.Path env (fun _ => False) ({ store := h.store } : Group V Id).buffer group.buffer :=
      construct_path env hgroup
    exact ha.put (s := { group, files }) (hstart.path hpath)
  | act id a =>
    simp only [step] at hs
    split at hs
    · cases hs
    · cases hs
    · rename_i a s hothers hfind
      obtain ⟨s', hstep, rfl⟩ := Option.map_eq_some_iff.mp hs
      exact ha.put (System.step_accounts (ha.group hfind) (fun q n => hothers q n) hstep)
  | destroy id =>
    simp only [step] at hs
    split at hs
    · cases hs
    · rename_i s hfind
      split at hs
      · cases hs
        have htotal := ha.total.trans (held_of_find hfind h.store h.store)
        refine ⟨?_, ?_⟩
        · intro id' s' hs'
          simp only [find?_erase] at hs'
          split_ifs at hs'
          exact ha.held id' s' hs'
        · have hrest : ∀ store : Store, (⟨store, h.groups.erase id⟩ : Groups V Id).held =
              (⟨h.store, h.groups.erase id⟩ : Groups V Id).held := fun _ => rfl
          rw [hrest]
          simp only
          omega
      · cases hs

theorem run_accounts (ha : h.Accounts env) {as : List (GroupAction V Id)} (hs : h.run env walkBack as = some h') :
    h'.Accounts env := by
  induction as generalizing h with
  | nil =>
    cases hs
    exact ha
  | cons a as ih =>
    obtain ⟨h₁, hstep, hrun⟩ := Option.bind_eq_some_iff.mp hs
    exact ih (step_accounts ha hstep) hrun

/-- In every run of a store's groups each counts what it buffers and the store the sum. Whatever a call
then stores and drops, no part of a group's values costs more than the group holds, or that more than
the store counts. -/
theorem accounts_kept {as : List (GroupAction V Id)} (hs : ({} : Groups V Id).run env walkBack as = some h) :
    (∀ id s, h.groups.find? id = some s →
      s.group.held = costs env s.group.changes + costs env s.group.values ∧
      ∀ b, Buffer.Path env (fun _ => True) (withStore h.store s).group.buffer b →
        (∀ l, l.Sublist b.values → costs env l ≤ b.held) ∧ b.held ≤ b.store.buffered) ∧
    h.store.buffered = h.held ∧ (h.groups = ∅ → h.store.buffered = 0) := by
  have hstart : ({} : Groups V Id).Accounts env := ⟨fun id s hs => absurd hs (by simp), rfl⟩
  have ha := run_accounts hstart hs
  refine ⟨fun id s hfind => ⟨ha.held id s hfind, fun b hb => ?_⟩, ha.total, fun hnone => ?_⟩
  · have hgroup := (ha.group hfind).path hb
    refine ⟨fun l hl => ?_, ?_⟩
    · have := costs_le_of_sublist env hl
      rw [hgroup.held]
      omega
    · rw [hgroup.total]
      omega
  · rw [ha.total, held, hnone]
    rfl

end Groups

/-- Two groups are made; one buffers a value, fails to write it and its own join and gets both back, the
other is destroyed. -/
def twoGroups : List (GroupAction ℕ ℕ) :=
  [.construct 0 {} true 0 {} (fun _ => none) [⟨7, {}, 0⟩] 0,
    .construct 1 {} true 0 { members := [(9, 4)], nextIndex := 5 } (fun _ => none) [⟨8, {}, 0⟩] 0,
    .act 0 (arrives 5 10), .act 0 (.take 0), .act 0 .taking, .act 0 .prepare, .act 0 .fail, .act 0 .prepare,
    .act 0 .fail, .act 0 .finish, .act 0 .endFlush, .destroy 1]

theorem twoGroups_accounts : ∃ h, ({} : Groups ℕ ℕ).run plainHost nothingBefore twoGroups = some h ∧
    h.store.buffered = 56 ∧
    (∀ id s, h.groups.find? id = some s →
      s.group.held = costs plainHost s.group.changes + costs plainHost s.group.values ∧
      ∀ b, Buffer.Path plainHost (fun _ => True) (Groups.withStore h.store s).group.buffer b →
        (∀ l, l.Sublist b.values → costs plainHost l ≤ b.held) ∧ b.held ≤ b.store.buffered) ∧
    h.store.buffered = h.held ∧ (h.groups = ∅ → h.store.buffered = 0) := by
  have hrun : (({} : Groups ℕ ℕ).run plainHost nothingBefore twoGroups).map (fun h => h.store.buffered) =
      some 56 := by
    decide
  obtain ⟨h, hs, htotal⟩ := Option.map_eq_some_iff.mp hrun
  exact ⟨h, hs, htotal, Groups.accounts_kept hs⟩

end OpcHub.Historian
