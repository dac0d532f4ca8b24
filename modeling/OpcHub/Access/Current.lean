import OpcHub.Access.Refresh
import OpcHub.Access.Shown

/-! The kept rights over whole runs. After a load and any events, with every pk a
user's before something names it, each user holds what recalculating everyone
would give it, but for one event in practice: a permission given to an identity whose pk was
no permission's, while acl rows or roles name that pk already. It refreshes the
identity and not the others those rows reach. A group whose pk is a user's too,
were there one, would take the user's rows with it when purged. -/

namespace OpcHub.Access

open OpcHub.Lib OrdMap Option Authorize

namespace Authorize

variable {s s' : Authorize} {g : GroupPK} {u : UserPK} {i : IdentityPK}

section Kinded

theorem toIdentityPK_congr (husers : ∀ u, s'.users.contains u = s.users.contains u) (pk : ℕ) :
    s'.toIdentityPK pk = s.toIdentityPK pk := by
  rw [toIdentityPK, husers]
  rfl

variable (h : s.Kinded)
include h

/-- Kinds are kept by what names nothing but what was named, or a pk by its kind. -/
theorem Kinded.of_named (husers : ∀ u, s'.users.contains u = s.users.contains u)
    (hacl : ∀ e ∈ s'.acl, e ∈ s.acl ∨ ∃ pk, e.1 = s.toIdentityPK pk)
    (hgroups : ∀ g x, s'.groups.find? g = some x → ∀ i ∈ x.members, s.Named i ∨ ∃ pk, i = s.toIdentityPK pk) :
    s'.Kinded := by
  intro i hnamed
  have hkind : s.Named i ∨ ∃ pk, i = s.toIdentityPK pk := by
    obtain ⟨p, hp⟩ | ⟨g, x, hx, hi⟩ := hnamed
    · exact (hacl _ hp).imp_left fun hold => .inl ⟨p, hold⟩
    · exact hgroups g x hx i hi
  rw [toIdentityPK_congr husers]
  obtain hold | ⟨pk, rfl⟩ := hkind
  · exact h i hold
  · rw [underlying_toIdentityPK]

theorem Kinded.of_groups_eq (husers : ∀ u, s'.users.contains u = s.users.contains u)
    (hacl : ∀ e ∈ s'.acl, e ∈ s.acl ∨ ∃ pk, e.1 = s.toIdentityPK pk) (hgroups : s'.groups = s.groups) : s'.Kinded :=
  h.of_named husers hacl fun g x hx _ hi => .inl (.inr ⟨g, x, hgroups ▸ hx, hi⟩)

theorem Kinded.collect (i : IdentityPK) : (s.collect i).1.Kinded :=
  h.of_groups_eq (contains_collect i) (fun e he => .inl (by simpa using he)) collect_groups

theorem Kinded.refresh (users : List UserPK) : (s.refresh users).Kinded :=
  h.of_groups_eq (contains_refresh users) (fun e he => .inl (by rwa [refresh_eq] at he)) (by rw [refresh_eq])

theorem Kinded.recalc : s.recalc.Kinded :=
  h.of_groups_eq contains_recalc (fun _ he => .inl he) rfl

theorem Kinded.recalcIdentity (i : IdentityPK) : (s.recalcIdentity i).Kinded := by
  cases i with
  | user u =>
    refine h.of_groups_eq (fun v => ?_) (fun _ he => .inl he) rfl
    exact (contains_setUserPermissions [u] v).trans (contains_collect (.user u) v)
  | group g => exact (h.collect (.group g)).refresh _

section

variable (g : GroupPK)

theorem Kinded.modify (f : Group → Group)
    (hf : ∀ x, ∀ i ∈ (f x).members, i ∈ x.members ∨ ∃ pk, i = s.toIdentityPK pk) :
    { s with groups := s.groups.modify g f }.Kinded := by
  refine h.of_named (fun _ => rfl) (fun _ he => .inl he) fun g' x hx => ?_
  rw [find?_modify] at hx
  split_ifs at hx
  · obtain ⟨y, hy, rfl⟩ := map_eq_some_iff.mp hx
    exact fun i hi => (hf y i hi).imp_left fun hold => .inr ⟨g', y, hy, hold⟩
  · exact fun i hi => .inl (.inr ⟨g', x, hx, hi⟩)

theorem Kinded.createGroup : (s.createGroup g).Kinded := by
  refine h.of_named (fun _ => rfl) (fun _ he => .inl he) fun g' x hx i hi => ?_
  unfold Authorize.createGroup at hx
  rw [find?_emplace] at hx
  split_ifs at hx with heq
  · subst heq
    cases hold : s.groups.find? g' with
    | none =>
      rw [hold] at hx
      cases hx
      cases hi
    | some y =>
      rw [hold] at hx
      exact .inl (.inr ⟨g', x, hold.trans hx, hi⟩)
  · exact .inl (.inr ⟨g', x, hx, hi⟩)

theorem Kinded.addToGroup (members : List ℕ) : (s.addToGroup g members).Kinded := by
  refine Kinded.refresh (List.foldlRecOn (motive := fun x : Authorize × List UserPK => x.1.Kinded) members _ (h.createGroup g) ?_) _
  refine fun x hx pk _ => Kinded.collect (hx.modify g _ fun group i hi => ?_) _
  exact (Group.mem_emplace hi).symm.imp_right fun heq => ⟨pk, heq⟩

theorem Kinded.removeFromGroup (members : List ℕ) : (s.removeFromGroup g members).Kinded := by
  refine Kinded.refresh (List.foldlRecOn (motive := fun x : Authorize × List UserPK => x.1.Kinded) members _ h fun x hx pk _ => ?_) _
  unfold removeMember
  split
  · exact hx
  · exact (hx.collect _).modify g _ fun group i hi => .inl (List.mem_of_mem_erase hi)

theorem Kinded.restoreGroup : (s.restoreGroup g).Kinded := by
  unfold Authorize.restoreGroup
  split_ifs
  · exact ((h.modify g (fun x => { x with isDeleted := false }) fun x i hi => .inl hi).collect (.group g)).refresh _
  · exact h

theorem Kinded.deleteGroup : (s.deleteGroup g).Kinded := by
  unfold Authorize.deleteGroup
  split
  · exact h
  · split_ifs
    · exact h
    · exact ((h.collect (.group g)).modify g (fun x => { x with isDeleted := true }) fun x i hi => .inl hi).refresh _

end

omit h

theorem named_purgeIdentity {pk : ℕ} (hnamed : (s.purgeIdentity pk).Named i) : s.Named i ∧ i.underlying ≠ pk := by
  obtain ⟨p, hp⟩ | ⟨g, x, hx, hi⟩ := hnamed
  · obtain ⟨hp, hne⟩ := List.mem_filter.mp hp
    exact ⟨.inl ⟨p, hp⟩, of_decide_eq_true hne⟩
  · obtain ⟨y, hy, rfl⟩ := map_eq_some_iff.mp ((find?_map _ _ _).symm.trans hx)
    obtain ⟨hi, hne⟩ := List.mem_filter.mp hi
    exact ⟨.inr ⟨g, y, hy, hi⟩, of_decide_eq_true hne⟩

variable (h : s.Kinded)
include h

theorem Kinded.purgeIdentity (pk : ℕ) : (s.purgeIdentity pk).Kinded :=
  fun i hi => h i (named_purgeIdentity hi).1

theorem Kinded.eraseGroup (g : GroupPK) (group : Group) : (s.eraseGroup g group).Kinded := by
  refine h.of_named (contains_eraseGroup g group) (fun e he => ?_) fun g' x hx i hi => ?_
  · rw [eraseGroup_eq] at he
    exact .inl he
  · rw [eraseGroup_eq, find?_erase] at hx
    split_ifs at hx
    exact .inl (.inr ⟨g', x, hx, hi⟩)

theorem Kinded.purgeGroup (g : GroupPK) : (s.purgeGroup g).Kinded := by
  unfold Authorize.purgeGroup
  split
  · exact h
  · exact (h.eraseGroup g _).purgeIdentity g

theorem Kinded.addAclEntry (pk : ℕ) (p : PermissionRole) : (s.addAclEntry (s.toIdentityPK pk) p).Kinded := by
  refine h.of_groups_eq (fun u => by rw [addAclEntry_users]) (fun e he => ?_) (addAclEntry_groups _ _)
  unfold Authorize.addAclEntry at he
  split_ifs at he
  · exact .inl he
  · exact (List.mem_append.mp he).imp_right fun hnew => ⟨pk, by rw [List.mem_singleton.mp hnew]⟩

variable (identity : ℕ)

theorem Kinded.addAclPermission (pk : PermissionPK) (p : Permission) :
    (s.addAclPermission identity pk p).Kinded := by
  have hentry : ({ s with permissions := s.permissions.insert pk p }.addAclEntry (s.toIdentityPK identity)
      (.permission pk)).Kinded :=
    Kinded.addAclEntry (s := { s with permissions := s.permissions.insert pk p }) h identity _
  unfold Authorize.addAclPermission
  dsimp only
  split_ifs
  · exact hentry.recalc
  · exact hentry.recalcIdentity _

theorem Kinded.addAclRole (r : RolePK) : (s.addAclRole identity r).Kinded := by
  have hentry := h.addAclEntry identity (.role r)
  unfold Authorize.addAclRole
  dsimp only
  split
  · exact hentry.of_groups_eq (fun _ => gives_addPermission.isSome_eq) (fun _ he => .inl he) rfl
  · exact (hentry.collect (.group _)).refresh _

theorem Kinded.removeAcl (p : PermissionRole) : (s.removeAcl identity p).Kinded := by
  refine Kinded.recalcIdentity ?_ _
  exact h.of_groups_eq (fun _ => rfl) (fun e he => .inl (List.mem_of_mem_eraseP he)) rfl

theorem Kinded.purgeRole (r : RolePK) : (s.purgeRole r).Kinded := by
  unfold Authorize.purgeRole
  split
  · exact h
  · have hgone : Kinded { s with
        roles := (s.roles.erase r).map fun _ role => role.purge fun p => p = .role r
        acl := s.acl.filter fun e => e.2 ≠ .role r } :=
      h.of_groups_eq (fun _ => rfl) (fun e he => .inl (List.mem_filter.mp he).1) rfl
    split_ifs
    · exact hgone
    · exact hgone.recalc

theorem Kinded.updatePermission {pk : PermissionPK} {allowed denied : Option ERights}
    (hsome : s.updatePermission pk allowed denied = some s') : s'.Kinded := by
  obtain ⟨p, -, rfl⟩ := map_eq_some_iff.mp hsome
  refine h.of_groups_eq (fun u => ?_) (fun _ he => .inl he) rfl
  unfold contains
  rw [find?_map, isSome_map]

theorem Kinded.purgeResource (resource : ResourcePK) : (s.purgeResource resource).Kinded := by
  unfold Authorize.purgeResource
  split_ifs
  · refine h.of_groups_eq (fun u => ?_) (fun e he => .inl (List.mem_filter.mp he).1) rfl
    unfold contains
    rw [find?_map, isSome_map]
  · exact h

/-- A pk nothing names may become a user's. -/
theorem Kinded.createUser (name : String)
    (hnew : s.users.contains u = true ∨ ∀ i, s.Named i → i.underlying ≠ u) : (s.createUser u name).Kinded := by
  have hcontains : ∀ v, (s.createUser u name).users.contains v = (v = u || s.users.contains v) := by
    intro v
    unfold Authorize.createUser contains
    rw [find?_insert]
    split_ifs with hv <;> simp [hv]
  obtain hold | hnamed := hnew
  · refine h.of_groups_eq (fun v => ?_) (fun _ he => .inl he) rfl
    rw [hcontains]
    by_cases hv : v = u
    · simp [hv, hold]
    · simp [hv]
  · intro i hi
    have hne := hnamed i hi
    rw [toIdentityPK, hcontains]
    simpa [hne, toIdentityPK] using h i hi

theorem Kinded.setUserDeleted (u : UserPK) (isDeleted : Bool) : (s.setUserDeleted u isDeleted).Kinded := by
  refine h.of_groups_eq (fun v => ?_) (fun _ he => .inl he) rfl
  unfold Authorize.setUserDeleted contains
  rw [find?_modify]
  split_ifs
  · rw [isSome_map]
  · rfl

theorem Kinded.purgeUser (u : UserPK) : (s.purgeUser u).Kinded := by
  intro i hi
  obtain ⟨hold, hne⟩ := named_purgeIdentity hi
  have hkind := h i hold
  have hcontains : (s.users.erase u).contains i.underlying = s.users.contains i.underlying := by
    unfold contains
    rw [find?_erase, if_neg hne]
  unfold toIdentityPK at hkind ⊢
  rwa [← hcontains] at hkind

end Kinded

/-- What is loaded: each user by name and deletion, with no rights yet. -/
structure Snapshot where
  users : OrdMap UserPK (String × Bool) := ∅
  groups : OrdMap GroupPK Group := ∅
  resources : OrdMap ResourcePK Resource := ∅
  permissions : OrdMap PermissionPK Permission := ∅
  roles : OrdMap RolePK Role := ∅
  acl : List (IdentityPK × PermissionRole) := []

def load (x : Snapshot) : Authorize :=
  { users := x.users.map fun _ user => { name := user.1, isDeleted := user.2 }
    groups := x.groups
    table := Table.load x.resources
    permissions := x.permissions
    roles := x.roles
    acl := x.acl : Authorize }.setUserPermissions []

inductive Event
  | addToGroup (g : GroupPK) (members : List ℕ)
  | removeFromGroup (g : GroupPK) (members : List ℕ)
  | createGroup (g : GroupPK)
  | deleteGroup (g : GroupPK)
  | restoreGroup (g : GroupPK)
  | purgeGroup (g : GroupPK)
  | addAclPermission (identity : ℕ) (pk : PermissionPK) (p : Permission)
  | addAclRole (identity : ℕ) (r : RolePK)
  | removeAcl (identity : ℕ) (p : PermissionRole)
  | addRolePermission (r : RolePK) (pk : PermissionPK) (rights : AllowedDisallowed) (resource : ResourceArgs)
  | addRoleChild (r : RolePK) (children : List RolePK)
  | removeRoleChildren (r : RolePK) (toRemove : List PermissionRole)
  | deleteRestoreRole (r : RolePK) (deleted : Bool)
  | purgeRole (r : RolePK)
  | updatePermission (pk : PermissionPK) (allowed denied : Option ERights)
  | createResource (pk : ResourcePK) (r : Resource)
  | updateResourceDeleted (pk : Option ResourcePK) (schemaName : String) (id : Option ResourcePK)
      (slug : Option String) (restored : Bool)
  | purgeResource (pk : ResourcePK)
  | createUser (u : UserPK) (name : String)
  | deleteUser (u : UserPK)
  | restoreUser (u : UserPK)
  | purgeUser (u : UserPK)

/-- One event; one that throws changes nothing. -/
def step (s : Authorize) : Event → Authorize
  | .addToGroup g members => s.addToGroup g members
  | .removeFromGroup g members => s.removeFromGroup g members
  | .createGroup g => s.createGroup g
  | .deleteGroup g => s.deleteGroup g
  | .restoreGroup g => s.restoreGroup g
  | .purgeGroup g => s.purgeGroup g
  | .addAclPermission identity pk p => s.addAclPermission identity pk p
  | .addAclRole identity r => s.addAclRole identity r
  | .removeAcl identity p => s.removeAcl identity p
  | .addRolePermission r pk rights resource => s.addRolePermission r pk rights resource
  | .addRoleChild r children => s.addRoleChild r children
  | .removeRoleChildren r toRemove => s.removeRoleChildren r toRemove
  | .deleteRestoreRole r deleted => s.deleteRestoreRole r deleted
  | .purgeRole r => s.purgeRole r
  | .updatePermission pk allowed denied => (s.updatePermission pk allowed denied).getD s
  | .createResource pk r => { s with table := s.table.createResource pk r }
  | .updateResourceDeleted pk schemaName id slug restored =>
    { s with table := (s.table.updateResourceDeleted pk schemaName id slug restored).getD s.table }
  | .purgeResource pk => s.purgeResource pk
  | .createUser u name => s.createUser u name
  | .deleteUser u => s.setUserDeleted u true
  | .restoreUser u => s.setUserDeleted u false
  | .purgeUser u => s.purgeUser u

/-- A user is created before anything names it, and what is purged as a user is no group. -/
def Event.Fits (s : Authorize) : Event → Prop
  | .createUser u _ => s.users.contains u = true ∨ ∀ i, s.Named i → i.underlying ≠ u
  | .purgeUser u => s.users.contains u = true ∨ s.groups.contains u = false
  | _ => True

/-- Whoever has a new permission's pk from rows that are there is among those refreshed, and a group purged has not
the pk of a user who is given something. -/
def Event.Covers (s : Authorize) : Event → Prop
  | .addAclPermission identity pk _ => s.permissions.find? pk = none →
      ∀ u, s.users.contains u = true → pk ∈ s.Granted u → s.Below (s.toIdentityPK identity) u
  | .purgeGroup g => s.groups.contains g = true → s.users.contains g = true →
      ∀ pk, s.permissions.contains pk = true → pk ∉ s.Granted g
  | _ => True

/-- Each user's permissions and rights are those a recalculation would give. -/
def Cached (s : Authorize) : Prop :=
  ∀ u user, s.users.find? u = some user → ∃ fresh, s.recalc.users.find? u = some fresh ∧
    user.permissions = fresh.permissions ∧ ∀ r, user.resourceRights r = fresh.resourceRights r

theorem UpToDate.cached (h : s.UpToDate) : s.Cached := by
  intro u user hfind
  obtain ⟨fresh, hfresh⟩ := contains_iff.mp ((contains_recalc u).trans (contains_iff.mpr ⟨user, hfind⟩))
  exact ⟨fresh, hfresh, (h u user hfind).agree (upToDate_recalc s u fresh hfresh)⟩

theorem upToDate_load (x : Snapshot) : (load x).UpToDate := by
  refine upToDate_setUserPermissions fun u user hfind => ?_
  obtain ⟨y, -, rfl⟩ := map_eq_some_iff.mp ((find?_map _ _ _).symm.trans hfind)
  exact User.holds_clear { name := y.1, isDeleted := y.2 }

theorem Kinded.step (h : s.Kinded) {e : Event} (hfits : e.Fits s) : (s.step e).Kinded := by
  cases e with
  | addToGroup g members => exact h.addToGroup g members
  | removeFromGroup g members => exact h.removeFromGroup g members
  | createGroup g => exact h.createGroup g
  | deleteGroup g => exact h.deleteGroup g
  | restoreGroup g => exact h.restoreGroup g
  | purgeGroup g => exact h.purgeGroup g
  | addAclPermission identity pk p => exact h.addAclPermission identity pk p
  | addAclRole identity r => exact h.addAclRole identity r
  | removeAcl identity p => exact h.removeAcl identity p
  | addRolePermission | addRoleChild => exact Kinded.recalc (s := { s with roles := _, permissions := _, table := _ }) h
  | removeRoleChildren r toRemove =>
    unfold Authorize.step removeRoleChildren
    dsimp only
    split_ifs
    · exact h
    · exact Kinded.recalc (s := { s with roles := _, permissions := _, table := _ }) h
  | deleteRestoreRole r deleted => exact Kinded.recalc (s := { s with roles := _, permissions := _, table := _ }) h
  | purgeRole r => exact h.purgeRole r
  | updatePermission pk allowed denied =>
    change ((s.updatePermission pk allowed denied).getD s).Kinded
    cases hsome : s.updatePermission pk allowed denied with
    | none => exact h
    | some s' => exact h.updatePermission hsome
  | createResource | updateResourceDeleted => exact h
  | purgeResource pk => exact h.purgeResource pk
  | createUser u name => exact h.createUser name hfits
  | deleteUser u => exact h.setUserDeleted u true
  | restoreUser u => exact h.setUserDeleted u false
  | purgeUser u => exact h.purgeUser u

theorem UpToDate.step (h : s.UpToDate) (hkinded : s.Kinded) {e : Event} (hfits : e.Fits s) (hcovers : e.Covers s) :
    (s.step e).UpToDate := by
  cases e with
  | addToGroup g members => exact h.addToGroup g members
  | removeFromGroup g members => exact h.removeFromGroup g members
  | createGroup g => exact h.createGroup g
  | deleteGroup g => exact h.deleteGroup g
  | restoreGroup g => exact h.restoreGroup g
  | purgeGroup g => exact h.purgeGroup g hcovers
  | addAclPermission identity pk p =>
    exact h.addAclPermission hkinded identity pk p fun hnone u user hfind =>
      hcovers hnone u (contains_iff.mpr ⟨user, hfind⟩)
  | addAclRole identity r => exact h.addAclRole hkinded identity r
  | removeAcl identity p => exact h.removeAcl hkinded identity p
  | addRolePermission | addRoleChild | deleteRestoreRole => exact upToDate_recalc _
  | removeRoleChildren r toRemove => exact h.removeRoleChildren r toRemove
  | purgeRole r => exact h.purgeRole r
  | updatePermission pk allowed denied =>
    change ((s.updatePermission pk allowed denied).getD s).UpToDate
    cases hsome : s.updatePermission pk allowed denied with
    | none => exact h
    | some s' => exact h.updatePermission hsome
  | createResource | updateResourceDeleted => exact h
  | purgeResource pk => exact h.purgeResource pk
  | createUser u name =>
    refine h.createUser u name fun hnone hnamed => ?_
    obtain hold | hnot := hfits
    · obtain ⟨user, huser⟩ := contains_iff.mp hold
      exact absurd (hnone.symm.trans huser) (by simp)
    · exact hnot _ hnamed rfl
  | deleteUser u => exact h.setUserDeleted u true
  | restoreUser u => exact h.setUserDeleted u false
  | purgeUser u =>
    exact h.purgeUser hkinded u (hfits.imp_right fun hgroup => by simpa [contains] using hgroup)

/-- The states events come to after a load, no event leaving out a user it reaches. -/
inductive Reached : Authorize → Prop
  | load {x : Snapshot} (hkinded : (load x).Kinded) : Reached (load x)
  | step {s : Authorize} {e : Event} (h : Reached s) (hfits : e.Fits s) (hcovers : e.Covers s) : Reached (s.step e)

theorem Reached.sound (h : Reached s) : s.UpToDate ∧ s.Kinded := by
  induction h with
  | load hkinded => exact ⟨upToDate_load _, hkinded⟩
  | step _ hfits hcovers ih => exact ⟨ih.1.step ih.2 hfits hcovers, ih.2.step hfits⟩

theorem recalcIdentity_eq : s.recalcIdentity i = { s with users := (s.recalcIdentity i).users } := by
  cases i with
  | user v => rfl
  | group g => exact refresh_eq _

theorem granted_recalcIdentity : (s.recalcIdentity i).Granted u = s.Granted u := by
  rw [recalcIdentity_eq]
  rfl

theorem find?_recalcIdentity {user : User} (hfind : s.users.find? u = some user) (hbelow : ¬ s.Below i u) :
    (s.recalcIdentity i).users.find? u = some user := by
  have hset : ∀ {t : Authorize} {only : List UserPK}, t.users.find? u = some user → only ≠ [] → u ∉ only →
      (t.setUserPermissions only).users.find? u = some user := by
    intro t only ht hnil hu
    have hgives := ht ▸ gives_setUserPermissions only u
    generalize (t.setUserPermissions only).users.find? u = y at hgives ⊢
    cases hgives with
    | some hgiven => rw [hgiven.kept fun hasked => hasked.elim hnil hu]
  have hnot : u ∉ (s.collect i).2 := fun hu => hbelow ((mem_collect hfind).mp hu)
  have hcollect : (s.collect i).1.users.find? u = some user := by rw [find?_collect, if_neg hnot, hfind]
  cases i with
  | user v =>
    have huv : u ≠ v := fun heq => hbelow (below_user.mpr heq)
    exact hset hcollect (List.cons_ne_nil v []) (by simpa using huv)
  | group g =>
    change ((s.collect (.group g)).1.refresh (s.collect (.group g)).2).users.find? u = some user
    unfold refresh
    split_ifs with hnil
    · exact hcollect
    · exact hset hcollect hnil hnot

/-- A new permission is not added for a user the event does not refresh, though rows that are there give it. -/
theorem covers_of_cached (h : s.UpToDate) (hkinded : s.Kinded) {identity : ℕ} {pk : PermissionPK} {p : Permission}
    (hcached : (s.addAclPermission identity pk p).Cached) : Event.Covers s (.addAclPermission identity pk p) := by
  intro hnone u hu hin
  by_contra hbelow
  obtain ⟨user, hfind⟩ := contains_iff.mp hu
  have hstep : s.addAclPermission identity pk p =
      ({ s with permissions := s.permissions.insert pk p }.addAclEntry (s.toIdentityPK identity)
        (.permission pk)).recalcIdentity (s.toIdentityPK identity) := by
    simp [addAclPermission, hnone]
  rw [hstep] at hcached
  have hkept : (({ s with permissions := s.permissions.insert pk p }.addAclEntry (s.toIdentityPK identity)
      (.permission pk)).recalcIdentity (s.toIdentityPK identity)).users.find? u = some user := by
    refine find?_recalcIdentity ?_ ?_
    · rw [addAclEntry_users]
      exact hfind
    · rw [Below, addAclEntry_groups]
      exact hbelow
  obtain ⟨fresh, hfresh, hpermissions, -⟩ := hcached u user hkept
  have hgiven : fresh.permissions.find? pk = some p := by
    refine ((upToDate_recalc _ u fresh hfresh).permissions pk p).mpr ⟨?_, ?_⟩
    · change pk ∈ (recalcIdentity _ _).Granted u
      rw [granted_recalcIdentity]
      exact (granted_addAclEntry (s := { s with permissions := s.permissions.insert pk p })
        hkinded identity (.permission pk) u).ge (.inl hin)
    · change (recalcIdentity _ _).permissions.find? pk = some p
      rw [recalcIdentity_eq]
      rw [addAclEntry_permissions, find?_insert_self]
  rw [← hpermissions] at hgiven
  exact absurd (hnone.symm.trans ((h u user hfind).permissions pk p |>.mp hgiven).2) (by simp)

/-- A purged group's pk that is a user's: the user keeps what its rows gave, and they are gone. -/
theorem covers_of_cached_purgeGroup (h : s.UpToDate) (hkinded : s.Kinded) (hcached : (s.purgeGroup g).Cached) :
    Event.Covers s (.purgeGroup g) := by
  intro hg hu perm hperm hin
  obtain ⟨group, hgroup⟩ := contains_iff.mp hg
  obtain ⟨p, hp⟩ := contains_iff.mp hperm
  have hpurge : s.purgeGroup g = (s.eraseGroup g group).purgeIdentity g := by simp only [purgeGroup, hgroup]
  rw [hpurge] at hcached
  obtain ⟨user, hfind⟩ := contains_iff.mp ((contains_eraseGroup g group g).trans hu)
  -- nothing names the group, so the user is given as much without it
  have hbelow : ∀ i, s.Named i → s.Below i g → (groupNesting (s.groups.erase g)).Reaches i (.user g) := by
    intro i hnamed hbelow
    induction hbelow using Relation.ReflTransGen.head_induction_on with
    | refl => exact .refl
    | @head b c hstep _ ih =>
      obtain ⟨g', x, -, hx, -, hmem⟩ := step_group.mp hstep
      refine .head (step_erase.mpr ⟨?_, hstep⟩) (ih (.inr ⟨g', x, hx, hmem⟩))
      rintro rfl
      have hkind := hkinded _ hnamed
      rw [IdentityPK.underlying, toIdentityPK, if_pos hu] at hkind
      cases hkind
  have hheld : user.permissions.find? perm = some p := by
    refine ((h.eraseGroup hgroup g user hfind).permissions perm p).mpr ⟨?_, by rwa [eraseGroup_eq]⟩
    obtain ⟨e, he, hreach, hgrants⟩ := hin
    rw [eraseGroup_eq]
    exact ⟨e, he, hbelow e.1 (.inl ⟨e.2, he⟩) hreach, hgrants⟩
  obtain ⟨fresh, hfresh, hpermissions, -⟩ := hcached g user hfind
  rw [hpermissions] at hheld
  obtain ⟨e, he, hreach, -⟩ := ((upToDate_recalc _ g fresh hfresh).permissions perm p |>.mp hheld).1
  exact (named_purgeIdentity (named_of_below he hreach)).2 rfl

/-- The next event leaves every user with what recalculating gives, exactly when it covers those it reaches. -/
theorem cached_step_iff (h : Reached s) : s.Cached ∧ ∀ e, e.Fits s → ((s.step e).Cached ↔ e.Covers s) := by
  obtain ⟨hcurrent, hkinded⟩ := h.sound
  refine ⟨hcurrent.cached, fun e hfits => ⟨fun hcached => ?_, fun hcovers => ?_⟩⟩
  · cases e with
    | addAclPermission identity pk p => exact covers_of_cached hcurrent hkinded hcached
    | purgeGroup g => exact covers_of_cached_purgeGroup hcurrent hkinded hcached
    | _ => trivial
  · exact (hcurrent.step hkinded hfits hcovers).cached

/-- A user keeps a right exactly if a row of the acl gives it, down through live groups and roles, and is shown no other. -/
theorem right_kept_iff (h : Reached s) {user : User} (hfind : s.users.find? u = some user) (r : ResourcePK)
    (denied : Bool) (n : ℕ) : ((user.resourceRights r).bit denied n = true ↔ s.Right (.user u) r denied n) ∧
      (user.isDeleted = false → masks (s.userRights u) r = user.resourceRights r) := by
  have hcurrent := h.sound.1
  refine ⟨hcurrent.bit_resourceRights hfind, fun hdeleted => AllowedDisallowed.ext_bit fun denied n => ?_⟩
  have hlive : s.live (.user u) = true := by simp [live, hfind, hdeleted]
  rw [Bool.eq_iff_iff, userRights, if_pos hlive, bit_identityRights, hcurrent.bit_resourceRights hfind]

/-- Two users, permission 10 to read resource 3, and the rows of the acl. -/
def twoUsers (acl : List (IdentityPK × PermissionRole)) : Snapshot :=
  { users := ((∅ : OrdMap UserPK (String × Bool)).insert 1 ("one", false)).insert 2 ("two", false)
    resources := (∅ : OrdMap ResourcePK Resource).insert 3 { schema := "opc", slug := "nodes" }
    permissions := (∅ : OrdMap PermissionPK Permission).insert 10 { resourcePK := 3, rights := { allowed := .read } }
    acl }

/-- Permission 20, to read resource 3, given to user 2. -/
def grantRead : Event := .addAclPermission 2 20 { resourcePK := 3, rights := { allowed := .read } }

theorem kinded_twoUsers {acl : List (IdentityPK × PermissionRole)} (h : ∀ e ∈ acl, e.1 = .user 1) :
    (load (twoUsers acl)).Kinded := by
  rintro i (⟨p, hp⟩ | ⟨g, x, hx, -⟩)
  · obtain rfl : i = .user 1 := h _ hp
    have hcontains : (load (twoUsers acl)).users.contains 1 = true :=
      (contains_setUserPermissions [] 1).trans rfl
    rw [IdentityPK.underlying, toIdentityPK, if_pos hcontains]
  · exact absurd hx (by simp [load, setUserPermissions, twoUsers])

theorem reached_twoUsers (p : PermissionRole) : Reached (load (twoUsers [(.user 1, p)])) :=
  .load (kinded_twoUsers fun e he => by rw [List.mem_singleton.mp he])

/-- User 1, whose row names permission 10, reads the resource. -/
theorem twoUsers_kept : (∃ user, (load (twoUsers [(.user 1, .permission 10)])).users.find? 1 = some user ∧
      (user.resourceRights 3).bit false 1 = true) ∧
    (load (twoUsers [(.user 1, .permission 10)])).Right (.user 1) 3 false 1 := by
  have hkept : ((load (twoUsers [(.user 1, .permission 10)])).users.find? 1).map
      (fun user => (user.resourceRights 3).bit false 1) = some true := by decide +kernel
  obtain ⟨user, hfind, hbit⟩ := map_eq_some_iff.mp hkept
  exact ⟨⟨user, hfind, hbit⟩, (right_kept_iff (reached_twoUsers _) hfind 3 false 1).1.mp hbit⟩

/-- Where no row names the permission, both users have what they should. -/
theorem grantRead_cached : ((load (twoUsers [(.user 1, .permission 10)])).step grantRead).Cached := by
  refine ((cached_step_iff (reached_twoUsers _)).2 grantRead trivial).mpr fun _ u _ hin => ?_
  obtain ⟨e, he, -, hgrants⟩ := hin
  obtain rfl := List.mem_singleton.mp he
  exact absurd (mem_trace_role.mpr hgrants) (by decide +kernel)

/-- With a row of user 1 that names it, user 1 should read the resource and does not. -/
theorem grantRead_missed : Reached (load (twoUsers [(.user 1, .permission 20)])) ∧
      ¬ ((load (twoUsers [(.user 1, .permission 20)])).step grantRead).Cached := by
  refine ⟨reached_twoUsers _, fun hcached => ?_⟩
  have hkept : (((load (twoUsers [(.user 1, .permission 20)])).step grantRead).users.find? 1).map
      (fun user => user.resourceRights 3) = some {} := by decide +kernel
  have hfresh : (((load (twoUsers [(.user 1, .permission 20)])).step grantRead).recalc.users.find? 1).map
      (fun user => user.resourceRights 3) = some { allowed := .read } := by decide +kernel
  obtain ⟨user, huser, hnone⟩ := map_eq_some_iff.mp hkept
  obtain ⟨fresh, hfind, -, hrights⟩ := hcached 1 user huser
  rw [hfind, map_some, ← hrights, hnone] at hfresh
  exact absurd hfresh (by decide)

end Authorize

end OpcHub.Access
