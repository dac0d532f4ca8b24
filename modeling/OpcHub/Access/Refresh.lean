import OpcHub.Access.Directory

/-! The events that change who holds what. Each changes the groups, the acl, the
roles or the permissions, and refreshes the users it takes the change to reach:
their rights are cleared and what the acl gives them added again. A change of a
role refreshes everyone. Between the change and the refresh the cleared users
hold nothing and each other user holds what the acl gives it; so a change is
right when it alters nothing for a user it does not clear. -/

namespace OpcHub.Access

open OpcHub.Lib OrdMap Nesting Option Authorize Relation.ReflTransGen

namespace Group

/-- Members are found by pk, whichever kind. -/
def emplace (x : Group) (i : IdentityPK) : Group :=
  if x.members.any fun j => j.underlying = i.underlying then x else { x with members := x.members ++ [i] }

def erase (x : Group) (i : IdentityPK) : Group := { x with members := x.members.erase i }

def purge (x : Group) (pk : ℕ) : Group := { x with members := x.members.filter fun i => i.underlying ≠ pk }

end Group

def Role.emplace (x : Role) (p : PermissionRole) : Role :=
  if p ∈ x.members then x else { x with members := x.members ++ [p] }

def Role.purge (x : Role) (gone : PermissionRole → Bool) : Role := { x with members := x.members.filter fun p => !gone p }

namespace Authorize

variable (s : Authorize)

/-- A pk that is not a user's is taken as a group's. -/
def toIdentityPK (pk : ℕ) : IdentityPK := if s.users.contains pk then .user pk else .group pk

def clearUser (u : UserPK) : Authorize := { s with users := s.users.modify u User.clear }

/-- The users of an identity, their rights cleared. -/
def collect : IdentityPK → Authorize × List UserPK
  | .user u => (s.clearUser u, if s.users.contains u then [u] else [])
  | .group g => s.recursiveUsers g

/-- Nobody to refresh is not everybody. -/
def refresh (users : List UserPK) : Authorize := if users = [] then s else s.setUserPermissions users

/-- One more member, and its users collected. -/
def addMember (g : GroupPK) (x : Authorize × List UserPK) (pk : ℕ) : Authorize × List UserPK :=
  let i := x.1.toIdentityPK pk
  let y := { x.1 with groups := x.1.groups.modify g fun group => group.emplace i }.collect i
  (y.1, x.2 ∪ y.2)

def addToGroup (g : GroupPK) (members : List ℕ) : Authorize :=
  let x := members.foldl (addMember g) ({ s with groups := s.groups.emplace g {} }, [])
  x.1.refresh x.2

/-- One member less, its users collected while it is one. -/
def removeMember (g : GroupPK) (x : Authorize × List UserPK) (pk : ℕ) : Authorize × List UserPK :=
  match (x.1.groups.find? g).bind fun group => group.members.find? fun i => i.underlying = pk with
  | none => x
  | some i =>
    let y := x.1.collect i
    ({ y.1 with groups := y.1.groups.modify g fun group => group.erase i }, x.2 ∪ y.2)

def removeFromGroup (g : GroupPK) (members : List ℕ) : Authorize :=
  let x := members.foldl (removeMember g) (s, [])
  x.1.refresh x.2

def createGroup (g : GroupPK) : Authorize := { s with groups := s.groups.emplace g {} }

def recalcGroupMembers (g : GroupPK) (remove : Bool) : Authorize :=
  let x := s.recursiveUsers g
  (if remove then { x.1 with groups := x.1.groups.erase g } else x.1).refresh x.2

def restoreGroup (g : GroupPK) : Authorize :=
  if s.groups.contains g then
    { s with groups := s.groups.modify g fun group => { group with isDeleted := false } }.recalcGroupMembers g false
  else s

/-- The members are collected while the group passes them on. -/
def deleteGroup (g : GroupPK) : Authorize :=
  match s.groups.find? g with
  | none => s
  | some group =>
    if group.isDeleted then s
    else
      let x := s.recursiveUsers g
      { x.1 with groups := x.1.groups.modify g fun group => { group with isDeleted := true } }.refresh x.2

/-- An identity's acl rows and memberships, by its pk. -/
def purgeIdentity (pk : ℕ) : Authorize :=
  { s with
    acl := s.acl.filter fun e => e.1.underlying ≠ pk
    groups := s.groups.map fun _ group => group.purge pk }

/-- A deleted group's members were refreshed when it was deleted. -/
def eraseGroup (g : GroupPK) (group : Group) : Authorize :=
  if group.isDeleted then { s with groups := s.groups.erase g } else s.recalcGroupMembers g true

def purgeGroup (g : GroupPK) : Authorize :=
  match s.groups.find? g with
  | none => s
  | some group => (s.eraseGroup g group).purgeIdentity g

/-- A row there is not added twice. -/
def addAclEntry (i : IdentityPK) (p : PermissionRole) : Authorize :=
  if s.acl.any fun e => e.1.underlying = i.underlying && e.2 = p then s else { s with acl := s.acl ++ [(i, p)] }

def recalcIdentity : IdentityPK → Authorize
  | .user u => (s.clearUser u).setUserPermissions [u]
  | .group g => s.recalcGroupMembers g false

/-- A permission of an identity: one whose rights or resource change is everyone's. -/
def addAclPermission (identity : ℕ) (pk : PermissionPK) (p : Permission) : Authorize :=
  let changed := (s.permissions.find? pk).any fun q => q ≠ p
  let i := s.toIdentityPK identity
  let s := { s with permissions := s.permissions.insert pk p }.addAclEntry i (.permission pk)
  if changed then s.recalc else s.recalcIdentity i

/-- A user is given the role beside what it has. -/
def addAclRole (identity : ℕ) (r : RolePK) : Authorize :=
  let i := s.toIdentityPK identity
  let s := s.addAclEntry i (.role r)
  match i with
  | .user u => { s with users := s.addPermission i (.role r) [u] s.users }
  | .group g => s.recalcGroupMembers g false

def removeAcl (identity : ℕ) (p : PermissionRole) : Authorize :=
  let i := s.toIdentityPK identity
  { s with acl := s.acl.eraseP fun e => e.1.underlying = i.underlying && e.2 = p }.recalcIdentity i

/-- A grant without a resource keeps the one its permission has. -/
def addRolePermission (r : RolePK) (pk : PermissionPK) (rights : AllowedDisallowed) (resource : ResourceArgs) :
    Authorize :=
  let granted := s.table.grantResource resource
  { s with
    table := granted.2
    permissions :=
      match granted.1 <|> (s.permissions.find? pk).map Permission.resourcePK with
      | some resourcePK => s.permissions.insert pk { resourcePK, rights }
      | none => s.permissions
    roles := (s.roles.emplace r {}).modify r fun role => role.emplace (.permission pk) }.recalc

def addRoleChild (r : RolePK) (children : List RolePK) : Authorize :=
  { s with
    roles := (s.roles.emplace r {}).modify r fun role =>
      children.foldl (fun role child => role.emplace (.role child)) role }.recalc

def removeRoleChildren (r : RolePK) (toRemove : List PermissionRole) : Authorize :=
  if toRemove = [] ∨ !s.roles.contains r then s
  else { s with roles := s.roles.modify r fun role => role.purge fun p => p ∈ toRemove }.recalc

def deleteRestoreRole (r : RolePK) (deleted : Bool) : Authorize :=
  { s with roles := s.roles.modify r fun role => { role with isDeleted := deleted } }.recalc

/-- A role, its acl rows and memberships; a deleted one gave nothing. -/
def purgeRole (r : RolePK) : Authorize :=
  match s.roles.find? r with
  | none => s
  | some role =>
    let s := { s with
      roles := (s.roles.erase r).map fun _ role => role.purge fun p => p = .role r
      acl := s.acl.filter fun e => e.2 ≠ .role r }
    if role.isDeleted then s else s.recalc

/-- None when there is no such permission: the event throws. -/
def updatePermission (pk : PermissionPK) (allowed denied : Option ERights) : Option Authorize :=
  (s.permissions.find? pk).map fun p =>
    { s with
      permissions := s.permissions.insert pk (p.update allowed denied)
      users := s.users.map fun _ user => user.updatePermission pk allowed denied }

/-- A resource, the permissions on it, and the acl rows and role members that are of them. -/
def purgeResource (resource : ResourcePK) : Authorize :=
  let purged := { s with
    table := s.table.purgeResource resource
    permissions := s.permissions.filter fun _ p => p.resourcePK ≠ resource }
  if s.permissions.values.any fun p => p.resourcePK = resource then
    { purged with
      acl := s.acl.filter fun e => !s.onResource resource e.2
      roles := s.roles.map fun _ role => role.purge (s.onResource resource)
      users := s.users.map fun _ user => user.purge resource }
  else purged

def createUser (u : UserPK) (name : String) : Authorize :=
  { s with users := s.users.insert u { (s.users.find? u).getD {} with name } }

def setUserDeleted (u : UserPK) (isDeleted : Bool) : Authorize :=
  { s with users := s.users.modify u fun user => { user with isDeleted } }

def purgeUser (u : UserPK) : Authorize := { s with users := s.users.erase u }.purgeIdentity u

/-- Each user cleared, or holding what the acl gives it. -/
structure Pending (cleared : List UserPK) : Prop where
  emptied : ∀ u ∈ cleared, ∀ user, s.users.find? u = some user → user.Holds s.permissions ∅
  kept : ∀ u ∉ cleared, ∀ user, s.users.find? u = some user → user.Holds s.permissions (s.Granted u)

variable {s} {s' : Authorize} {g : GroupPK} {u : UserPK} {i : IdentityPK} {p : PermissionRole} {user : User}
  {cleared more : List UserPK}

section Pending

theorem UpToDate.pending (h : s.UpToDate) : s.Pending [] :=
  ⟨nofun, fun u _ => h u⟩

theorem UpToDate.of_granted (h : s.UpToDate) (hpermissions : s'.permissions = s.permissions) (husers : s'.users = s.users)
    (hgranted : ∀ u user, s.users.find? u = some user → s'.Granted u = s.Granted u) : s'.UpToDate := by
  intro u user hfind
  rw [husers] at hfind
  rw [hpermissions, hgranted u user hfind]
  exact h u user hfind

theorem Pending.refresh (h : s.Pending cleared) : (s.refresh cleared).UpToDate := by
  unfold Authorize.refresh
  split_ifs with hnil
  · subst hnil
    exact fun u => h.kept u List.not_mem_nil
  · intro u user hfind
    obtain ⟨old, hold, hgiven⟩ := (gives_setUserPermissions cleared u).of_some hfind
    by_cases hu : u ∈ cleared
    · exact (hgiven.holds (.inr hu) ∅ (h.emptied u hu old hold)).congr fun pk p _ => by rw [Set.empty_union]; rfl
    · rw [hgiven.kept fun hasked => hasked.elim hnil hu]
      exact h.kept u hu old hold

/-- A change that gives and takes nothing but from users it clears. -/
theorem Pending.change (h : s.Pending cleared) (hpermissions : s'.permissions = s.permissions)
    (hcleared : ∀ u ∈ more, s'.users.find? u = (s.users.find? u).map User.clear)
    (hkept : ∀ u ∉ more, s'.users.find? u = s.users.find? u ∧
      ∀ user, s.users.find? u = some user → s'.Granted u = s.Granted u) : s'.Pending (cleared ∪ more) where
  emptied u hu user hfind := by
    by_cases hmore : u ∈ more
    · obtain ⟨old, -, rfl⟩ := map_eq_some_iff.mp ((hcleared u hmore).symm.trans hfind)
      exact User.holds_clear old
    · rw [hpermissions]
      exact h.emptied u ((List.mem_union_iff.mp hu).resolve_right hmore) user ((hkept u hmore).1.symm.trans hfind)
  kept u hu user hfind := by
    obtain ⟨hu, hmore⟩ := not_or.mp (mt List.mem_union_iff.mpr hu)
    have hfind' := (hkept u hmore).1.symm.trans hfind
    rw [hpermissions, (hkept u hmore).2 user hfind']
    exact h.kept u hu user hfind'

end Pending

variable (s) in
/-- A row of the acl is the identity's, or a group has it as a member. -/
def Named (i : IdentityPK) : Prop := (∃ p, (i, p) ∈ s.acl) ∨ ∃ g x, s.groups.find? g = some x ∧ i ∈ x.members

variable (s) in
/-- What is named is of the kind its pk is. -/
def Kinded : Prop := ∀ i, s.Named i → s.toIdentityPK i.underlying = i

section Steps

variable {groups : OrdMap GroupPK Group} {b c : IdentityPK}

theorem step_modify {f : Group → Group} (h : (groupNesting groups).Step b c)
    (hf : b = .group g → ∀ x, x.isDeleted = false ∧ c ∈ x.members → (f x).isDeleted = false ∧ c ∈ (f x).members) :
    (groupNesting (groups.modify g f)).Step b c := by
  obtain ⟨g', x, rfl, hx, hx'⟩ := step_group.mp h
  rw [step_group]
  simp only [find?_modify]
  by_cases hg : g' = g
  · exact ⟨g', f x, rfl, by rw [if_pos hg, hx]; rfl, hf (congrArg IdentityPK.group hg) x hx'⟩
  · exact ⟨g', x, rfl, by rw [if_neg hg, hx], hx'⟩

theorem step_of_modify {f : Group → Group} (h : (groupNesting (groups.modify g f)).Step b c)
    (hf : b = .group g → ∀ x, (f x).isDeleted = false ∧ c ∈ (f x).members → x.isDeleted = false ∧ c ∈ x.members) :
    (groupNesting groups).Step b c := by
  obtain ⟨g', x, rfl, hx, hx'⟩ := step_group.mp h
  rw [find?_modify] at hx
  split_ifs at hx with hg
  · obtain ⟨y, hy, rfl⟩ := map_eq_some_iff.mp hx
    exact step_group.mpr ⟨g', y, rfl, hy, hf (congrArg IdentityPK.group hg) y hx'⟩
  · exact step_group.mpr ⟨g', x, rfl, hx, hx'⟩

theorem step_emplace : (groupNesting (groups.emplace g {})).Step b c ↔ (groupNesting groups).Step b c := by
  simp only [step_group, find?_emplace]
  refine exists_congr fun g' => exists_congr fun x => and_congr_right fun _ => ?_
  split_ifs with hg
  · -- a new group has no member
    subst hg
    cases groups.find? g' with
    | none => simp only [getD_none, some.injEq, reduceCtorEq, false_and, iff_false]; rintro ⟨rfl, -, hmem⟩; cases hmem
    | some y => rfl
  · rfl

theorem step_erase : (groupNesting (groups.erase g)).Step b c ↔ b ≠ .group g ∧ (groupNesting groups).Step b c := by
  simp only [step_group, find?_erase]
  constructor
  · rintro ⟨g', x, rfl, hx, hrest⟩
    split_ifs at hx with hg
    exact ⟨fun heq => hg (IdentityPK.group.inj heq), g', x, rfl, hx, hrest⟩
  · rintro ⟨hne, g', x, rfl, hx, hrest⟩
    exact ⟨g', x, rfl, by rw [if_neg fun heq => hne (congrArg IdentityPK.group heq), hx], hrest⟩

theorem step_purge {pk : ℕ} :
    (groupNesting (groups.map fun _ x => x.purge pk)).Step b c ↔ (groupNesting groups).Step b c ∧ c.underlying ≠ pk := by
  simp only [step_group, find?_map]
  constructor
  · rintro ⟨g', x, rfl, hx, hlive, hmem⟩
    obtain ⟨y, hy, rfl⟩ := map_eq_some_iff.mp hx
    obtain ⟨hmem, hne⟩ := List.mem_filter.mp hmem
    exact ⟨⟨g', y, rfl, hy, hlive, hmem⟩, of_decide_eq_true hne⟩
  · rintro ⟨⟨g', y, rfl, hy, hlive, hmem⟩, hne⟩
    exact ⟨g', y.purge pk, rfl, by rw [hy]; rfl, hlive, List.mem_filter.mpr ⟨hmem, decide_eq_true hne⟩⟩

theorem below_user {v : UserPK} : s.Below (.user v) u ↔ u = v := by
  constructor
  · intro h
    obtain heq | ⟨c, hstep, -⟩ := cases_head h
    · exact (IdentityPK.user.inj heq).symm
    · obtain ⟨_, _, heq, -⟩ := step_group.mp hstep
      cases heq
  · rintro rfl
    exact .refl

theorem not_below_group (h : ∀ x, s.groups.find? g = some x → x.isDeleted = true) : ¬ s.Below (.group g) u := by
  intro hbelow
  obtain heq | ⟨c, hstep, -⟩ := cases_head hbelow
  · cases heq
  · obtain ⟨g', x, heq, hx, hlive, -⟩ := step_group.mp hstep
    obtain rfl := IdentityPK.group.inj heq
    exact absurd ((h x hx).symm.trans hlive) (by simp)

/-- Whoever is below what the acl names is a member of something, or is named there. -/
theorem named_of_below {e : IdentityPK × PermissionRole} (he : e ∈ s.acl) (hbelow : s.Below e.1 u) :
    s.Named (.user u) := by
  obtain heq | ⟨c, -, hstep⟩ := cases_tail hbelow
  · exact .inl ⟨e.2, heq ▸ he⟩
  · obtain ⟨g, x, -, hx, -, hmem⟩ := step_group.mp hstep
    exact .inr ⟨g, x, hx, hmem⟩

theorem granted_eq (hacl : s'.acl = s.acl) (hroles : s'.roles = s.roles) (hbelow : ∀ i, s'.Below i u ↔ s.Below i u) :
    s'.Granted u = s.Granted u := by
  unfold Granted Grants
  simp only [hacl, hroles, hbelow]

end Steps

section Collect

theorem find?_collect (i : IdentityPK) (u : UserPK) : (s.collect i).1.users.find? u =
      if u ∈ (s.collect i).2 then (s.users.find? u).map User.clear else s.users.find? u := by
  cases i with
  | group g => exact find?_recursiveUsers g u
  | user v =>
    simp only [collect, clearUser, find?_modify]
    by_cases huv : u = v
    · subst huv
      cases hfind : s.users.find? u with
      | none => simp
      | some user => simp [contains, hfind]
    · split_ifs <;> simp_all

theorem mem_collect (hfind : s.users.find? u = some user) : u ∈ (s.collect i).2 ↔ s.Below i u := by
  cases i with
  | group g => exact mem_recursiveUsers
  | user v =>
    rw [below_user]
    simp only [collect]
    constructor
    · intro hu
      split_ifs at hu
      · exact List.mem_singleton.mp hu
      · cases hu
    · rintro rfl
      rw [if_pos (contains_iff.mpr ⟨user, hfind⟩)]
      exact List.mem_singleton_self u

@[simp] theorem collect_groups : (s.collect i).1.groups = s.groups := by cases i <;> rfl

@[simp] theorem collect_roles : (s.collect i).1.roles = s.roles := by cases i <;> rfl

@[simp] theorem collect_permissions : (s.collect i).1.permissions = s.permissions := by cases i <;> rfl

@[simp] theorem collect_acl : (s.collect i).1.acl = s.acl := by cases i <;> rfl

/-- The users of an identity collected, before or after a change that is nothing to the others. -/
theorem Pending.collect (h : s.Pending cleared) (s₁ : Authorize) (i : IdentityPK) (hsame : s₁.users = s.users)
    (hpermissions : s'.permissions = s.permissions) (husers : s'.users = (s₁.collect i).1.users)
    (hgranted : ∀ u, ¬ s₁.Below i u → s'.Granted u = s.Granted u) : s'.Pending (cleared ∪ (s₁.collect i).2) := by
  refine h.change hpermissions (fun u hu => ?_) fun u hu => ⟨?_, fun user hfind => ?_⟩
  · rw [husers, find?_collect, if_pos hu, hsame]
  · rw [husers, find?_collect, if_neg hu, hsame]
  · exact hgranted u fun hbelow => hu ((mem_collect (hsame ▸ hfind)).mpr hbelow)

theorem UpToDate.collect (h : s.UpToDate) (s₁ : Authorize) (i : IdentityPK) (hsame : s₁.users = s.users)
    (hpermissions : s'.permissions = s.permissions) (husers : s'.users = (s₁.collect i).1.users)
    (hgranted : ∀ u, ¬ s₁.Below i u → s'.Granted u = s.Granted u) : (s'.refresh (s₁.collect i).2).UpToDate := by
  have hpending := (h.pending.collect s₁ i hsame hpermissions husers hgranted).refresh
  rwa [List.nil_union] at hpending

end Collect

section Contains

theorem contains_setUserPermissions (only : List UserPK) (u : UserPK) :
    (s.setUserPermissions only).users.contains u = s.users.contains u :=
  (gives_setUserPermissions only u).isSome_eq

variable (users : List UserPK)

theorem contains_refresh (u : UserPK) : (s.refresh users).users.contains u = s.users.contains u := by
  unfold refresh
  split_ifs
  · rfl
  · exact contains_setUserPermissions users u

theorem contains_recalc (u : UserPK) : s.recalc.users.contains u = s.users.contains u := by
  refine (contains_setUserPermissions [] u).trans ?_
  unfold contains
  rw [find?_map, isSome_map]

theorem contains_collect (i : IdentityPK) (u : UserPK) : (s.collect i).1.users.contains u = s.users.contains u := by
  unfold contains
  rw [find?_collect]
  split_ifs
  · rw [isSome_map]
  · rfl

theorem refresh_eq : s.refresh users = { s with users := (s.refresh users).users } := by
  unfold refresh
  split_ifs <;> rfl

end Contains

section Groups

theorem Group.mem_emplace {x : Group} {j : IdentityPK} (h : j ∈ (x.emplace i).members) : j = i ∨ j ∈ x.members := by
  unfold Group.emplace at h
  split_ifs at h
  · exact .inr h
  · exact (List.mem_append.mp h).elim .inr fun hj => .inl (List.mem_singleton.mp hj)

theorem Group.subset_emplace (x : Group) (i : IdentityPK) : x.members ⊆ (x.emplace i).members := by
  unfold Group.emplace
  split_ifs
  · exact List.Subset.refl _
  · exact List.subset_append_left _ _

@[simp] theorem Group.emplace_isDeleted (x : Group) (i : IdentityPK) : (x.emplace i).isDeleted = x.isDeleted := by
  unfold Group.emplace
  split_ifs <;> rfl

variable {x : Authorize × List UserPK}

theorem Pending.addMember (h : x.1.Pending x.2) (g : GroupPK) (pk : ℕ) :
    (addMember g x pk).1.Pending (addMember g x pk).2 := by
  unfold Authorize.addMember
  refine h.collect _ _ rfl (by simp) rfl fun u hbelow => ?_
  refine granted_eq (by simp) (by simp) fun j => (reaches_iff_of_step (fun b c hstep => ?_) fun b c hstep hrest => ?_).symm
  · rw [collect_groups]
    exact step_modify hstep fun _ x => .imp (by simp) fun hmem => Group.subset_emplace _ _ hmem
  · rw [collect_groups] at hstep hrest
    refine step_of_modify hstep fun _ x => .imp (by simp) fun hmem => (Group.mem_emplace hmem).resolve_left ?_
    rintro rfl
    exact hbelow hrest

theorem UpToDate.createGroup (h : s.UpToDate) (g : GroupPK) : (s.createGroup g).UpToDate :=
  h.of_granted rfl rfl fun _ _ _ => granted_eq rfl rfl fun _ =>
    reaches_iff_of_step (fun _ _ => step_emplace.mp) fun _ _ hstep _ => step_emplace.mpr hstep

theorem UpToDate.addToGroup (h : s.UpToDate) (g : GroupPK) (members : List ℕ) : (s.addToGroup g members).UpToDate := by
  refine Pending.refresh (List.foldlRecOn (motive := fun x : Authorize × List UserPK => x.1.Pending x.2) members _ (h.createGroup g).pending ?_)
  exact fun x hx pk _ => hx.addMember g pk

theorem Pending.removeMember (h : x.1.Pending x.2) (g : GroupPK) (pk : ℕ) :
    (removeMember g x pk).1.Pending (removeMember g x pk).2 := by
  obtain ⟨s, cleared⟩ := x
  unfold removeMember
  split
  · exact h
  · rename_i i _
    refine h.collect s i rfl (by simp) rfl fun u hbelow => ?_
    refine granted_eq (by simp) (by simp) fun j => reaches_iff_of_step (fun b c hstep => ?_) fun b c hstep hrest => ?_
    · rw [← collect_groups]
      exact step_of_modify hstep fun _ x => .imp_right List.mem_of_mem_erase
    · rw [← collect_groups] at hstep
      refine step_modify hstep fun _ x => .imp_right (List.mem_erase_of_ne ?_).mpr
      rintro rfl
      exact hbelow hrest

theorem UpToDate.removeFromGroup (h : s.UpToDate) (g : GroupPK) (members : List ℕ) :
    (s.removeFromGroup g members).UpToDate := by
  refine Pending.refresh (List.foldlRecOn (motive := fun x : Authorize × List UserPK => x.1.Pending x.2) members _ h.pending ?_)
  exact fun x hx pk _ => hx.removeMember g pk

/-- What a group passes on comes or goes: nobody who is not below it then is below anything else for it. -/
theorem below_iff_of_group (hsub : ∀ b c, (groupNesting s.groups).Step b c → (groupNesting s'.groups).Step b c)
    (hother : ∀ b c, b ≠ .group g → (groupNesting s'.groups).Step b c → (groupNesting s.groups).Step b c)
    (hbelow : ¬ s'.Below (.group g) u) (i : IdentityPK) : s.Below i u ↔ s'.Below i u := by
  refine reaches_iff_of_step hsub fun b c hstep hrest => hother b c ?_ hstep
  rintro rfl
  exact hbelow (.head hstep hrest)

theorem UpToDate.restoreGroup (h : s.UpToDate) (g : GroupPK) : (s.restoreGroup g).UpToDate := by
  unfold Authorize.restoreGroup
  split_ifs with hg
  · refine h.collect { s with groups := s.groups.modify g fun x => { x with isDeleted := false } } (.group g)
      rfl rfl rfl fun u hbelow => granted_eq rfl rfl fun i => (below_iff_of_group ?_ ?_ hbelow i).symm
    · exact fun b c hstep => step_modify hstep fun _ x hx => ⟨rfl, hx.2⟩
    · exact fun b c hb hstep => step_of_modify hstep fun heq => absurd heq hb
  · exact h

theorem UpToDate.deleteGroup (h : s.UpToDate) (g : GroupPK) : (s.deleteGroup g).UpToDate := by
  unfold Authorize.deleteGroup
  split
  · exact h
  · split_ifs
    · exact h
    · refine h.collect s (.group g) rfl rfl rfl fun u hbelow => granted_eq rfl rfl
        (below_iff_of_group ?_ (fun b c hb hstep => step_modify hstep fun heq => absurd heq hb) hbelow)
      exact fun b c hstep => step_of_modify hstep nofun

/-- The users of a live group are refreshed without it; a deleted one had none. -/
theorem UpToDate.eraseGroup (h : s.UpToDate) {group : Group} (hfind : s.groups.find? g = some group) :
    (s.eraseGroup g group).UpToDate := by
  have hgranted : ∀ s' : Authorize, s'.groups = s.groups.erase g → s'.acl = s.acl → s'.roles = s.roles →
      ∀ u, ¬ s.Below (.group g) u → s'.Granted u = s.Granted u := by
    intro s' hgroups hacl hroles u hbelow
    refine granted_eq hacl hroles (below_iff_of_group ?_ ?_ hbelow)
    · rw [hgroups]
      exact fun b c hstep => (step_erase.mp hstep).2
    · rw [hgroups]
      exact fun b c hb hstep => step_erase.mpr ⟨hb, hstep⟩
  unfold Authorize.eraseGroup
  split_ifs with hdeleted
  · refine h.of_granted rfl rfl fun u _ _ => hgranted { s with groups := s.groups.erase g } rfl rfl rfl u (not_below_group fun x hx => ?_)
    obtain rfl := some.inj (hfind.symm.trans hx)
    exact hdeleted
  · exact h.collect s (.group g) rfl rfl rfl (hgranted _ rfl rfl rfl)

/-- A pk's rows and memberships can go when they reach nobody, or nobody who is given anything. -/
theorem UpToDate.purgeIdentity (h : s.UpToDate) {pk : ℕ}
    (hnobody : ∀ u user, s.users.find? u = some user → (∀ i, s.Named i → i.underlying = pk → ¬ s.Below i u) ∨
      ∀ perm p, s.permissions.find? perm = some p → perm ∉ s.Granted u) : (s.purgeIdentity pk).UpToDate := by
  have hfewer : ∀ u, (s.purgeIdentity pk).Granted u ⊆ s.Granted u := by
    rintro u perm ⟨e, he, hbelow, hgrants⟩
    exact ⟨e, (List.mem_filter.mp he).1, hbelow.lift id fun b c hstep => (step_purge.mp hstep).1, hgrants⟩
  refine fun u user hfind => (h u user hfind).congr fun perm p hp => ⟨fun hin => ?_, fun hin => hfewer u hin⟩
  obtain hnot | hnothing := hnobody u user hfind
  · obtain ⟨e, he, hbelow, hgrants⟩ := hin
    have hrow : e.1.underlying ≠ pk := fun hpk => hnot e.1 (.inl ⟨e.2, he⟩) hpk hbelow
    refine ⟨e, List.mem_filter.mpr ⟨he, decide_eq_true hrow⟩, ?_, hgrants⟩
    refine (reaches_iff_of_step (fun b c hstep => (step_purge.mp hstep).1) fun b c hstep hrest => ?_).mpr hbelow
    obtain ⟨g, x, -, hx, -, hmem⟩ := step_group.mp hstep
    exact step_purge.mpr ⟨hstep, fun hpk => hnot c (.inr ⟨g, x, hx, hmem⟩) hpk hrest⟩
  · exact absurd hin (hnothing perm p hp)

end Groups

section Acl

@[simp] theorem underlying_toIdentityPK (pk : ℕ) : (s.toIdentityPK pk).underlying = pk := by
  unfold toIdentityPK
  split_ifs <;> rfl

section Entry

variable (i : IdentityPK) (p : PermissionRole)

@[simp] theorem addAclEntry_users : (s.addAclEntry i p).users = s.users := by unfold addAclEntry; split_ifs <;> rfl

@[simp] theorem addAclEntry_groups : (s.addAclEntry i p).groups = s.groups := by unfold addAclEntry; split_ifs <;> rfl

@[simp] theorem addAclEntry_roles : (s.addAclEntry i p).roles = s.roles := by unfold addAclEntry; split_ifs <;> rfl

@[simp] theorem addAclEntry_permissions : (s.addAclEntry i p).permissions = s.permissions := by
  unfold addAclEntry; split_ifs <;> rfl

end Entry

theorem Kinded.row (h : s.Kinded) {e : IdentityPK × PermissionRole} (he : e ∈ s.acl) {pk : ℕ}
    (hpk : e.1.underlying = pk) : e.1 = s.toIdentityPK pk := by
  rw [← hpk, h e.1 (.inl ⟨e.2, he⟩)]

theorem granted_addAclEntry (h : s.Kinded) (pk : ℕ) (p : PermissionRole) (u : UserPK) :
    (s.addAclEntry (s.toIdentityPK pk) p).Granted u =
      s.Granted u ∪ { perm | s.Below (s.toIdentityPK pk) u ∧ s.Grants p perm } := by
  ext perm
  simp only [addAclEntry, underlying_toIdentityPK, Set.mem_union, Set.mem_ofPred_eq]
  split_ifs with hrow
  · obtain ⟨e, he, hsame⟩ := List.any_eq_true.mp hrow
    obtain ⟨hpk, hp⟩ : e.1.underlying = pk ∧ e.2 = p := by simpa using hsame
    refine ⟨.inl, fun hor => hor.elim id fun hnew => ⟨e, he, ?_, ?_⟩⟩
    · rw [h.row he hpk]; exact hnew.1
    · rw [hp]; exact hnew.2
  · constructor
    · rintro ⟨e, he, hbelow, hgrants⟩
      obtain he | he := List.mem_append.mp he
      · exact .inl ⟨e, he, hbelow, hgrants⟩
      · obtain rfl := List.mem_singleton.mp he
        exact .inr ⟨hbelow, hgrants⟩
    · rintro (⟨e, he, hbelow, hgrants⟩ | ⟨hbelow, hgrants⟩)
      · exact ⟨e, List.mem_append_left _ he, hbelow, hgrants⟩
      · exact ⟨_, List.mem_append_right _ (List.mem_singleton_self _), hbelow, hgrants⟩

/-- An identity's users refreshed, every other up to date. -/
theorem upToDate_recalcIdentity (pk : ℕ)
    (hkept : ∀ u user, s.users.find? u = some user → ¬ s.Below (s.toIdentityPK pk) u →
      user.Holds s.permissions (s.Granted u)) : (s.recalcIdentity (s.toIdentityPK pk)).UpToDate := by
  have hpending : (s.collect (s.toIdentityPK pk)).1.Pending (s.collect (s.toIdentityPK pk)).2 := by
    refine ⟨fun u hu user hfind => ?_, fun u hu user hfind => ?_⟩
    · rw [find?_collect, if_pos hu] at hfind
      obtain ⟨old, -, rfl⟩ := map_eq_some_iff.mp hfind
      exact User.holds_clear old
    · rw [find?_collect, if_neg hu] at hfind
      rw [collect_permissions, granted_eq collect_acl collect_roles fun i => by rw [Below, collect_groups]; rfl]
      exact hkept u user hfind fun hbelow => hu ((mem_collect hfind).mpr hbelow)
  have hrefresh := hpending.refresh
  unfold toIdentityPK at hrefresh ⊢
  split_ifs at hrefresh ⊢ with hu
  · simp only [collect, hu, if_true, refresh, List.cons_ne_nil, if_false] at hrefresh
    exact hrefresh
  · exact hrefresh

theorem upToDate_addAclEntry (h : s.Kinded) (pk : ℕ) (p : PermissionRole)
    (hkept : ∀ u user, s.users.find? u = some user → ¬ s.Below (s.toIdentityPK pk) u →
      user.Holds s.permissions (s.Granted u)) :
    ((s.addAclEntry (s.toIdentityPK pk) p).recalcIdentity (s.toIdentityPK pk)).UpToDate := by
  have hgranted := granted_addAclEntry h pk p
  have hsame : (s.addAclEntry (s.toIdentityPK pk) p).toIdentityPK pk = s.toIdentityPK pk := by
    rw [toIdentityPK, addAclEntry_users]
    rfl
  have hrefreshed := upToDate_recalcIdentity (s := s.addAclEntry (s.toIdentityPK pk) p) pk
  rw [hsame] at hrefreshed
  refine hrefreshed fun u user hfind hbelow => ?_
  rw [Below, addAclEntry_groups] at hbelow
  rw [addAclEntry_users] at hfind
  rw [addAclEntry_permissions, hgranted]
  exact (hkept u user hfind hbelow).congr fun perm _ _ => (or_iff_left fun hnew => hbelow hnew.1).symm

theorem UpToDate.removeAcl (h : s.UpToDate) (hkinded : s.Kinded) (identity : ℕ) (p : PermissionRole) :
    (s.removeAcl identity p).UpToDate := by
  refine upToDate_recalcIdentity (s := { s with acl := _ }) identity fun u user hfind hbelow => ?_
  refine (h u user hfind).congr fun perm _ _ => ⟨?_, ?_⟩
  · rintro ⟨e, he, hbelow', hgrants⟩
    refine ⟨e, (List.mem_eraseP_of_neg ?_).mpr he, hbelow', hgrants⟩
    intro hsame
    obtain ⟨hpk, -⟩ : e.1.underlying = identity ∧ e.2 = p := by simpa using hsame
    exact hbelow (hkinded.row he hpk ▸ hbelow')
  · rintro ⟨e, he, hbelow', hgrants⟩
    exact ⟨e, List.mem_of_mem_eraseP he, hbelow', hgrants⟩

theorem UpToDate.addAclRole (h : s.UpToDate) (hkinded : s.Kinded) (identity : ℕ) (r : RolePK) :
    (s.addAclRole identity r).UpToDate := by
  have hgranted := granted_addAclEntry hkinded identity (.role r)
  cases hu : s.users.contains identity with
  | true =>
    have hidentity : s.toIdentityPK identity = .user identity := if_pos hu
    simp only [Authorize.addAclRole, hidentity] at hgranted ⊢
    intro u user hfind
    obtain ⟨old, hold, hgiven⟩ := gives_addPermission.of_some hfind
    have hheld : old.Holds (s.addAclEntry (.user identity) (.role r)).permissions (s.Granted u) := by
      rw [addAclEntry_permissions]
      exact h u old (by rwa [addAclEntry_users] at hold)
    change user.Holds _ ((s.addAclEntry (.user identity) (.role r)).Granted u)
    rw [hgranted]
    by_cases hsame : u = identity
    · refine (hgiven.holds (.inr (hsame ▸ List.mem_singleton_self u)) _ hheld).congr fun pk p _ => ?_
      simp only [Below, Grants, addAclEntry_groups, addAclEntry_roles]
    · rw [hgiven.kept (by simpa using hsame)]
      refine hheld.congr fun pk p _ => (or_iff_left fun hnew => ?_).symm
      exact hsame (below_user.mp hnew.1)
  | false =>
    have hidentity : s.toIdentityPK identity = .group identity := if_neg (by simp [hu])
    have hrefreshed := upToDate_addAclEntry hkinded identity (.role r) fun u user hfind _ => h u user hfind
    simp only [Authorize.addAclRole, hidentity] at hrefreshed ⊢
    exact hrefreshed

/-- A permission that is new gives nothing yet, but where rows that are there name it. -/
theorem UpToDate.addAclPermission (h : s.UpToDate) (hkinded : s.Kinded) (identity : ℕ) (pk : PermissionPK)
    (p : Permission)
    (hcovers : s.permissions.find? pk = none → ∀ u user, s.users.find? u = some user → pk ∈ s.Granted u →
      s.Below (s.toIdentityPK identity) u) : (s.addAclPermission identity pk p).UpToDate := by
  unfold Authorize.addAclPermission
  dsimp only
  split_ifs with hchanged
  · exact upToDate_recalc _
  · refine upToDate_addAclEntry (s := { s with permissions := s.permissions.insert pk p })
      hkinded identity (.permission pk) fun u user hfind hbelow => ?_
    cases hold : s.permissions.find? pk with
    | none => exact (h u user hfind).insert (fun hin => hbelow (hcovers hold u user hfind hin)) p
    | some q =>
      have hsame : q = p := by simpa [hold] using hchanged
      have htable : s.permissions.insert pk p = s.permissions := ext_find fun pk' => by
        rw [find?_insert]
        split_ifs with hpk
        · rw [hpk, hold, hsame]
        · rfl
      rw [htable]
      exact h u user hfind

end Acl

section Roles

variable {roles : OrdMap RolePK Role} {b c : PermissionRole}

theorem step_role_erase {r : RolePK} :
    (roleNesting (roles.erase r)).Step b c ↔ b ≠ .role r ∧ (roleNesting roles).Step b c := by
  simp only [step_role, find?_erase]
  constructor
  · rintro ⟨r', x, rfl, hx, hrest⟩
    split_ifs at hx with hr
    exact ⟨fun heq => hr (PermissionRole.role.inj heq), r', x, rfl, hx, hrest⟩
  · rintro ⟨hne, r', x, rfl, hx, hrest⟩
    exact ⟨r', x, rfl, by rw [if_neg fun heq => hne (congrArg PermissionRole.role heq), hx], hrest⟩

theorem step_role_purge (gone : PermissionRole → Bool) :
    (roleNesting (roles.map fun _ x => x.purge gone)).Step b c ↔ (roleNesting roles).Step b c ∧ gone c = false := by
  simp only [step_role, find?_map]
  constructor
  · rintro ⟨r', x, rfl, hx, hlive, hmem⟩
    obtain ⟨y, hy, rfl⟩ := map_eq_some_iff.mp hx
    obtain ⟨hmem, hgone⟩ := List.mem_filter.mp hmem
    exact ⟨⟨r', y, rfl, hy, hlive, hmem⟩, by simpa using hgone⟩
  · rintro ⟨⟨r', y, rfl, hy, hlive, hmem⟩, hgone⟩
    exact ⟨r', y.purge gone, rfl, by rw [hy]; rfl, hlive, List.mem_filter.mpr ⟨hmem, by simpa using hgone⟩⟩

variable {pk : PermissionPK}

theorem not_grants_role {r : RolePK} (h : ∀ x, s.roles.find? r = some x → x.isDeleted = true) :
    ¬ s.Grants (.role r) pk := by
  intro hgrants
  obtain heq | ⟨c, hstep, -⟩ := cases_head hgrants
  · cases heq
  · obtain ⟨r', x, heq, hx, hlive, -⟩ := step_role.mp hstep
    obtain rfl := PermissionRole.role.inj heq
    exact absurd ((h x hx).symm.trans hlive) (by simp)

theorem not_onResource_of_grants {resource : ResourcePK} {q : PermissionRole}
    (hkept : s.onResource resource (.permission pk) = false) (hgrants : s.Grants q pk) :
    s.onResource resource q = false := by
  obtain rfl | ⟨c, hstep, -⟩ := cases_head hgrants
  · exact hkept
  · obtain ⟨r, x, rfl, -⟩ := step_role.mp hstep
    rfl

theorem UpToDate.purgeRole (h : s.UpToDate) (r : RolePK) : (s.purgeRole r).UpToDate := by
  unfold Authorize.purgeRole
  split
  · exact h
  · rename_i role hfind
    split_ifs with hdeleted
    · have hnothing : ∀ pk, ¬ s.Grants (.role r) pk := fun pk => not_grants_role fun x hx => by
        obtain rfl := some.inj (hfind.symm.trans hx)
        exact hdeleted
      refine h.of_granted rfl rfl fun u _ _ => Set.ext fun pk => ?_
      -- neither a step from the deleted role nor one to it leads to a permission
      have hgrants : ∀ p, (roleNesting ((s.roles.erase r).map fun _ x => x.purge fun p => p = .role r)).Reaches p
          (.permission pk) ↔ s.Grants p pk := by
        refine fun p => reaches_iff_of_step (fun b c hstep => ?_) fun b c hstep hrest => ?_
        · exact (step_role_erase.mp ((step_role_purge _).mp hstep).1).2
        · refine (step_role_purge _).mpr ⟨step_role_erase.mpr ⟨?_, hstep⟩, decide_eq_false ?_⟩
          · rintro rfl
            exact hnothing pk (.head hstep hrest)
          · rintro rfl
            exact hnothing pk hrest
      constructor
      · rintro ⟨e, he, hbelow, hg⟩
        exact ⟨e, (List.mem_filter.mp he).1, hbelow, (hgrants e.2).mp hg⟩
      · rintro ⟨e, he, hbelow, hg⟩
        refine ⟨e, List.mem_filter.mpr ⟨he, decide_eq_true fun heq => ?_⟩, hbelow, (hgrants e.2).mpr hg⟩
        exact hnothing pk (heq ▸ hg)
    · exact upToDate_recalc _

theorem UpToDate.removeRoleChildren (h : s.UpToDate) (r : RolePK) (toRemove : List PermissionRole) :
    (s.removeRoleChildren r toRemove).UpToDate := by
  unfold Authorize.removeRoleChildren
  split_ifs
  · exact h
  · exact upToDate_recalc _

theorem UpToDate.updatePermission (h : s.UpToDate) {allowed denied : Option ERights}
    (hsome : s.updatePermission pk allowed denied = some s') : s'.UpToDate := by
  obtain ⟨p, hp, rfl⟩ := map_eq_some_iff.mp hsome
  intro u user hfind
  obtain ⟨old, hold, rfl⟩ := map_eq_some_iff.mp ((find?_map _ _ _).symm.trans hfind)
  exact (h u old hold).updatePermission hp allowed denied

/-- Purging a resource: what is left of the permissions is held and granted as before. -/
theorem UpToDate.purgeResource (h : s.UpToDate) (resource : ResourcePK) : (s.purgeResource resource).UpToDate := by
  unfold Authorize.purgeResource
  split_ifs with hany
  · intro u user hfind
    obtain ⟨old, hold, rfl⟩ := map_eq_some_iff.mp ((find?_map _ _ _).symm.trans hfind)
    refine ((h u old hold).purge resource).congr fun pk p hp => ?_
    obtain ⟨hp, hne⟩ := find?_filter_eq_some.mp hp
    have hkept : s.onResource resource (.permission pk) = false := by simpa [onResource, hp] using hne
    have hgrants : ∀ q, (roleNesting (s.roles.map fun _ role => role.purge (s.onResource resource))).Reaches q
        (.permission pk) ↔ s.Grants q pk := by
      refine fun q => reaches_iff_of_step (fun b c hstep => ((step_role_purge _).mp hstep).1) fun b c hstep hrest => ?_
      exact (step_role_purge _).mpr ⟨hstep, not_onResource_of_grants hkept hrest⟩
    constructor
    · rintro ⟨e, he, hbelow, hg⟩
      refine ⟨e, List.mem_filter.mpr ⟨he, ?_⟩, hbelow, (hgrants e.2).mpr hg⟩
      rw [not_onResource_of_grants hkept hg]
      rfl
    · rintro ⟨e, he, hbelow, hg⟩
      exact ⟨e, (List.mem_filter.mp he).1, hbelow, (hgrants e.2).mp hg⟩
  · have htable : s.permissions.filter (fun _ p => p.resourcePK ≠ resource) = s.permissions := by
      refine ext_find fun pk => ext fun p => ?_
      rw [find?_filter_eq_some]
      refine ⟨And.left, fun hp => ⟨hp, decide_eq_true fun heq => hany ?_⟩⟩
      exact List.any_eq_true.mpr ⟨p, mem_values.mpr ⟨pk, hp⟩, decide_eq_true heq⟩
    rw [htable]
    exact h

end Roles

section Users

theorem UpToDate.createUser (h : s.UpToDate) (u : UserPK) (name : String)
    (hnew : s.users.find? u = none → ¬ s.Named (.user u)) : (s.createUser u name).UpToDate := by
  intro v user hfind
  unfold Authorize.createUser at hfind
  rw [find?_insert] at hfind
  split_ifs at hfind with hv
  · subst hv
    cases hfind
    cases hold : s.users.find? v with
    | some old => exact ⟨(h v old hold).permissions, ⟨(h v old hold).summed.bits, (h v old hold).summed.present⟩⟩
    | none =>
      refine (User.holds_clear { name }).congr fun pk p _ => ⟨fun hin => absurd hin (Set.notMem_empty pk), ?_⟩
      rintro ⟨e, he, hbelow, -⟩
      exact absurd (named_of_below he hbelow) (hnew hold)
  · exact h v user hfind

theorem UpToDate.setUserDeleted (h : s.UpToDate) (u : UserPK) (isDeleted : Bool) :
    (s.setUserDeleted u isDeleted).UpToDate := by
  intro v user hfind
  unfold Authorize.setUserDeleted at hfind
  rw [find?_modify] at hfind
  split_ifs at hfind with hv
  · obtain ⟨old, hold, rfl⟩ := map_eq_some_iff.mp hfind
    exact ⟨(h v old hold).permissions, ⟨(h v old hold).summed.bits, (h v old hold).summed.present⟩⟩
  · exact h v user hfind

theorem UpToDate.purgeUser (h : s.UpToDate) (hkinded : s.Kinded) (u : UserPK)
    (hu : s.users.contains u = true ∨ s.groups.find? u = none) : (s.purgeUser u).UpToDate := by
  have herased : { s with users := s.users.erase u }.UpToDate := by
    intro v user hfind
    rw [find?_erase] at hfind
    split_ifs at hfind
    exact h v user hfind
  refine herased.purgeIdentity fun v user hfind => .inl fun i hnamed hi hbelow => ?_
  cases i with
  | user w =>
    obtain rfl : w = u := hi
    obtain rfl := below_user.mp hbelow
    rw [find?_erase, if_pos rfl] at hfind
    cases hfind
  | group g =>
    obtain rfl : g = u := hi
    obtain huser | hgroup := hu
    · -- the pk is a user's, so nothing names a group by it
      have hkind := hkinded (.group g) hnamed
      rw [IdentityPK.underlying, toIdentityPK, if_pos huser] at hkind
      cases hkind
    · refine not_below_group (fun x hx => ?_) hbelow
      cases hgroup.symm.trans hx

section EraseGroup

variable {group : Group}

theorem eraseGroup_eq (g : GroupPK) (group : Group) :
    s.eraseGroup g group = { s with users := (s.eraseGroup g group).users, groups := s.groups.erase g } := by
  unfold eraseGroup
  split_ifs
  · rfl
  · exact refresh_eq _

theorem contains_eraseGroup (g : GroupPK) (group : Group) (u : UserPK) :
    (s.eraseGroup g group).users.contains u = s.users.contains u := by
  unfold eraseGroup
  split_ifs
  · rfl
  · exact (contains_refresh _ _).trans (contains_collect (.group g) u)

theorem granted_eraseGroup_subset (u : UserPK) : (s.eraseGroup g group).Granted u ⊆ s.Granted u := by
  rintro perm ⟨e, he, hbelow, hgrants⟩
  rw [eraseGroup_eq] at he hbelow hgrants
  exact ⟨e, he, hbelow.lift id fun b c hstep => (step_erase.mp hstep).2, hgrants⟩

end EraseGroup

/-- A pk that is also a user's takes the user's rows with it: they must give nothing. -/
theorem UpToDate.purgeGroup (h : s.UpToDate) (g : GroupPK)
    (hcovers : s.groups.contains g = true → s.users.contains g = true →
      ∀ pk, s.permissions.contains pk = true → pk ∉ s.Granted g) : (s.purgeGroup g).UpToDate := by
  unfold Authorize.purgeGroup
  split
  · exact h
  · rename_i group hfind
    refine (h.eraseGroup hfind).purgeIdentity fun u user huser => ?_
    by_cases hug : u = g
    · subst hug
      refine .inr fun perm p hp hin => ?_
      have hu : s.users.contains u = true :=
        (contains_eraseGroup u group u).symm.trans (contains_iff.mpr ⟨user, huser⟩)
      refine hcovers (contains_iff.mpr ⟨group, hfind⟩) hu perm (contains_iff.mpr ⟨p, ?_⟩)
        (granted_eraseGroup_subset u hin)
      rwa [eraseGroup_eq] at hp
    · refine .inl fun i _ hi hbelow => ?_
      cases i with
      | user v =>
        obtain rfl : v = g := hi
        exact hug (below_user.mp hbelow)
      | group g' =>
        obtain rfl : g' = g := hi
        refine not_below_group (fun x hx => ?_) hbelow
        rw [eraseGroup_eq, find?_erase, if_pos rfl] at hx
        cases hx

end Users

end Authorize

end OpcHub.Access
