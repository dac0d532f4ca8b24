import OpcHub.Access.Resources
import OpcHub.Lib.Descent

/-! Users, groups, roles and the acl. A grant to a group reaches the users
anywhere inside it, and one of a role the permissions anywhere inside that;
deleted groups and roles pass nothing on. Groups may be inside each other, and
so may roles: each walk opens one once. A user's rights come of every row of the
acl whose identity has the user inside and whose grant has the permission. -/

namespace OpcHub.Access

open OpcHub.Lib OrdMap Nesting

/-- A user or a group: the pks are of one table. -/
inductive IdentityPK
  | user (pk : UserPK)
  | group (pk : GroupPK)
  deriving DecidableEq

/-- What identities are ordered and found by. -/
def IdentityPK.underlying : IdentityPK → ℕ
  | .user pk => pk
  | .group pk => pk

def IdentityPK.user? : IdentityPK → Option UserPK
  | .user pk => some pk
  | .group _ => none

def IdentityPK.group? : IdentityPK → Option GroupPK
  | .user _ => none
  | .group pk => some pk

inductive PermissionRole
  | permission (pk : PermissionPK)
  | role (pk : RolePK)
  deriving DecidableEq

structure Group where
  isDeleted : Bool := false
  members : List IdentityPK := []
  deriving DecidableEq

structure Role where
  isDeleted : Bool := false
  members : List PermissionRole := []
  deriving DecidableEq

structure Authorize where
  users : OrdMap UserPK User := ∅
  groups : OrdMap GroupPK Group := ∅
  roles : OrdMap RolePK Role := ∅
  permissions : OrdMap PermissionPK Permission := ∅
  acl : List (IdentityPK × PermissionRole) := []
  table : Table := {}
  deriving DecidableEq

/-- Only a live group opens. -/
def groupNesting (groups : OrdMap GroupPK Group) : Nesting GroupPK IdentityPK where
  opens
    | .user _ => none
    | .group g => if (groups.find? g).any fun x => !x.isDeleted then some g else none
  inside
    | .user _ => []
    | .group g => ((groups.find? g).map Group.members).getD []

/-- Only a live role opens. -/
def roleNesting (roles : OrdMap RolePK Role) : Nesting RolePK PermissionRole where
  opens
    | .permission _ => none
    | .role r => if (roles.find? r).any fun x => !x.isDeleted then some r else none
  inside
    | .permission _ => []
    | .role r => ((roles.find? r).map Role.members).getD []

section Nesting

variable {groups : OrdMap GroupPK Group} {roles : OrdMap RolePK Role}

theorem opens_group {i : IdentityPK} {g : GroupPK} :
    (groupNesting groups).opens i = some g ↔ i = .group g ∧ ∃ x, groups.find? g = some x ∧ x.isDeleted = false := by
  cases i with
  | user u => simp [groupNesting]
  | group g' =>
    simp only [groupNesting, Option.any_eq_true, Bool.not_eq_true', Option.ite_none_right_eq_some, Option.some.injEq,
      IdentityPK.group.injEq]
    exact ⟨fun ⟨hlive, heq⟩ => ⟨heq, heq ▸ hlive⟩, fun ⟨heq, hlive⟩ => ⟨heq ▸ hlive, heq⟩⟩

theorem opens_role {p : PermissionRole} {r : RolePK} :
    (roleNesting roles).opens p = some r ↔ p = .role r ∧ ∃ x, roles.find? r = some x ∧ x.isDeleted = false := by
  cases p with
  | permission pk => simp [roleNesting]
  | role r' =>
    simp only [roleNesting, Option.any_eq_true, Bool.not_eq_true', Option.ite_none_right_eq_some, Option.some.injEq,
      PermissionRole.role.injEq]
    exact ⟨fun ⟨hlive, heq⟩ => ⟨heq, heq ▸ hlive⟩, fun ⟨heq, hlive⟩ => ⟨heq ▸ hlive, heq⟩⟩

theorem groupNesting_injective : (groupNesting groups).Injective := fun hb hc =>
  (opens_group.mp hb).1.trans (opens_group.mp hc).1.symm

theorem roleNesting_injective : (roleNesting roles).Injective := fun hb hc =>
  (opens_role.mp hb).1.trans (opens_role.mp hc).1.symm

theorem mem_keys_of_opens_group {i : IdentityPK} {g : GroupPK} (h : (groupNesting groups).opens i = some g) :
    g ∈ groups.keys :=
  let ⟨x, hx, _⟩ := (opens_group.mp h).2
  mem_keys.mpr ⟨x, hx⟩

theorem mem_keys_of_opens_role {p : PermissionRole} {r : RolePK} (h : (roleNesting roles).opens p = some r) :
    r ∈ roles.keys :=
  let ⟨x, hx, _⟩ := (opens_role.mp h).2
  mem_keys.mpr ⟨x, hx⟩

theorem step_group {i j : IdentityPK} : (groupNesting groups).Step i j ↔
      ∃ g x, i = .group g ∧ groups.find? g = some x ∧ x.isDeleted = false ∧ j ∈ x.members := by
  constructor
  · rintro ⟨hopens, hmem⟩
    obtain ⟨g, hg⟩ := Option.isSome_iff_exists.mp hopens
    obtain ⟨rfl, x, hx, hlive⟩ := opens_group.mp hg
    exact ⟨g, x, rfl, hx, hlive, by simpa [groupNesting, hx] using hmem⟩
  · rintro ⟨g, x, rfl, hx, hlive, hmem⟩
    exact ⟨Option.isSome_iff_exists.mpr ⟨g, opens_group.mpr ⟨rfl, x, hx, hlive⟩⟩, by simpa [groupNesting, hx] using hmem⟩

theorem step_role {p q : PermissionRole} : (roleNesting roles).Step p q ↔
      ∃ r x, p = .role r ∧ roles.find? r = some x ∧ x.isDeleted = false ∧ q ∈ x.members := by
  constructor
  · rintro ⟨hopens, hmem⟩
    obtain ⟨r, hr⟩ := Option.isSome_iff_exists.mp hopens
    obtain ⟨rfl, x, hx, hlive⟩ := opens_role.mp hr
    exact ⟨r, x, rfl, hx, hlive, by simpa [roleNesting, hx] using hmem⟩
  · rintro ⟨r, x, rfl, hx, hlive, hmem⟩
    exact ⟨Option.isSome_iff_exists.mpr ⟨r, opens_role.mpr ⟨rfl, x, hx, hlive⟩⟩, by simpa [roleNesting, hx] using hmem⟩

end Nesting

namespace Authorize

variable (s : Authorize)

/-- The user is the identity, or inside it. -/
def Below (i : IdentityPK) (u : UserPK) : Prop := (groupNesting s.groups).Reaches i (.user u)

/-- The permission is the grant, or inside it. -/
def Grants (p : PermissionRole) (pk : PermissionPK) : Prop := (roleNesting s.roles).Reaches p (.permission pk)

/-- The permissions the acl gives a user. -/
def Granted (u : UserPK) : Set PermissionPK := { pk | ∃ e ∈ s.acl, s.Below e.1 u ∧ s.Grants e.2 pk }

/-- A grant of a permission on the resource. -/
def onResource (resource : ResourcePK) : PermissionRole → Bool
  | .permission pk => (s.permissions.find? pk).any fun p => p.resourcePK = resource
  | .role _ => false

/-- One more user of a group: its rights cleared, and the user noted. -/
def takeUser : IdentityPK → OrdMap UserPK User × List UserPK → OrdMap UserPK User × List UserPK
  | .user u, x => (x.1.modify u User.clear, x.2.insert u)
  | .group _, x => x

/-- The users inside a group, their rights cleared. A deleted group has none. -/
def recursiveUsers (g : GroupPK) : Authorize × List UserPK :=
  let x := ((groupNesting s.groups).walk takeUser (s.groups.keys.length + 1) ([], (s.users, [])) (.group g)).2
  ({ s with users := x.1 }, x.2)

/-- A permission there is goes to the user. -/
def takePermission : PermissionRole → User → User
  | .permission pk, user =>
    match s.permissions.find? pk with
    | some p => user.plus pk p
    | none => user
  | .role _, user => user

def addUserPermissions (user : User) (p : PermissionRole) : User :=
  ((roleNesting s.roles).walk s.takePermission (s.roles.keys.length + 1) ([], user) p).2

/-- A user there is gets the grant, if it is one of those asked for: none stands for all. -/
def takeGrant (p : PermissionRole) (only : List UserPK) : IdentityPK → OrdMap UserPK User → OrdMap UserPK User
  | .user u, users => if only = [] ∨ u ∈ only then users.modify u fun user => s.addUserPermissions user p else users
  | .group _, users => users

def addPermission (i : IdentityPK) (p : PermissionRole) (only : List UserPK) (users : OrdMap UserPK User) :
    OrdMap UserPK User :=
  ((groupNesting s.groups).walk (s.takeGrant p only) (s.groups.keys.length + 1) ([], users) i).2

def setUserPermissions (only : List UserPK) : Authorize :=
  { s with users := s.acl.foldl (fun users e => s.addPermission e.1 e.2 only users) s.users }

def recalc : Authorize := { s with users := s.users.map fun _ user => user.clear }.setUserPermissions []

variable {s}

section Walks

variable {g : GroupPK} {u : UserPK} {i : IdentityPK} {p : PermissionRole} {user : User} {pks : Set PermissionPK}
  {only : List UserPK} {users : OrdMap UserPK User}

theorem mem_trace_group : .user u ∈ ((groupNesting s.groups).trace (s.groups.keys.length + 1) [] i).2 ↔ s.Below i u :=
  mem_trace_iff groupNesting_injective (fun _ _ _ _ h => mem_keys_of_opens_group h)
    (fun _ h => mem_keys_of_opens_group h) rfl

theorem mem_trace_role {pk : PermissionPK} :
    .permission pk ∈ ((roleNesting s.roles).trace (s.roles.keys.length + 1) [] p).2 ↔ s.Grants p pk :=
  mem_trace_iff roleNesting_injective (fun _ _ _ _ h => mem_keys_of_opens_role h)
    (fun _ h => mem_keys_of_opens_role h) rfl

theorem foldl_takeUser (l : List IdentityPK) (x : OrdMap UserPK User × List UserPK) (u : UserPK) :
    (l.foldl (fun x i => takeUser i x) x).1.find? u =
        (if .user u ∈ l then (x.1.find? u).map User.clear else x.1.find? u) ∧
      (u ∈ (l.foldl (fun x i => takeUser i x) x).2 ↔ .user u ∈ l ∨ u ∈ x.2) := by
  induction l generalizing x with
  | nil => simp
  | cons i l ih =>
    rw [List.foldl_cons, (ih _).1, (ih _).2]
    cases i with
    | group g => simp [takeUser]
    | user v =>
      simp only [takeUser, find?_modify, List.mem_insert_iff, List.mem_cons, IdentityPK.user.injEq]
      refine ⟨?_, by rw [← or_assoc, or_comm (b := u = v)]⟩
      by_cases huv : u = v
      · subst huv
        cases x.1.find? u <;> simp [User.clear]
      · simp [huv]

/-- The users inside the group, cleared; no other is touched, nor anything else. -/
theorem find?_recursiveUsers (g : GroupPK) (u : UserPK) : (s.recursiveUsers g).1.users.find? u =
      if u ∈ (s.recursiveUsers g).2 then (s.users.find? u).map User.clear else s.users.find? u := by
  simp only [recursiveUsers, walk_eq]
  rw [(foldl_takeUser _ _ _).1]
  simp only [(foldl_takeUser _ _ _).2, List.not_mem_nil, or_false]

theorem mem_recursiveUsers : u ∈ (s.recursiveUsers g).2 ↔ s.Below (.group g) u := by
  simp only [recursiveUsers, walk_eq]
  rw [(foldl_takeUser _ _ _).2, mem_trace_group]
  simp

theorem holds_addUserPermissions (h : user.Holds s.permissions pks) :
    (s.addUserPermissions user p).Holds s.permissions (pks ∪ { pk | s.Grants p pk }) := by
  have hlist : ∀ (l : List PermissionRole) (user : User) (pks : Set PermissionPK), user.Holds s.permissions pks →
      (l.foldl (fun user p => s.takePermission p user) user).Holds s.permissions (pks ∪ { pk | .permission pk ∈ l }) := by
    intro l
    induction l with
    | nil => exact fun user pks h => h.congr fun pk p _ => by simp
    | cons q l ih =>
      intro user pks h
      cases q with
      | role r => exact (ih user pks h).congr fun pk p _ => by simp
      | permission pk =>
        have hone : (s.takePermission (.permission pk) user).Holds s.permissions (insert pk pks) := by
          cases hp : s.permissions.find? pk with
          | some p =>
            simp only [takePermission, hp]
            exact h.plus hp
          | none =>
            simp only [takePermission, hp]
            refine h.congr fun pk' p hp' => ?_
            have hne : pk' ≠ pk := fun heq => by rw [heq, hp] at hp'; cases hp'
            simp [hne]
        refine (ih _ _ hone).congr fun pk' p _ => ?_
        simp only [Set.mem_union, Set.mem_insert_iff, Set.mem_ofPred_eq, List.mem_cons, PermissionRole.permission.injEq]
        rw [← or_assoc, or_comm (a := pk' ∈ pks)]
  simp only [addUserPermissions, walk_eq]
  refine (hlist _ user pks h).congr fun pk p _ => ?_
  simp only [Set.mem_union, Set.mem_ofPred_eq, mem_trace_role]

/-- What giving to an identity does to one user. -/
structure Given (s : Authorize) (more : Set PermissionPK) (asked : Prop) (user user' : User) : Prop where
  kept : ¬ asked → user' = user
  holds : asked → ∀ pks, user.Holds s.permissions pks → user'.Holds s.permissions (pks ∪ more)

/-- What giving does to a user there may be: it makes none and takes none away. -/
def Gives (s : Authorize) (more : Set PermissionPK) (asked : Prop) : Option User → Option User → Prop :=
  Option.Rel (s.Given more asked)

section Gives

variable {more : Set PermissionPK} {asked : Prop} {x y : Option User}

theorem Gives.isSome_eq (h : s.Gives more asked x y) : y.isSome = x.isSome := by
  cases h <;> rfl

theorem Gives.of_some (h : s.Gives more asked x y) (hy : y = some user) :
    ∃ old, x = some old ∧ s.Given more asked old user := by
  subst hy
  cases h with
  | some hgiven => exact ⟨_, rfl, hgiven⟩

end Gives

theorem gives_foldl {α : Type} {asked : Prop} {f : OrdMap UserPK User → α → OrdMap UserPK User}
    {more : α → Set PermissionPK} (hf : ∀ a users, s.Gives (more a) asked (users.find? u) ((f users a).find? u))
    (l : List α) (users : OrdMap UserPK User) :
    s.Gives { pk | ∃ a ∈ l, pk ∈ more a } asked (users.find? u) ((l.foldl f users).find? u) := by
  induction l generalizing users with
  | nil =>
    cases h : users.find? u with
    | none => exact h ▸ .none
    | some user => exact h ▸ .some ⟨fun _ => rfl, fun _ pks hpks => hpks.congr fun pk q _ => by simp⟩
  | cons a l ih =>
    have hfirst := hf a users
    have hrest := ih (f users a)
    rw [List.foldl_cons]
    generalize users.find? u = x, (f users a).find? u = y, (l.foldl f (f users a)).find? u = z at hfirst hrest ⊢
    cases hfirst with
    | none =>
      cases hrest
      exact .none
    | some hgiven₁ =>
      cases hrest with
      | some hgiven₂ =>
        refine .some ⟨fun hnot => (hgiven₂.kept hnot).trans (hgiven₁.kept hnot), fun hasked pks hpks => ?_⟩
        refine (hgiven₂.holds hasked _ (hgiven₁.holds hasked pks hpks)).congr fun pk q _ => ?_
        simp only [Set.mem_union, Set.mem_ofPred_eq, List.exists_mem_cons_iff, or_assoc]

theorem gives_takeGrant (j : IdentityPK) (users : OrdMap UserPK User) :
    s.Gives { pk | j = .user u ∧ s.Grants p pk } (only = [] ∨ u ∈ only) (users.find? u)
      ((s.takeGrant p only j users).find? u) := by
  by_cases hj : j = .user u ∧ (only = [] ∨ u ∈ only)
  · obtain ⟨rfl, hasked⟩ := hj
    rw [takeGrant, if_pos hasked, find?_modify, if_pos rfl]
    cases users.find? u with
    | none => exact .none
    | some user =>
      exact .some ⟨fun hnot => absurd hasked hnot, fun _ pks hpks => (holds_addUserPermissions hpks).congr fun pk q _ => by simp⟩
  · have hsame : (s.takeGrant p only j users).find? u = users.find? u := by
      cases j with
      | group g => rfl
      | user v =>
        rw [takeGrant]
        split_ifs with hv
        · rw [find?_modify, if_neg]
          rintro rfl
          exact hj ⟨rfl, hv⟩
        · rfl
    rw [hsame]
    cases users.find? u with
    | none => exact .none
    | some user =>
      refine .some ⟨fun _ => rfl, fun hasked pks hpks => hpks.congr fun pk q _ => ?_⟩
      have hne : j ≠ .user u := fun heq => hj ⟨heq, hasked⟩
      simp [hne]

theorem gives_addPermission : s.Gives { pk | s.Below i u ∧ s.Grants p pk } (only = [] ∨ u ∈ only) (users.find? u)
    ((s.addPermission i p only users).find? u) := by
  have h := gives_foldl (u := u) (f := fun users j => s.takeGrant p only j users) gives_takeGrant
    ((groupNesting s.groups).trace (s.groups.keys.length + 1) [] i).2 users
  simpa [addPermission, walk_eq, mem_trace_group] using h

/-- Setting the permissions of those asked for adds what the acl gives each of them. -/
theorem gives_setUserPermissions (only : List UserPK) (u : UserPK) :
    s.Gives (s.Granted u) (only = [] ∨ u ∈ only) (s.users.find? u) ((s.setUserPermissions only).users.find? u) :=
  gives_foldl (fun _ _ => gives_addPermission) s.acl s.users

end Walks

/-- Every user's kept rights are those of the permissions the acl gives. -/
def UpToDate (s : Authorize) : Prop :=
  ∀ u user, s.users.find? u = some user → user.Holds s.permissions (s.Granted u)

/-- Setting everyone's permissions brings up to date users that hold nothing. -/
theorem upToDate_setUserPermissions (hcleared : ∀ u user, s.users.find? u = some user → user.Holds s.permissions ∅) :
    (s.setUserPermissions []).UpToDate := by
  intro u user hfind
  obtain ⟨old, hold, hgiven⟩ := (gives_setUserPermissions [] u).of_some hfind
  exact (hgiven.holds (.inl rfl) ∅ (hcleared u old hold)).congr fun pk p _ => by rw [Set.empty_union]; rfl

/-- Recalculating brings every user up to date, whatever was kept. -/
theorem upToDate_recalc (s : Authorize) : s.recalc.UpToDate := by
  refine upToDate_setUserPermissions fun u user hfind => ?_
  obtain ⟨old, -, rfl⟩ := Option.map_eq_some_iff.mp ((find?_map _ _ _).symm.trans hfind)
  exact User.holds_clear old

end Authorize

end OpcHub.Access
