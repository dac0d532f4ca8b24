import OpcHub.Access.Directory

/-! The rights shown. A report lists, for an identity, every way a permission
comes to it: a row of the acl, the groups from the row's identity down to this
one, the roles from the row's grant down to the permission. The walk of a report
guards the path it is on, where enforcement opens a group or a role once; one
report goes from the identity, the other from the resource with the roles
expanded beforehand. All three come to the same masks, and what is listed is a
way down through live groups and roles. -/

namespace OpcHub.Access

open OpcHub.Lib OrdMap Nesting

/-- A way a permission comes to an identity: paths run from the acl row down. -/
structure RightsSource where
  permission : PermissionPK
  rights : AllowedDisallowed
  groups : List GroupPK := []
  roles : List RolePK := []
  deriving DecidableEq

structure HolderRights where
  rights : AllowedDisallowed := {}
  sources : List RightsSource := []
  deriving DecidableEq

structure ResourceRights where
  pk : ResourcePK
  cached : Option Resource
  rights : AllowedDisallowed
  sources : List RightsSource
  deriving DecidableEq

structure ResourceHolders where
  resource : Resource
  roles : OrdMap RolePK HolderRights
  groups : OrdMap GroupPK HolderRights
  users : OrdMap UserPK HolderRights
  deriving DecidableEq

namespace HolderRights

def add (x : HolderRights) (source : RightsSource) : HolderRights :=
  { rights := x.rights.add source.rights, sources := x.sources ++ [source] }

def addAll (x : HolderRights) (sources : List RightsSource) : HolderRights := sources.foldl add x

/-- Sources added, each to its key's. -/
def gather {κ : Type*} [LinearOrder κ] (l : List (κ × RightsSource)) : OrdMap κ HolderRights :=
  l.foldl (fun m e => (m.emplace e.1 {}).modify e.1 fun x => x.add e.2) ∅

theorem addAll_sources (x : HolderRights) (sources : List RightsSource) :
    (x.addAll sources).sources = x.sources ++ sources := by
  induction sources generalizing x with
  | nil => simp [addAll]
  | cons source sources ih =>
    rw [addAll, List.foldl_cons, ← addAll, ih]
    simp [add]

theorem bit_addAll (x : HolderRights) (sources : List RightsSource) (denied : Bool) (i : ℕ) :
    (x.addAll sources).rights.bit denied i = true ↔
      x.rights.bit denied i = true ∨ ∃ source ∈ sources, source.rights.bit denied i = true := by
  induction sources generalizing x with
  | nil => simp [addAll]
  | cons source sources ih =>
    rw [addAll, List.foldl_cons, ← addAll, ih]
    simp [add, or_assoc]

theorem find?_gather {κ : Type*} [LinearOrder κ] (l : List (κ × RightsSource)) (k : κ) :
    ((gather l).find? k).getD {} = addAll {} ((l.filter fun e => e.1 = k).map Prod.snd) := by
  have hfold : ∀ (l : List (κ × RightsSource)) (m : OrdMap κ HolderRights),
      ((l.foldl (fun m e => (m.emplace e.1 {}).modify e.1 fun x => x.add e.2) m).find? k).getD {} =
        addAll ((m.find? k).getD {}) ((l.filter fun e => e.1 = k).map Prod.snd) := by
    intro l
    induction l with
    | nil => exact fun _ => rfl
    | cons e l ih =>
      intro m
      rw [List.foldl_cons, ih, find?_modify, find?_emplace]
      by_cases he : e.1 = k
      · simp [he, addAll]
      · simp [he, Ne.symm he]
  exact hfold l ∅

end HolderRights

namespace Authorize

variable (s : Authorize)

/-- The way down to a permission there is, with the resource it is on. -/
def source (groups : List GroupPK) (roles : List RolePK) : PermissionRole → Option (ResourcePK × RightsSource)
  | .permission pk =>
    (s.permissions.find? pk).map fun p => (p.resourcePK, { permission := pk, rights := p.rights, groups, roles })
  | .role _ => none

/-- The ways a grant expands to permissions there are. -/
def expand (p : PermissionRole) : List (List RolePK × PermissionRole) :=
  (roleNesting s.roles).ways (fun q => (s.source [] [] q).isSome) (s.roles.keys.length + 1) [] p

/-- Down to the target and no further. -/
def reachNesting (target : IdentityPK) : Nesting GroupPK IdentityPK where
  opens i := if i = target then none else (groupNesting s.groups).opens i
  inside := (groupNesting s.groups).inside

/-- Every source of an identity, by resource. -/
def identitySources (target : IdentityPK) : List (ResourcePK × RightsSource) :=
  s.acl.flatMap fun e =>
    ((s.reachNesting target).ways (fun i => i = target) (s.groups.keys.length + 1) [] e.1).flatMap fun way =>
      (s.expand e.2).filterMap fun grant => s.source way.1 grant.1 grant.2

def identityRights (target : IdentityPK) : List ResourceRights :=
  (HolderRights.gather (s.identitySources target)).entries.map fun e =>
    { pk := e.1, cached := s.table.resources.find? e.1, rights := e.2.rights, sources := e.2.sources }

/-- A user or group that is there and not deleted. -/
def live : IdentityPK → Bool
  | .user u => (s.users.find? u).any fun user => !user.isDeleted
  | .group g => (s.groups.find? g).any fun group => !group.isDeleted

def userRights (u : UserPK) : List ResourceRights := if s.live (.user u) then s.identityRights (.user u) else []

def groupRights (g : GroupPK) : List ResourceRights := if s.live (.group g) then s.identityRights (.group g) else []

/-- A role's ways to permissions on the resource, by the roles below it. -/
def expandRole (resource : ResourcePK) (r : RolePK) (role : Role) : List RightsSource :=
  (role.members.flatMap ((roleNesting s.roles).ways (s.onResource resource) s.roles.keys.length [r])).filterMap
    fun way => (s.source [] way.1.tail way.2).map Prod.snd

/-- Each live role that has a permission on the resource. -/
def roleSources (resource : ResourcePK) : OrdMap RolePK (List RightsSource) :=
  ((s.roles.filter fun _ role => !role.isDeleted).map fun r role => s.expandRole resource r role).filter
    fun _ sources => sources ≠ []

/-- A grant's sources on the resource, from the roles expanded beforehand. -/
def grantSources (resource : ResourcePK) : PermissionRole → List RightsSource
  | .permission pk =>
    if s.onResource resource (.permission pk) then (s.source [] [] (.permission pk)).toList.map Prod.snd else []
  | .role r => (((s.roleSources resource).find? r).getD []).map fun x => { x with roles := r :: x.roles }

/-- Every live identity a grant on the resource reaches. -/
def holderSources (resource : ResourcePK) : List (IdentityPK × RightsSource) :=
  s.acl.flatMap fun e =>
    ((groupNesting s.groups).ways s.live (s.groups.keys.length + 1) [] e.1).flatMap fun way =>
      (s.grantSources resource e.2).map fun x => (way.2, { x with groups := way.1 })

def holders (resource : ResourcePK) : Option ResourceHolders :=
  (s.table.resources.find? resource).map fun row =>
    { resource := row
      roles := (s.roleSources resource).map fun _ sources => HolderRights.addAll {} sources
      groups := HolderRights.gather ((s.holderSources resource).filterMap fun e => e.1.group?.map (·, e.2))
      users := HolderRights.gather ((s.holderSources resource).filterMap fun e => e.1.user?.map (·, e.2)) }

/-- The masks a report has for a resource. -/
def masks (l : List ResourceRights) (r : ResourcePK) : AllowedDisallowed :=
  ((l.find? fun x => x.pk = r).map ResourceRights.rights).getD {}

/-- The masks a report has for a holder. -/
def masksOf {κ : Type*} [LinearOrder κ] (m : OrdMap κ HolderRights) (k : κ) : AllowedDisallowed := ((m.find? k).getD {}).rights

/-- A row of the acl, and from it live memberships down to the identity and down to the permission. -/
structure Listed (target : IdentityPK) (resource : ResourcePK) (x : RightsSource) : Prop where
  row : ∃ e ∈ s.acl, (groupNesting s.groups).Trail x.groups e.1 target ∧
    (roleNesting s.roles).Trail x.roles e.2 (.permission x.permission)
  permission : s.permissions.find? x.permission = some { resourcePK := resource, rights := x.rights }

/-- The acl gives the identity this right on the resource. -/
def Right (target : IdentityPK) (resource : ResourcePK) (denied : Bool) (i : ℕ) : Prop :=
  ∃ e ∈ s.acl, (groupNesting s.groups).Reaches e.1 target ∧ ∃ pk p, s.Grants e.2 pk ∧
    s.permissions.find? pk = some p ∧ p.resourcePK = resource ∧ p.rights.bit denied i = true

variable {s} {target : IdentityPK} {resource : ResourcePK} {u : UserPK} {g : GroupPK} {denied : Bool} {i : ℕ}

variable {x : ResourcePK × RightsSource} {p : PermissionRole}

theorem source_eq_some {groups : List GroupPK} {roles : List RolePK} :
    s.source groups roles p = some x ↔
      p = .permission x.2.permission ∧ x.2.groups = groups ∧ x.2.roles = roles ∧
        s.permissions.find? x.2.permission = some { resourcePK := x.1, rights := x.2.rights } := by
  obtain ⟨r, permission, rights, groups', roles'⟩ := x
  cases p with
  | role r' => simp [source]
  | permission pk =>
    simp only [source, Option.map_eq_some_iff, Prod.mk.injEq, RightsSource.mk.injEq, PermissionRole.permission.injEq]
    constructor
    · rintro ⟨p, hp, rfl, rfl, rfl, rfl, rfl⟩
      exact ⟨rfl, rfl, rfl, hp⟩
    · rintro ⟨rfl, rfl, rfl, hp⟩
      exact ⟨_, hp, rfl, rfl, rfl, rfl, rfl⟩

section Identity

variable {b : IdentityPK}

theorem trail_of_reachNesting {q : List GroupPK} {c : IdentityPK} (h : (s.reachNesting target).Trail q b c) :
    (groupNesting s.groups).Trail q b c := by
  induction h with
  | here b => exact .here b
  | step hopens hmem _ ih =>
    refine .step ?_ hmem ih
    simp only [reachNesting] at hopens
    split_ifs at hopens
    exact hopens

/-- The way to the target stops where it first comes by it. -/
theorem reaches_reachNesting :
    (s.reachNesting target).Reaches b target ↔ (groupNesting s.groups).Reaches b target := by
  constructor
  · intro h
    refine h.lift id fun c d hstep => ⟨?_, hstep.2⟩
    have hopens := hstep.1
    simp only [reachNesting] at hopens
    split_ifs at hopens
    · cases hopens
    · exact hopens
  · intro h
    induction h using Relation.ReflTransGen.head_induction_on with
    | refl => exact .refl
    | @head c d hstep _ ih =>
      by_cases hc : c = target
      · rw [hc]
        exact .refl
      · exact .head ⟨by simpa [reachNesting, hc] using hstep.1, hstep.2⟩ ih

theorem exists_way :
    (∃ q, (q, target) ∈ (s.reachNesting target).ways (fun i => i = target) (s.groups.keys.length + 1) [] b) ↔
      (groupNesting s.groups).Reaches b target := by
  rw [exists_ways_iff, reaches_reachNesting]
  · simp
  · intro b c a hb hc
    simp only [reachNesting] at hb hc
    split_ifs at hb hc
    exact groupNesting_injective hb hc
  · intro b a hb
    simp only [reachNesting] at hb
    split_ifs at hb
    exact mem_keys_of_opens_group hb

theorem exists_expand {pk : PermissionPK} :
    (∃ q, (q, .permission pk) ∈ s.expand p) ↔ s.Grants p pk ∧ (s.permissions.find? pk).isSome := by
  unfold expand
  rw [exists_ways_iff roleNesting_injective fun _ _ => mem_keys_of_opens_role]
  simp [Grants, source]

theorem mem_identitySources : x ∈ s.identitySources target ↔ ∃ e ∈ s.acl,
      (x.2.groups, target) ∈ (s.reachNesting target).ways (fun i => i = target) (s.groups.keys.length + 1) [] e.1 ∧
        (x.2.roles, .permission x.2.permission) ∈ s.expand e.2 ∧
          s.permissions.find? x.2.permission = some { resourcePK := x.1, rights := x.2.rights } := by
  simp only [identitySources, List.mem_flatMap, List.mem_filterMap, source_eq_some]
  refine exists_congr fun e => and_congr_right fun _ => ?_
  constructor
  · rintro ⟨⟨q, j⟩, hway, ⟨roles, p⟩, hgrant, rfl, rfl, rfl, hp⟩
    obtain ⟨-, -, -, hj⟩ := trail_of_mem_ways hway
    obtain rfl : j = target := by simpa using hj
    exact ⟨hway, hgrant, hp⟩
  · rintro ⟨hway, hgrant, hp⟩
    exact ⟨(_, target), hway, (_, .permission x.2.permission), hgrant, rfl, rfl, rfl, hp⟩

theorem listed_of_mem_identitySources (h : x ∈ s.identitySources target) :
    s.Listed target x.1 x.2 := by
  obtain ⟨e, he, hway, hgrant, hp⟩ := mem_identitySources.mp h
  obtain ⟨_, rfl, htrail, -⟩ := trail_of_mem_ways hway
  obtain ⟨_, rfl, htrail', -⟩ := trail_of_mem_ways hgrant
  exact ⟨⟨e, he, trail_of_reachNesting htrail, htrail'⟩, hp⟩

/-- An identity's sources on a resource have the rights the acl gives it there. -/
theorem exists_identitySources :
    (∃ x ∈ s.identitySources target, x.1 = resource ∧ x.2.rights.bit denied i = true) ↔ s.Right target resource denied i := by
  simp only [mem_identitySources]
  constructor
  · rintro ⟨x, ⟨e, he, hway, hgrant, hp⟩, rfl, hbit⟩
    exact ⟨e, he, exists_way.mp ⟨_, hway⟩, x.2.permission, _, (exists_expand.mp ⟨_, hgrant⟩).1, hp, rfl, hbit⟩
  · rintro ⟨e, he, hreaches, pk, p, hgrants, hp, rfl, hbit⟩
    obtain ⟨groups, hway⟩ := exists_way.mpr hreaches
    obtain ⟨roles, hgrant⟩ := exists_expand.mpr ⟨hgrants, by rw [hp]; rfl⟩
    exact ⟨(p.resourcePK, { permission := pk, rights := p.rights, groups, roles }), ⟨e, he, hway, hgrant, hp⟩, rfl, hbit⟩

open HolderRights

theorem masks_identityRights :
    masks (s.identityRights target) resource = masksOf (gather (s.identitySources target)) resource := by
  unfold masks identityRights masksOf
  rw [List.find?_map]
  simp only [Function.comp_def]
  rw [find?_entries]
  cases (gather (s.identitySources target)).find? resource <;> rfl

theorem bit_masksOf {κ : Type*} [LinearOrder κ] {l : List (κ × RightsSource)} {k : κ} :
    (masksOf (gather l) k).bit denied i = true ↔ ∃ x ∈ l, x.1 = k ∧ x.2.rights.bit denied i = true := by
  unfold masksOf
  rw [find?_gather, bit_addAll]
  simp only [AllowedDisallowed.bit_empty, Bool.false_eq_true, false_or, List.mem_map, List.mem_filter, decide_eq_true_eq]
  constructor
  · rintro ⟨_, ⟨x, ⟨hx, hk⟩, rfl⟩, hbit⟩
    exact ⟨x, hx, hk, hbit⟩
  · rintro ⟨x, hx, hk, hbit⟩
    exact ⟨x.2, ⟨x, ⟨hx, hk⟩, rfl⟩, hbit⟩

theorem bit_identityRights :
    (masks (s.identityRights target) resource).bit denied i = true ↔ s.Right target resource denied i := by
  rw [masks_identityRights, bit_masksOf, exists_identitySources]

end Identity

section Holders

theorem mem_expandRole {r : RolePK} {role : Role} {x : RightsSource} : x ∈ s.expandRole resource r role ↔
      (r :: x.roles, .permission x.permission) ∈
          role.members.flatMap ((roleNesting s.roles).ways (s.onResource resource) s.roles.keys.length [r]) ∧
        x.groups = [] ∧ s.permissions.find? x.permission = some { resourcePK := resource, rights := x.rights } := by
  simp only [expandRole, List.mem_filterMap, Option.map_eq_some_iff, source_eq_some]
  constructor
  · rintro ⟨⟨q, p⟩, hway, y, ⟨rfl, hgroups, hroles, hp⟩, rfl⟩
    obtain ⟨m, -, hm⟩ := List.mem_flatMap.mp hway
    obtain ⟨q', rfl, -, hhit⟩ := trail_of_mem_ways hm
    have hresource : y.1 = resource := by simpa [onResource, hp] using hhit
    rw [hresource] at hp
    rw [hroles]
    exact ⟨hway, hgroups, hp⟩
  · rintro ⟨hway, hgroups, hp⟩
    exact ⟨_, hway, (resource, x), ⟨rfl, hgroups, rfl, hp⟩, rfl⟩

theorem find?_roleSources (r : RolePK) : ((s.roleSources resource).find? r).getD [] =
      ((s.roles.find? r).filter fun role => !role.isDeleted).elim [] (s.expandRole resource r) := by
  have hfilter : ∀ {κ β : Type} [LinearOrder κ] (m : OrdMap κ β) (p : κ → β → Bool) (k : κ),
      (m.filter p).find? k = (m.find? k).filter (p k) := fun m p k =>
    Option.ext fun x => by rw [find?_filter_eq_some, Option.filter_eq_some_iff]
  rw [roleSources, hfilter, find?_map, hfilter]
  cases (s.roles.find? r).filter fun role => !role.isDeleted with
  | none => rfl
  | some role =>
    by_cases hnil : s.expandRole resource r role = []
    · simp [Option.filter, hnil]
    · simp [Option.filter, hnil]

/-- A grant's sources on a resource are its ways down to the permissions on it. -/
theorem mem_grantSources {x : RightsSource} : x ∈ s.grantSources resource p ↔
      (x.roles, .permission x.permission) ∈
          (roleNesting s.roles).ways (s.onResource resource) (s.roles.keys.length + 1) [] p ∧
        x.groups = [] ∧ s.permissions.find? x.permission = some { resourcePK := resource, rights := x.rights } := by
  cases p with
  | permission pk =>
    have hways : (roleNesting s.roles).ways (s.onResource resource) (s.roles.keys.length + 1) [] (.permission pk) =
        if s.onResource resource (.permission pk) then [([], .permission pk)] else [] := rfl
    rw [hways, grantSources]
    split_ifs with hon
    · simp only [List.mem_map, Option.mem_toList, source_eq_some, List.mem_singleton, Prod.mk.injEq]
      constructor
      · rintro ⟨y, ⟨hpk, hgroups, hroles, hp⟩, rfl⟩
        have hresource : y.1 = resource := by simpa [onResource, PermissionRole.permission.inj hpk, hp] using hon
        rw [hresource] at hp
        exact ⟨⟨hroles, hpk.symm⟩, hgroups, hp⟩
      · rintro ⟨⟨hroles, hpk⟩, hgroups, hp⟩
        exact ⟨(resource, x), ⟨hpk.symm, hgroups, hroles, hp⟩, rfl⟩
    · simp
  | role r =>
    rw [grantSources, find?_roleSources]
    cases hlive : (s.roles.find? r).filter fun role => !role.isDeleted with
    | none =>
      have hopens : (roleNesting s.roles).opens (.role r) = none := by
        rw [Option.eq_none_iff_forall_ne_some]
        intro r' hr'
        obtain ⟨heq, role, hrole, hdeleted⟩ := opens_role.mp hr'
        obtain rfl := PermissionRole.role.inj heq
        simp [hrole, hdeleted, Option.filter] at hlive
      simp [ways, hopens, onResource]
    | some role =>
      obtain ⟨hrole, hdeleted⟩ := Option.filter_eq_some_iff.mp hlive
      have hopens : (roleNesting s.roles).opens (.role r) = some r :=
        opens_role.mpr ⟨rfl, role, hrole, by simpa using hdeleted⟩
      have hways : (roleNesting s.roles).ways (s.onResource resource) (s.roles.keys.length + 1) [] (.role r) =
          role.members.flatMap ((roleNesting s.roles).ways (s.onResource resource) s.roles.keys.length [r]) := by
        rw [ways, hopens]
        simp [onResource, roleNesting, hrole]
      rw [hways, Option.elim_some]
      simp only [List.mem_map, mem_expandRole]
      constructor
      · rintro ⟨y, hy, rfl⟩
        exact hy
      · rintro ⟨hway, hrest⟩
        obtain ⟨m, -, hm⟩ := List.mem_flatMap.mp hway
        obtain ⟨q, hq, -⟩ := trail_of_mem_ways hm
        have hroles : x.roles = r :: q := hq
        exact ⟨{ x with roles := q }, ⟨hroles ▸ hway, hrest⟩, by rw [← hroles]⟩

theorem mem_holderSources {x : IdentityPK × RightsSource} : x ∈ s.holderSources resource ↔ ∃ e ∈ s.acl,
      (x.2.groups, x.1) ∈ (groupNesting s.groups).ways s.live (s.groups.keys.length + 1) [] e.1 ∧
        (x.2.roles, .permission x.2.permission) ∈
            (roleNesting s.roles).ways (s.onResource resource) (s.roles.keys.length + 1) [] e.2 ∧
          s.permissions.find? x.2.permission = some { resourcePK := resource, rights := x.2.rights } := by
  simp only [holderSources, List.mem_flatMap, List.mem_map, mem_grantSources]
  refine exists_congr fun e => and_congr_right fun _ => ?_
  constructor
  · rintro ⟨way, hway, y, ⟨hgrant, -, hp⟩, rfl⟩
    exact ⟨hway, hgrant, hp⟩
  · rintro ⟨hway, hgrant, hp⟩
    exact ⟨(x.2.groups, x.1), hway, { x.2 with groups := [] }, ⟨hgrant, rfl, hp⟩, rfl⟩

theorem listed_of_mem_holderSources {x : IdentityPK × RightsSource} (h : x ∈ s.holderSources resource) :
    s.Listed x.1 resource x.2 := by
  obtain ⟨e, he, hway, hgrant, hp⟩ := mem_holderSources.mp h
  obtain ⟨_, rfl, htrail, -⟩ := trail_of_mem_ways hway
  obtain ⟨_, rfl, htrail', -⟩ := trail_of_mem_ways hgrant
  exact ⟨⟨e, he, htrail, htrail'⟩, hp⟩

/-- A live identity's sources among the holders have the rights the acl gives it there. -/
theorem exists_holderSources : (∃ x ∈ s.holderSources resource, x.1 = target ∧ x.2.rights.bit denied i = true) ↔
      s.live target = true ∧ s.Right target resource denied i := by
  simp only [mem_holderSources]
  constructor
  · rintro ⟨x, ⟨e, he, hway, hgrant, hp⟩, rfl, hbit⟩
    obtain ⟨_, -, hgroups, hlive⟩ := trail_of_mem_ways hway
    obtain ⟨_, -, hroles, -⟩ := trail_of_mem_ways hgrant
    exact ⟨hlive, e, he, hgroups.reaches, x.2.permission, _, hroles.reaches, hp, rfl, hbit⟩
  · rintro ⟨hlive, e, he, hreaches, pk, p, hgrants, hp, rfl, hbit⟩
    have hgroups : ∃ q, (q, target) ∈ (groupNesting s.groups).ways s.live (s.groups.keys.length + 1) [] e.1 :=
      (exists_ways_iff groupNesting_injective fun _ _ => mem_keys_of_opens_group).mpr ⟨hreaches, hlive⟩
    have hroles : ∃ q, (q, .permission pk) ∈
        (roleNesting s.roles).ways (s.onResource p.resourcePK) (s.roles.keys.length + 1) [] e.2 :=
      (exists_ways_iff roleNesting_injective fun _ _ => mem_keys_of_opens_role).mpr
        ⟨hgrants, by simp [onResource, hp]⟩
    obtain ⟨groups, hway⟩ := hgroups
    obtain ⟨roles, hgrant⟩ := hroles
    exact ⟨(target, { permission := pk, rights := p.rights, groups, roles }), ⟨e, he, hway, hgrant, hp⟩, rfl, hbit⟩

end Holders

section Shown

theorem UpToDate.bit_resourceRights (h : s.UpToDate) {user : User} (hfind : s.users.find? u = some user) :
    (user.resourceRights resource).bit denied i = true ↔ s.Right (.user u) resource denied i := by
  rw [(h u user hfind).summed.bits]
  simp only [(h u user hfind).permissions]
  constructor
  · rintro ⟨pk, p, ⟨⟨e, he, hbelow, hgrants⟩, hp⟩, hresource, hbit⟩
    exact ⟨e, he, hbelow, pk, p, hgrants, hp, hresource, hbit⟩
  · rintro ⟨e, he, hbelow, pk, p, hgrants, hp, hresource, hbit⟩
    exact ⟨pk, p, ⟨⟨e, he, hbelow, hgrants⟩, hp⟩, hresource, hbit⟩

variable {y : ResourceHolders}

variable {kind : IdentityPK → Option ℕ}

/-- The holders of a kind: what is gathered under a pk is what its identity is given, if live. -/
theorem bit_holdersOf {pk : ℕ} (hkind : ∀ j, kind j = some pk ↔ j = target) :
    (masksOf (HolderRights.gather ((s.holderSources resource).filterMap fun e => (kind e.1).map (·, e.2))) pk).bit
      denied i = true ↔ s.live target = true ∧ s.Right target resource denied i := by
  rw [bit_masksOf, ← exists_holderSources]
  constructor
  · rintro ⟨_, hx, rfl, hbit⟩
    obtain ⟨e, he, hx⟩ := List.mem_filterMap.mp hx
    obtain ⟨v, hv, rfl⟩ := Option.map_eq_some_iff.mp hx
    exact ⟨e, he, (hkind e.1).mp hv, hbit⟩
  · rintro ⟨e, he, htarget, hbit⟩
    exact ⟨(pk, e.2), List.mem_filterMap.mpr ⟨e, he, by rw [(hkind e.1).mpr htarget]; rfl⟩, rfl, hbit⟩

theorem user?_eq_some {j : IdentityPK} : j.user? = some u ↔ j = .user u := by cases j <;> simp [IdentityPK.user?]

theorem group?_eq_some {j : IdentityPK} : j.group? = some g ↔ j = .group g := by cases j <;> simp [IdentityPK.group?]

theorem bit_holders_users (h : s.holders resource = some y) :
    (masksOf y.users u).bit denied i = true ↔ s.live (.user u) = true ∧ s.Right (.user u) resource denied i := by
  obtain ⟨row, -, rfl⟩ := Option.map_eq_some_iff.mp h
  exact bit_holdersOf fun _ => user?_eq_some

theorem bit_holders_groups (h : s.holders resource = some y) :
    (masksOf y.groups g).bit denied i = true ↔ s.live (.group g) = true ∧ s.Right (.group g) resource denied i := by
  obtain ⟨row, -, rfl⟩ := Option.map_eq_some_iff.mp h
  exact bit_holdersOf fun _ => group?_eq_some

/-- The group is all that has the user as a member, and the acl gives the user nothing itself. -/
structure OnlyMember (s : Authorize) (u : UserPK) (g : GroupPK) : Prop where
  member : ∃ x, s.groups.find? g = some x ∧ .user u ∈ x.members
  only : ∀ g' x, s.groups.find? g' = some x → .user u ∈ x.members → g' = g
  acl : ∀ e ∈ s.acl, e.1 ≠ .user u

/-- What reaches the only group of a user reaches the user, and nothing else does. -/
theorem OnlyMember.right_iff (h : s.OnlyMember u g) :
    s.Right (.user u) resource denied i ↔ s.live (.group g) = true ∧ s.Right (.group g) resource denied i := by
  constructor
  · rintro ⟨e, he, hreaches, hrest⟩
    obtain heq | ⟨c, hreaches, hstep⟩ := Relation.ReflTransGen.cases_tail hreaches
    · exact absurd heq.symm (h.acl e he)
    · obtain ⟨g', x, rfl, hx, hlive, hmem⟩ := step_group.mp hstep
      obtain rfl := h.only g' x hx hmem
      exact ⟨by simp [live, hx, hlive], e, he, hreaches, hrest⟩
  · rintro ⟨hlive, e, he, hreaches, hrest⟩
    obtain ⟨x, hx, hmem⟩ := h.member
    exact ⟨e, he, hreaches.tail (step_group.mpr ⟨g, x, rfl, hx, by simpa [live, hx] using hlive, hmem⟩), hrest⟩

theorem bit_groupRights : (masks (s.groupRights g) resource).bit denied i = true ↔
      s.live (.group g) = true ∧ s.Right (.group g) resource denied i := by
  unfold groupRights
  split_ifs with hlive
  · simp [bit_identityRights, hlive]
  · simp [masks, hlive]

variable {source : RightsSource}

theorem mem_of_find?_gather {κ : Type*} [LinearOrder κ] {l : List (κ × RightsSource)} {k : κ} {x : HolderRights}
    (h : (HolderRights.gather l).find? k = some x) (hsource : source ∈ x.sources) :
    (k, source) ∈ l := by
  have hgather := HolderRights.find?_gather l k
  rw [h, Option.getD_some] at hgather
  rw [hgather, HolderRights.addAll_sources] at hsource
  obtain ⟨e, he, rfl⟩ := List.mem_map.mp hsource
  obtain ⟨he, hk⟩ := List.mem_filter.mp he
  rw [← of_decide_eq_true hk]
  exact he

theorem listed_identityRights {x : ResourceRights} (hx : x ∈ s.identityRights target)
    (hsource : source ∈ x.sources) : s.Listed target x.pk source := by
  obtain ⟨e, he, rfl⟩ := List.mem_map.mp hx
  exact listed_of_mem_identitySources (mem_of_find?_gather (mem_entries_iff.mp he) hsource)

theorem listed_holdersOf {pk : ℕ} (hkind : ∀ j, kind j = some pk ↔ j = target)
    {x : HolderRights}
    (hx : (HolderRights.gather ((s.holderSources resource).filterMap fun e => (kind e.1).map (·, e.2))).find? pk = some x)
    (hsource : source ∈ x.sources) : s.Listed target resource source := by
  obtain ⟨e, he, heq⟩ := List.mem_filterMap.mp (mem_of_find?_gather hx hsource)
  obtain ⟨v, hv, hpair⟩ := Option.map_eq_some_iff.mp heq
  obtain ⟨rfl, rfl⟩ := Prod.mk.inj hpair
  exact (hkind e.1).mp hv ▸ listed_of_mem_holderSources he

/-- A role's sources are live memberships from the role down to the permission. -/
theorem trail_of_mem_roleSources {r : RolePK} {sources : List RightsSource}
    (hfind : (s.roleSources resource).find? r = some sources) (hsource : source ∈ sources) :
    (roleNesting s.roles).Trail (r :: source.roles) (.role r) (.permission source.permission) ∧
      s.permissions.find? source.permission = some { resourcePK := resource, rights := source.rights } := by
  obtain ⟨hfind, -⟩ := find?_filter_eq_some.mp hfind
  obtain ⟨role, hrole, rfl⟩ := Option.map_eq_some_iff.mp ((find?_map _ _ _).symm.trans hfind)
  obtain ⟨hrole, hlive⟩ := find?_filter_eq_some.mp hrole
  obtain ⟨hway, -, hp⟩ := mem_expandRole.mp hsource
  obtain ⟨m, hm, hway⟩ := List.mem_flatMap.mp hway
  obtain ⟨q, hq, htrail, -⟩ := trail_of_mem_ways hway
  obtain rfl : source.roles = q := (List.cons.inj hq).2
  refine ⟨.step (opens_role.mpr ⟨rfl, role, hrole, by simpa using hlive⟩) ?_ htrail, hp⟩
  simpa [roleNesting, hrole] using hm

/-- What the reports of a state show, and what it enforces. -/
structure Reported (s : Authorize) : Prop where
  user : ∀ u user, s.users.find? u = some user → user.isDeleted = false → ∀ r,
    masks (s.userRights u) r = user.resourceRights r ∧
      ∀ y, s.holders r = some y → masksOf y.users u = user.resourceRights r
  group : ∀ g r y, s.holders r = some y → masksOf y.groups g = masks (s.groupRights g) r
  member : ∀ u user, s.users.find? u = some user → user.isDeleted = false → ∀ g, s.OnlyMember u g → ∀ r,
    user.resourceRights r = masks (s.groupRights g) r
  holders : ∀ r row, s.table.resources.find? r = some row → ∃ y, s.holders r = some y ∧ y.resource = row
  userSources : ∀ u, ∀ x ∈ s.userRights u, ∀ source ∈ x.sources, s.Listed (.user u) x.pk source
  groupSources : ∀ g, ∀ x ∈ s.groupRights g, ∀ source ∈ x.sources, s.Listed (.group g) x.pk source
  holderSources : ∀ r y, s.holders r = some y →
    (∀ u x, y.users.find? u = some x → ∀ source ∈ x.sources, s.Listed (.user u) r source) ∧
      (∀ g x, y.groups.find? g = some x → ∀ source ∈ x.sources, s.Listed (.group g) r source) ∧
        ∀ role x, y.roles.find? role = some x → ∀ source ∈ x.sources,
          (roleNesting s.roles).Trail (role :: source.roles) (.role role) (.permission source.permission) ∧
            s.permissions.find? source.permission = some { resourcePK := r, rights := source.rights }

/-- With the kept rights up to date, the rights shown are the rights enforced. -/
theorem reported_of_upToDate (h : s.UpToDate) : s.Reported where
  user u user hfind hdeleted r := by
    have hlive : s.live (.user u) = true := by simp [live, hfind, hdeleted]
    refine ⟨AllowedDisallowed.ext_bit fun denied i => ?_, fun y hy => AllowedDisallowed.ext_bit fun denied i => ?_⟩
    · rw [Bool.eq_iff_iff, userRights, if_pos hlive, bit_identityRights, h.bit_resourceRights hfind]
    · rw [Bool.eq_iff_iff, bit_holders_users hy, h.bit_resourceRights hfind, and_iff_right hlive]
  group g r y hy := AllowedDisallowed.ext_bit fun denied i => by
    rw [Bool.eq_iff_iff, bit_holders_groups hy, bit_groupRights]
  member u user hfind _ g honly r := AllowedDisallowed.ext_bit fun denied i => by
    rw [Bool.eq_iff_iff, h.bit_resourceRights hfind, bit_groupRights, honly.right_iff]
  holders r row hrow := ⟨_, by rw [Authorize.holders, hrow]; rfl, rfl⟩
  userSources u x hx source hsource := by
    unfold userRights at hx
    split_ifs at hx
    · exact listed_identityRights hx hsource
    · cases hx
  groupSources g x hx source hsource := by
    unfold groupRights at hx
    split_ifs at hx
    · exact listed_identityRights hx hsource
    · cases hx
  holderSources r y hy := by
    obtain ⟨row, -, rfl⟩ := Option.map_eq_some_iff.mp hy
    refine ⟨fun u x hx source => listed_holdersOf (fun _ => user?_eq_some) hx,
      fun g x hx source => listed_holdersOf (fun _ => group?_eq_some) hx, fun role x hx source hsource => ?_⟩
    obtain ⟨sources, hsources, rfl⟩ := Option.map_eq_some_iff.mp ((find?_map _ _ _).symm.trans hx)
    rw [HolderRights.addAll_sources] at hsource
    exact trail_of_mem_roleSources hsources hsource

/-- Groups 10 and 11 inside each other, user 1 in both; role 7 holds permission 20, to read resource 3, and itself. -/
def nested : Authorize :=
  { users := (∅ : OrdMap UserPK User).insert 1 {}
    groups := ((∅ : OrdMap GroupPK Group).insert 10 { members := [.user 1, .group 11] }).insert 11
      { members := [.user 1, .group 10] }
    roles := (∅ : OrdMap RolePK Role).insert 7 { members := [.permission 20, .role 7] }
    permissions := (∅ : OrdMap PermissionPK Permission).insert 20 { resourcePK := 3, rights := { allowed := .read } }
    acl := [(.group 10, .role 7)]
    table := Table.load ((∅ : OrdMap ResourcePK Resource).insert 3 { schema := "app", slug := "users" }) }

/-- User 1 is shown two ways to the one right it has. -/
theorem nested_reported : nested.recalc.Reported ∧ masks (nested.recalc.userRights 1) 3 = { allowed := .read } ∧
      (nested.recalc.userRights 1).map (fun x => x.sources.map RightsSource.groups) = [[[10], [10, 11]]] :=
  ⟨reported_of_upToDate (upToDate_recalc nested), by decide +kernel, by decide +kernel⟩

end Shown

end Authorize

end OpcHub.Access
