import Mathlib.Data.Set.Insert
import OpcHub.Lib.OrdMap

/-! Rights on resources, and what a user holds of them: the permissions that
reach them and, for each resource, the rights those add up to. A user's rights
are read on every request, so they are kept, not added up then. -/

namespace OpcHub.Access

open OpcHub.Lib OrdMap

abbrev UserPK := ℕ
abbrev GroupPK := ℕ
abbrev RolePK := ℕ
abbrev PermissionPK := ℕ
abbrev ResourcePK := ℕ

/-- A mask of rights. -/
abbrev ERights := BitVec 64

namespace ERights

def none : ERights := 0x0
def read : ERights := 0x2
def all : ERights := 0xFF

end ERights

structure AllowedDisallowed where
  allowed : ERights := .none
  denied : ERights := .none
  deriving DecidableEq

namespace AllowedDisallowed

def effective (x : AllowedDisallowed) : ERights := x.allowed &&& ~~~x.denied

/-- More rights, each mask over the one there. -/
def add (x y : AllowedDisallowed) : AllowedDisallowed :=
  { allowed := x.allowed ||| y.allowed, denied := x.denied ||| y.denied }

/-- Rights added up. -/
def total (l : List AllowedDisallowed) : AllowedDisallowed := l.foldl add {}

/-- The right of a bit, allowed or denied. -/
def bit (x : AllowedDisallowed) (denied : Bool) (i : ℕ) : Bool := (if denied then x.denied else x.allowed).getLsbD i

theorem ext_bit {x y : AllowedDisallowed} (h : ∀ denied i, x.bit denied i = y.bit denied i) : x = y := by
  obtain ⟨allowed, denied⟩ := x
  obtain ⟨allowed', denied'⟩ := y
  have hallowed : allowed = allowed' := BitVec.eq_of_getLsbD_eq fun i _ => h false i
  have hdenied : denied = denied' := BitVec.eq_of_getLsbD_eq fun i _ => h true i
  rw [hallowed, hdenied]

@[simp] theorem bit_empty (denied : Bool) (i : ℕ) : ({} : AllowedDisallowed).bit denied i = false := by
  cases denied <;> exact BitVec.getLsbD_zero

@[simp] theorem bit_add (x y : AllowedDisallowed) (denied : Bool) (i : ℕ) :
    (x.add y).bit denied i = (x.bit denied i || y.bit denied i) := by
  cases denied <;> exact BitVec.getLsbD_or

theorem bit_foldl_add (l : List AllowedDisallowed) (x : AllowedDisallowed) (denied : Bool) (i : ℕ) :
    (l.foldl add x).bit denied i = true ↔ x.bit denied i = true ∨ ∃ y ∈ l, y.bit denied i = true := by
  induction l generalizing x with
  | nil => simp
  | cons y l ih => rw [List.foldl_cons, ih]; simp [or_assoc]

theorem bit_total (l : List AllowedDisallowed) (denied : Bool) (i : ℕ) :
    (total l).bit denied i = true ↔ ∃ y ∈ l, y.bit denied i = true := by
  simp [total, bit_foldl_add]

end AllowedDisallowed

/-- A grant of rights on one resource; its pk is its key. -/
structure Permission where
  resourcePK : ResourcePK
  rights : AllowedDisallowed
  deriving DecidableEq

def Permission.update (p : Permission) (allowed denied : Option ERights) : Permission :=
  { p with rights := { allowed := allowed.getD p.rights.allowed, denied := denied.getD p.rights.denied } }

structure User where
  name : String := ""
  isDeleted : Bool := false
  rights : OrdMap ResourcePK AllowedDisallowed := ∅
  permissions : OrdMap PermissionPK Permission := ∅
  deriving DecidableEq

namespace User

def resourceRights (user : User) (r : ResourcePK) : AllowedDisallowed := (user.rights.find? r).getD {}

def clear (user : User) : User := { user with rights := ∅, permissions := ∅ }

/-- One more permission that reaches the user. -/
def plus (user : User) (pk : PermissionPK) (p : Permission) : User :=
  { user with
    permissions := user.permissions.insert pk p
    rights := user.rights.insert p.resourcePK ((user.resourceRights p.resourcePK).add p.rights) }

/-- What the user's permissions on a resource add up to. -/
def totalOn (permissions : OrdMap PermissionPK Permission) (r : ResourcePK) : AllowedDisallowed :=
  .total ((permissions.values.filter fun p => p.resourcePK = r).map Permission.rights)

def updatePermission (user : User) (pk : PermissionPK) (allowed denied : Option ERights) : User :=
  match user.permissions.find? pk with
  | none => user
  | some p =>
    let permissions := user.permissions.insert pk (p.update allowed denied)
    { user with permissions, rights := user.rights.insert p.resourcePK (totalOn permissions p.resourcePK) }

/-- The user without the resource, when there are rights on it. -/
def purge (user : User) (r : ResourcePK) : User :=
  if user.rights.contains r then
    { user with rights := user.rights.erase r, permissions := user.permissions.filter fun _ p => p.resourcePK ≠ r }
  else user

/-- The rights kept are the sums of the permissions kept, resource by resource. -/
structure Summed (user : User) : Prop where
  bits : ∀ r denied i, (user.resourceRights r).bit denied i = true ↔
    ∃ pk p, user.permissions.find? pk = some p ∧ p.resourcePK = r ∧ p.rights.bit denied i = true
  present : ∀ pk p, user.permissions.find? pk = some p → ∃ x, user.rights.find? p.resourcePK = some x

/-- Of the permissions there are the user holds those of `pks`. -/
structure Holds (table : OrdMap PermissionPK Permission) (pks : Set PermissionPK) (user : User) : Prop where
  permissions : ∀ pk p, user.permissions.find? pk = some p ↔ pk ∈ pks ∧ table.find? pk = some p
  summed : user.Summed

variable {user other : User} {table : OrdMap PermissionPK Permission} {pks more : Set PermissionPK}

variable (permissions : OrdMap PermissionPK Permission)

theorem resourceRights_insert (r r' : ResourcePK) (x : AllowedDisallowed) :
    resourceRights { user with permissions, rights := user.rights.insert r' x } r =
      if r = r' then x else user.resourceRights r := by
  unfold resourceRights
  rw [find?_insert]
  split_ifs <;> rfl

theorem bit_totalOn (r : ResourcePK) (denied : Bool) (i : ℕ) :
    (totalOn permissions r).bit denied i = true ↔
      ∃ pk p, permissions.find? pk = some p ∧ p.resourcePK = r ∧ p.rights.bit denied i = true := by
  rw [totalOn, AllowedDisallowed.bit_total]
  simp only [List.mem_map, List.mem_filter, mem_values, decide_eq_true_eq]
  constructor
  · rintro ⟨_, ⟨p, ⟨⟨pk, hpk⟩, hr⟩, rfl⟩, hbit⟩
    exact ⟨pk, p, hpk, hr, hbit⟩
  · rintro ⟨pk, p, hpk, hr, hbit⟩
    exact ⟨p.rights, ⟨p, ⟨⟨pk, hpk⟩, hr⟩, rfl⟩, hbit⟩

theorem Summed.resourceRights_eq (h : user.Summed) (r : ResourcePK) : user.resourceRights r = totalOn user.permissions r :=
  AllowedDisallowed.ext_bit fun denied i => by rw [Bool.eq_iff_iff, h.bits, bit_totalOn]

theorem summed_clear (user : User) : user.clear.Summed where
  bits r denied i := by simp [clear, resourceRights]
  present pk p h := absurd h (by simp [clear])

theorem holds_clear (user : User) : user.clear.Holds table ∅ where
  permissions pk p := by simp [clear]
  summed := summed_clear user

variable {pk : PermissionPK} {p : Permission}

/-- A permission added over the same one, or over none, is counted once. -/
theorem Summed.plus (h : user.Summed)
    (hsame : ∀ q, user.permissions.find? pk = some q → q = p) : (user.plus pk p).Summed where
  bits r denied i := by
    have hfind : ∀ pk' q, (user.plus pk p).permissions.find? pk' = some q ↔
        (pk' = pk ∧ q = p) ∨ user.permissions.find? pk' = some q := by
      intro pk' q
      simp only [User.plus, find?_insert]
      by_cases hpk : pk' = pk
      · subst hpk
        simp only [if_pos, Option.some.injEq, true_and, eq_comm (a := p)]
        exact ⟨.inl, fun hq => hq.elim id (hsame q)⟩
      · simp [hpk]
    have hrights : (user.plus pk p).resourceRights r =
        if r = p.resourcePK then (user.resourceRights p.resourcePK).add p.rights else user.resourceRights r :=
      resourceRights_insert _ _ _ _
    rw [hrights]
    simp only [hfind]
    constructor
    · intro hbit
      split_ifs at hbit with hr
      · rw [AllowedDisallowed.bit_add, Bool.or_eq_true] at hbit
        obtain hbit | hbit := hbit
        · obtain ⟨pk', q, hq, hqr, hqbit⟩ := (h.bits _ _ _).mp hbit
          exact ⟨pk', q, .inr hq, hqr.trans hr.symm, hqbit⟩
        · exact ⟨pk, p, .inl ⟨rfl, rfl⟩, hr.symm, hbit⟩
      · obtain ⟨pk', q, hq, hqr, hqbit⟩ := (h.bits _ _ _).mp hbit
        exact ⟨pk', q, .inr hq, hqr, hqbit⟩
    · rintro ⟨pk', q, ⟨rfl, rfl⟩ | hq, rfl, hbit⟩
      · rw [if_pos rfl, AllowedDisallowed.bit_add, hbit, Bool.or_true]
      · have hold := (h.bits q.resourcePK denied i).mpr ⟨pk', q, hq, rfl, hbit⟩
        split_ifs with hr
        · rw [AllowedDisallowed.bit_add, ← hr, hold, Bool.true_or]
        · exact hold
  present pk' q hq := by
    simp only [User.plus, find?_insert] at hq ⊢
    by_cases hr : q.resourcePK = p.resourcePK
    · exact ⟨_, if_pos hr⟩
    · simp only [if_neg hr]
      split_ifs at hq with hpk
      · exact absurd (congrArg Permission.resourcePK (Option.some.inj hq)).symm hr
      · exact h.present pk' q hq

variable (h : user.Holds table pks)
include h

theorem Holds.congr (hsame : ∀ pk p, table.find? pk = some p → (pk ∈ pks ↔ pk ∈ more)) : user.Holds table more :=
  { h with permissions := fun pk p => (h.permissions pk p).trans (and_congr_left fun hp => hsame pk p hp) }

theorem Holds.plus (hp : table.find? pk = some p) : (user.plus pk p).Holds table (insert pk pks) where
  permissions pk' q := by
    simp only [User.plus, find?_insert, Set.mem_insert_iff]
    by_cases hpk : pk' = pk
    · subst hpk
      rw [if_pos rfl, hp]
      simp
    · simp [hpk, h.permissions]
  summed := h.summed.plus fun q hq => Option.some.inj (((h.permissions pk q).mp hq).2.symm.trans hp)

/-- A permission that is not of those held may be changed, or come to be. -/
theorem Holds.insert (hnot : pk ∉ pks) (p : Permission) : user.Holds (table.insert pk p) pks where
  permissions pk' q := by
    rw [h.permissions]
    refine and_congr_right fun hin => ?_
    have hne : pk' ≠ pk := fun heq => hnot (heq ▸ hin)
    rw [find?_insert_of_ne _ _ hne]
  summed := h.summed

theorem Holds.agree (h' : other.Holds table pks) :
    user.permissions = other.permissions ∧ ∀ r, user.resourceRights r = other.resourceRights r := by
  have hpermissions : user.permissions = other.permissions :=
    ext_find fun pk => Option.ext fun p => (h.permissions pk p).trans (h'.permissions pk p).symm
  exact ⟨hpermissions, fun r => by rw [h.summed.resourceRights_eq, h'.summed.resourceRights_eq, hpermissions]⟩

theorem Holds.updatePermission (hp : table.find? pk = some p) (allowed denied : Option ERights) :
    (user.updatePermission pk allowed denied).Holds (table.insert pk (p.update allowed denied)) pks := by
  unfold User.updatePermission
  cases hfind : user.permissions.find? pk with
  | none =>
    have hnot : pk ∉ pks := fun hin => by rw [(h.permissions pk p).mpr ⟨hin, hp⟩] at hfind; cases hfind
    refine ⟨fun pk' q => ?_, h.summed⟩
    rw [h.permissions, find?_insert]
    by_cases hpk : pk' = pk
    · subst hpk
      simp [hnot]
    · simp [hpk]
  | some q =>
    obtain ⟨hin, hq⟩ := (h.permissions pk q).mp hfind
    obtain rfl : p = q := Option.some.inj (hp.symm.trans hq)
    refine ⟨fun pk' q => ?_, ⟨fun r denied' i => ?_, fun pk' q hq => ?_⟩⟩
    · rw [find?_insert, find?_insert]
      by_cases hpk : pk' = pk
      · subst hpk
        simp [hin]
      · simp [hpk, h.permissions]
    · rw [resourceRights_insert]
      split_ifs with hr
      · rw [hr, bit_totalOn]
      · rw [h.summed.bits]
        refine exists_congr fun pk' => exists_congr fun q => ?_
        rw [find?_insert]
        by_cases hpk : pk' = pk
        · -- the changed permission is on the other resource, before and after
          subst hpk
          rw [if_pos rfl, hfind]
          constructor
          · rintro ⟨hq, hqr, -⟩
            exact absurd (hqr.symm.trans (congrArg Permission.resourcePK (Option.some.inj hq)).symm) hr
          · rintro ⟨hq, hqr, -⟩
            exact absurd (hqr.symm.trans (congrArg Permission.resourcePK (Option.some.inj hq)).symm) hr
        · rw [if_neg hpk]
    · rw [find?_insert] at hq ⊢
      by_cases hr : q.resourcePK = p.resourcePK
      · exact ⟨_, if_pos hr⟩
      · rw [if_neg hr]
        split_ifs at hq with hpk
        · exact absurd (congrArg Permission.resourcePK (Option.some.inj hq)).symm hr
        · exact h.summed.present pk' q hq

theorem Holds.purge (r : ResourcePK) : (user.purge r).Holds (table.filter fun _ p => p.resourcePK ≠ r) pks := by
  unfold User.purge
  split_ifs with hr
  · refine ⟨fun pk p => ?_, ⟨fun r' denied i => ?_, fun pk p hp => ?_⟩⟩
    · simp only [find?_filter_eq_some, h.permissions, and_assoc]
    · unfold resourceRights
      simp only [find?_erase, find?_filter_eq_some, decide_eq_true_eq]
      by_cases hr' : r' = r
      · subst hr'
        rw [if_pos rfl]
        simp only [Option.getD_none, AllowedDisallowed.bit_empty, Bool.false_eq_true, false_iff]
        rintro ⟨pk, p, ⟨-, hne⟩, heq, -⟩
        exact hne heq
      · rw [if_neg hr']
        refine (h.summed.bits r' denied i).trans (exists_congr fun pk => exists_congr fun p => ?_)
        constructor
        · rintro ⟨hp, rfl, hbit⟩
          exact ⟨⟨hp, hr'⟩, rfl, hbit⟩
        · rintro ⟨⟨hp, -⟩, heq, hbit⟩
          exact ⟨hp, heq, hbit⟩
    · simp only [find?_filter_eq_some, decide_eq_true_eq] at hp
      rw [find?_erase, if_neg hp.2]
      exact h.summed.present pk p hp.1
  · have hnone : ∀ pk p, user.permissions.find? pk = some p → p.resourcePK ≠ r := by
      rintro pk p hp rfl
      exact hr (contains_iff.mpr (h.summed.present pk p hp))
    refine ⟨fun pk p => ?_, h.summed⟩
    rw [h.permissions, find?_filter_eq_some]
    refine and_congr_right fun hin => ⟨fun hp => ⟨hp, ?_⟩, fun hp => hp.1⟩
    simpa using hnone pk p ((h.permissions pk p).mpr ⟨hin, hp⟩)

end User

end OpcHub.Access
