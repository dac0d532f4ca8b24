import Mathlib.Data.Prod.Lex
import Mathlib.Data.String.Basic
import OpcHub.Access.Rights

/-! The resources an authorizer knows, and the index of those it enforces. A row
is enforced while it is not deleted; the index finds its pk by schema, slug and
criteria. The table and the index are changed one after the other, by each of
the events that reach a row, and a pk can come back for another row when a purge
was missed. A row created over another that is enforced leaves the other's key
in the index; every other event leaves each key in the index with its own row. -/

namespace OpcHub.Access

open OpcHub.Lib OrdMap Option

/-- A row; its pk is its key in the table, never the null one. -/
structure Resource where
  schema : String
  slug : String
  criteria : String := ""
  isDeleted : Bool := false
  deriving DecidableEq

/-- A schema, a slug of it and a criteria of that: the index's nested keys as one. -/
abbrev ResourceKey := String ×ₗ (String ×ₗ String)

def resourceKey (schema slug criteria : String) : ResourceKey := toLex (schema, toLex (slug, criteria))

def Resource.key (r : Resource) : ResourceKey := resourceKey r.schema r.slug r.criteria

/-- A resource as an event's json names it: what is left out is empty. -/
structure ResourceArgs where
  id : Option ResourcePK := none
  schemaName : String := ""
  slug : String := ""
  criteria : Option String := none
  deleted : Bool := false
  deriving DecidableEq

def ResourceArgs.toResource (a : ResourceArgs) : Resource :=
  { schema := a.schemaName, slug := a.slug, criteria := a.criteria.getD "", isDeleted := a.deleted }

/-- What the json says, where it says it, is not the row's. -/
def ResourceArgs.names (a : ResourceArgs) (cached : Resource) : Bool :=
  cached.slug ≠ a.slug || (a.schemaName ≠ "" && cached.schema ≠ a.schemaName) ||
    (a.criteria.isSome && cached.criteria ≠ a.criteria.getD "")

structure Table where
  resources : OrdMap ResourcePK Resource := ∅
  schemaResources : OrdMap ResourceKey ResourcePK := ∅
  deriving DecidableEq

namespace Table

/-- A deleted row is not indexed. -/
def index (t : Table) (pk : ResourcePK) (r : Resource) : Table :=
  if r.isDeleted then t else { t with schemaResources := t.schemaResources.insert r.key pk }

/-- Only while the entry is still this row's. -/
def unindex (t : Table) (pk : ResourcePK) (r : Resource) : Table :=
  if t.schemaResources.find? r.key = some pk then { t with schemaResources := t.schemaResources.erase r.key } else t

def load (rows : OrdMap ResourcePK Resource) : Table :=
  rows.entries.foldl (fun t e => t.index e.1 e.2) { resources := rows }

def createResource (t : Table) (pk : ResourcePK) (r : Resource) : Table :=
  let t := t.index pk r
  { t with resources := t.resources.insert pk r }

/-- By pk, not through the row. -/
def purgeResource (t : Table) (pk : ResourcePK) : Table :=
  { resources := t.resources.erase pk
    schemaResources := t.schemaResources.filter fun _ p => p ≠ pk }

/-- The row's deletion, and its key in or out of the index. -/
def setDeleted (t : Table) (pk : ResourcePK) (r : Resource) (restored : Bool) : Table :=
  let r := { r with isDeleted := !restored }
  let t := { t with resources := t.resources.insert pk r }
  if restored then t.index pk r else t.unindex pk r

/-- A pk names one row; without one, a slug names its rows of the schema, or of every schema. -/
def updates (pk : Option ResourcePK) (schemaName : String) (slug : Option String) (pk' : ResourcePK) (r : Resource) :
    Bool :=
  match pk with
  | some pk => pk = pk'
  | none => (schemaName = "" || r.schema = schemaName) && slug = some r.slug

/-- The loop's turn for one row. -/
def updateRow (pk : Option ResourcePK) (schemaName : String) (slug : Option String) (restored : Bool) (t : Table)
    (pk' : ResourcePK) : Table :=
  match t.resources.find? pk' with
  | none => t
  | some r => if updates pk schemaName slug pk' r then t.setDeleted pk' r restored else t

/-- None when no row is named: the event throws. -/
def updateResourceDeleted (t : Table) (pk : Option ResourcePK) (schemaName : String) (id : Option ResourcePK)
    (slug : Option String) (restored : Bool) : Option Table :=
  let pk := pk <|> id
  if t.resources.entries.any fun e => updates pk schemaName slug e.1 e.2 then
    some (t.resources.keys.foldl (updateRow pk schemaName slug restored) t)
  else none

/-- A slug without its bare row is not enforced. -/
def findActiveResourcePK (t : Table) (schema slug criteria : String) : Option ResourcePK :=
  if t.schemaResources.contains (resourceKey schema slug "") then t.schemaResources.find? (resourceKey schema slug criteria)
  else none

/-- The row an event's json names: by its pk, by its key, or, with no criteria, the slug's bare row. -/
def findResource (t : Table) (a : ResourceArgs) : Option (ResourcePK × Resource) :=
  let pk := a.id <|>
    if a.schemaName ≠ "" ∧ a.slug ≠ "" then t.findActiveResourcePK a.schemaName a.slug (a.criteria.getD "") else none
  match pk.bind fun pk => (t.resources.find? pk).map (pk, ·) with
  | some found => some found
  | none =>
    if a.slug ≠ "" ∧ a.criteria.getD "" = "" then
      t.resources.entries.find? fun e =>
        (a.schemaName = "" || e.2.schema = a.schemaName) && e.2.slug = a.slug && e.2.criteria = ""
    else none

def put (t : Table) (pk : ResourcePK) (r : Resource) : Table :=
  { t with resources := t.resources.insert pk r }.index pk r

/-- The row the json names is cached under its pk as another. -/
def stale (a : ResourceArgs) (found : ResourcePK × Resource) : Bool :=
  a.id = some found.1 && a.slug ≠ "" && a.names found.2

/-- A role grant's resource: the row it names, or a new one, or one in a stale row's place. -/
def grantResource (t : Table) (a : ResourceArgs) : Option ResourcePK × Table :=
  match t.findResource a with
  | some found =>
    if stale a found then (some found.1, (t.unindex found.1 found.2).put found.1 a.toResource) else (some found.1, t)
  | none =>
    match a.id with
    | some pk => (some pk, t.put pk a.toResource)
    | none => (none, t)

/-- The events that reach the rows. -/
inductive Change
  | load (rows : OrdMap ResourcePK Resource)
  | create (pk : ResourcePK) (r : Resource)
  | updateDeleted (pk : Option ResourcePK) (schemaName : String) (id : Option ResourcePK) (slug : Option String)
      (restored : Bool)
  | purge (pk : ResourcePK)
  | grant (a : ResourceArgs)

def step (t : Table) : Change → Table
  | .load rows => load rows
  | .create pk r => t.createResource pk r
  | .updateDeleted pk schemaName id slug restored => (t.updateResourceDeleted pk schemaName id slug restored).getD t
  | .purge pk => t.purgeResource pk
  | .grant a => (t.grantResource a).2

/-- No two rows have the same schema, slug and criteria. -/
def Distinct (t : Table) : Prop :=
  ∀ pk pk' r r', t.resources.find? pk = some r → t.resources.find? pk' = some r' → r.key = r'.key → pk = pk'

/-- Each key in the index is of its row, and each row enforced is in the index. -/
structure Indexed (t : Table) : Prop where
  row : ∀ key pk r, t.schemaResources.find? key = some pk → t.resources.find? pk = some r →
    r.isDeleted = false ∧ r.key = key
  key : ∀ pk r, t.resources.find? pk = some r → r.isDeleted = false → t.schemaResources.find? r.key = some pk

/-- A row created over another that is enforced is enforced too, under the same key. -/
def Change.replaces (t : Table) : Change → Prop
  | .create pk r => ∀ old, t.resources.find? pk = some old → old.isDeleted = false → r.isDeleted = false ∧ r.key = old.key
  | _ => True

/-- The index is exactly the rows enforced. -/
def Sound (t : Table) : Prop :=
  ∀ key pk, t.schemaResources.find? key = some pk ↔
    ∃ r, t.resources.find? pk = some r ∧ r.isDeleted = false ∧ r.key = key

section Sound

variable {t : Table} {pk : ResourcePK} {r old : Resource}

theorem Sound.indexed (h : t.Sound) : t.Indexed where
  row key pk r hkey hr := by
    obtain ⟨r', hr', hlive, hk⟩ := (h key pk).mp hkey
    obtain rfl : r = r' := some.inj (hr.symm.trans hr')
    exact ⟨hlive, hk⟩
  key pk r hr hlive := (h r.key pk).mpr ⟨r, hr, hlive, rfl⟩

theorem sound_empty : ({} : Table).Sound := fun key pk => by simp

@[simp] theorem index_resources : (t.index pk r).resources = t.resources := by
  unfold index
  split_ifs <;> rfl

@[simp] theorem unindex_resources : (t.unindex pk r).resources = t.resources := by
  unfold unindex
  split_ifs <;> rfl

@[simp] theorem put_resources : (t.put pk r).resources = t.resources.insert pk r := index_resources

theorem find?_index (key : ResourceKey) (pk' : ResourcePK) : (t.index pk r).schemaResources.find? key = some pk' ↔
      (r.isDeleted = false ∧ key = r.key ∧ pk' = pk) ∨
        ¬ (r.isDeleted = false ∧ key = r.key) ∧ t.schemaResources.find? key = some pk' := by
  unfold index
  cases hdeleted : r.isDeleted with
  | true => simp
  | false =>
    simp only [Bool.false_eq_true, if_false, find?_insert]
    by_cases hkey : key = r.key
    · simp [hkey, eq_comm]
    · simp [hkey]

theorem find?_unindex (key : ResourceKey) (pk' : ResourcePK) : (t.unindex pk r).schemaResources.find? key = some pk' ↔
      t.schemaResources.find? key = some pk' ∧ ¬ (key = r.key ∧ pk' = pk) := by
  unfold unindex
  split_ifs with hfind
  · simp only [find?_erase]
    by_cases hkey : key = r.key
    · subst hkey
      simp only [if_true, reduceCtorEq, hfind, some.injEq, true_and, false_iff, not_and, not_not]
      exact Eq.symm
    · simp [hkey]
  · refine ⟨fun h => ⟨h, ?_⟩, And.left⟩
    rintro ⟨rfl, rfl⟩
    exact hfind h

theorem Sound.put (h : ∀ key pk', t.schemaResources.find? key = some pk' ↔
      ∃ r, t.resources.find? pk' = some r ∧ r.isDeleted = false ∧ r.key = key ∧ pk' ≠ pk)
    (hdistinct : (t.put pk r).Distinct) : (t.put pk r).Sound := by
  intro key pk'
  have hrow : (t.put pk r).resources.find? pk = some r := by rw [put_resources, find?_insert_self]
  have hother : ∀ {pk'}, pk' ≠ pk → (t.put pk r).resources.find? pk' = t.resources.find? pk' := by
    intro pk' hne
    rw [put_resources, find?_insert_of_ne _ _ hne]
  unfold Table.put at hrow hother hdistinct ⊢
  rw [find?_index, h]
  constructor
  · rintro (⟨hlive, rfl, rfl⟩ | ⟨-, r', hr', hlive, hkey, hne⟩)
    · exact ⟨r, hrow, hlive, rfl⟩
    · exact ⟨r', (hother hne).trans hr', hlive, hkey⟩
  · rintro ⟨r', hr', hlive, rfl⟩
    by_cases hpk : pk' = pk
    · subst hpk
      obtain rfl : r = r' := some.inj (hrow.symm.trans hr')
      exact .inl ⟨hlive, rfl, rfl⟩
    · refine .inr ⟨?_, r', (hother hpk).symm.trans hr', hlive, rfl, hpk⟩
      rintro ⟨-, hkey⟩
      exact hpk (hdistinct pk' pk r' r hr' hrow hkey)

theorem Sound.put_fresh (h : t.Sound) (hnone : t.resources.find? pk = none) (hdistinct : (t.put pk r).Distinct) :
    (t.put pk r).Sound := by
  refine Sound.put (fun key pk' => (h key pk').trans (exists_congr fun r' => ?_)) hdistinct
  refine and_congr_right fun hr' => and_congr_right fun _ => (and_iff_left ?_).symm
  rintro rfl
  rw [hnone] at hr'
  cases hr'

theorem Sound.put_unindex (h : t.Sound) (hold : t.resources.find? pk = some old)
    (hdistinct : ((t.unindex pk old).put pk r).Distinct) : ((t.unindex pk old).put pk r).Sound := by
  refine Sound.put (fun key pk' => ?_) hdistinct
  rw [find?_unindex, h, unindex_resources]
  constructor
  · rintro ⟨⟨r', hr', hlive, rfl⟩, hnot⟩
    refine ⟨r', hr', hlive, rfl, ?_⟩
    rintro rfl
    obtain rfl : old = r' := some.inj (hold.symm.trans hr')
    exact hnot ⟨rfl, rfl⟩
  · rintro ⟨r', hr', hlive, rfl, hne⟩
    exact ⟨⟨r', hr', hlive, rfl⟩, fun hsame => hne hsame.2⟩

theorem createResource_eq : t.createResource pk r = t.put pk r := by
  unfold createResource put index
  split_ifs <;> rfl

theorem setDeleted_resources (restored : Bool) :
    (t.setDeleted pk r restored).resources = t.resources.insert pk { r with isDeleted := !restored } := by
  unfold setDeleted
  split_ifs
  · exact index_resources
  · exact unindex_resources

theorem Sound.setDeleted (h : t.Sound) (hdistinct : t.Distinct) (hr : t.resources.find? pk = some r)
    (restored : Bool) : (t.setDeleted pk r restored).Sound := by
  intro key pk'
  have hfind : ∀ pk' r', (t.setDeleted pk r restored).resources.find? pk' = some r' ↔
      (pk' = pk ∧ r' = { r with isDeleted := !restored }) ∨ (pk' ≠ pk ∧ t.resources.find? pk' = some r') := by
    intro pk' r'
    rw [setDeleted_resources, find?_insert]
    by_cases hpk : pk' = pk
    · simp [hpk, eq_comm]
    · simp [hpk]
  simp only [hfind]
  unfold Table.setDeleted
  cases restored with
  | true =>
    simp only [if_true, find?_index, Bool.not_true, true_and]
    constructor
    · rintro (⟨rfl, rfl⟩ | ⟨hkey, hpk⟩)
      · exact ⟨_, .inl ⟨rfl, rfl⟩, rfl, rfl⟩
      · obtain ⟨r', hr', hlive, rfl⟩ := (h key pk').mp hpk
        refine ⟨r', .inr ⟨?_, hr'⟩, hlive, rfl⟩
        rintro rfl
        obtain rfl : r = r' := some.inj (hr.symm.trans hr')
        exact hkey rfl
    · rintro ⟨r', ⟨rfl, rfl⟩ | ⟨hne, hr'⟩, hlive, rfl⟩
      · exact .inl ⟨rfl, rfl⟩
      · exact .inr ⟨fun hkey => hne (hdistinct pk' pk r' r hr' hr hkey), (h _ pk').mpr ⟨r', hr', hlive, rfl⟩⟩
  | false =>
    simp only [Bool.false_eq_true, if_false, find?_unindex, Bool.not_false]
    constructor
    · rintro ⟨hpk, hnot⟩
      obtain ⟨r', hr', hlive, rfl⟩ := (h key pk').mp hpk
      refine ⟨r', .inr ⟨?_, hr'⟩, hlive, rfl⟩
      rintro rfl
      obtain rfl : r = r' := some.inj (hr.symm.trans hr')
      exact hnot ⟨rfl, rfl⟩
    · rintro ⟨r', ⟨rfl, rfl⟩ | ⟨hne, hr'⟩, hlive, rfl⟩
      · exact absurd hlive (by simp)
      · exact ⟨(h _ pk').mpr ⟨r', hr', hlive, rfl⟩, fun hsame => hne hsame.2⟩

theorem Distinct.setDeleted (h : t.Distinct) (hr : t.resources.find? pk = some r) (restored : Bool) :
    (t.setDeleted pk r restored).Distinct := by
  have hkept : ∀ {pk' r'}, (t.setDeleted pk r restored).resources.find? pk' = some r' →
      ∃ r'', t.resources.find? pk' = some r'' ∧ r''.key = r'.key := by
    intro pk' r' hr'
    rw [setDeleted_resources, find?_insert] at hr'
    split_ifs at hr' with hpk
    · exact ⟨r, hpk ▸ hr, by rw [← some.inj hr']; rfl⟩
    · exact ⟨r', hr', rfl⟩
  intro pk₁ pk₂ r₁ r₂ h₁ h₂ hkey
  obtain ⟨s₁, hs₁, hk₁⟩ := hkept h₁
  obtain ⟨s₂, hs₂, hk₂⟩ := hkept h₂
  exact h pk₁ pk₂ s₁ s₂ hs₁ hs₂ (hk₁.trans (hkey.trans hk₂.symm))

/-- One row's turn, and so the loop's, keeps the index. -/
theorem Sound.updateRows (h : t.Sound) (hdistinct : t.Distinct) (pk : Option ResourcePK) (schemaName : String)
    (slug : Option String) (restored : Bool) (pks : List ResourcePK) :
    (pks.foldl (updateRow pk schemaName slug restored) t).Sound := by
  induction pks generalizing t with
  | nil => exact h
  | cons pk' pks ih =>
    have hturn : (updateRow pk schemaName slug restored t pk').Sound ∧
        (updateRow pk schemaName slug restored t pk').Distinct := by
      unfold updateRow
      cases hr : t.resources.find? pk' with
      | none => exact ⟨h, hdistinct⟩
      | some r =>
        dsimp only
        split_ifs
        · exact ⟨h.setDeleted hdistinct hr restored, hdistinct.setDeleted hr restored⟩
        · exact ⟨h, hdistinct⟩
    exact ih hturn.1 hturn.2

theorem sound_load {rows : OrdMap ResourcePK Resource} (hdistinct : (load rows).Distinct) : (load rows).Sound := by
  have hresources : (load rows).resources = rows :=
    foldl_view Table.resources (fun _ _ _ => index_resources) { resources := rows }
  intro key pk
  rw [hresources]
  have hother : ∀ e : ResourcePK × Resource, ¬ (e.2.isDeleted = false ∧ key = e.2.key) → ∀ t : Table,
      (t.index e.1 e.2).schemaResources.find? key = t.schemaResources.find? key := fun e he t =>
    ext fun pk' => by
      rw [find?_index]
      tauto
  unfold load
  by_cases hat : ∃ e ∈ rows.entries, e.2.isDeleted = false ∧ key = e.2.key
  · obtain ⟨e, he, hlive, rfl⟩ := hat
    have hrow : rows.find? e.1 = some e.2 := mem_entries_iff.mp he
    have hone : ∀ pk' r', rows.find? pk' = some r' → r'.key = e.2.key → pk' = e.1 := by
      rw [← hresources] at hrow ⊢
      exact fun pk' r' hr' hkey => hdistinct pk' e.1 r' e.2 hr' hrow hkey
    have hne : ∀ e' ∈ rows.entries, e' ≠ e → ¬ (e'.2.isDeleted = false ∧ e.2.key = e'.2.key) := fun e' he' hne hsame =>
      hne (List.inj_on_of_nodup_map rows.keys_nodup he' he
        (hone e'.1 e'.2 (mem_entries_iff.mp he') hsame.2.symm))
    obtain ⟨t, -, hfold⟩ := foldl_view_of_mem (f := fun (t : Table) e => t.index e.1 e.2)
      (fun t => t.schemaResources.find? e.2.key) he (.of_map _ rows.keys_nodup) (fun e' he' h => hother e' (hne e' he' h))
      { resources := rows }
    rw [hfold, find?_index]
    constructor
    · rintro (⟨-, -, rfl⟩ | ⟨hnot, -⟩)
      · exact ⟨e.2, hrow, hlive, rfl⟩
      · exact absurd ⟨hlive, rfl⟩ hnot
    · rintro ⟨r, hr, -, hkey⟩
      exact .inl ⟨hlive, rfl, hone pk r hr hkey⟩
  · have hnone := foldl_view (f := fun (t : Table) e => t.index e.1 e.2) (fun t => t.schemaResources.find? key)
      (fun e he => hother e fun hsame => hat ⟨e, he, hsame⟩) { resources := rows }
    rw [hnone, find?_empty]
    exact iff_of_false nofun fun ⟨r, hr, hlive, hkey⟩ => hat ⟨(pk, r), mem_entries_iff.mpr hr, hlive, hkey.symm⟩

theorem Sound.purgeResource (h : t.Sound) : (t.purgeResource pk).Sound := by
  intro key pk'
  unfold Table.purgeResource
  rw [find?_filter_eq_some, h]
  simp only [find?_erase, decide_eq_true_eq]
  by_cases hpk : pk' = pk
  · simp [hpk]
  · simp [hpk]

variable {a : ResourceArgs}

theorem find?_of_findResource {found : ResourcePK × Resource} (h : t.findResource a = some found) :
    t.resources.find? found.1 = some found.2 := by
  unfold findResource at h
  dsimp only at h
  split at h
  · rename_i hsome
    cases h
    obtain ⟨pk, -, hmap⟩ := bind_eq_some_iff.mp hsome
    obtain ⟨r, hr, rfl⟩ := map_eq_some_iff.mp hmap
    exact hr
  · split_ifs at h
    · exact mem_entries_iff.mp (List.mem_of_find?_eq_some h)

theorem find?_eq_none_of_findResource (h : t.findResource a = none) (hpk : a.id = some pk) :
    t.resources.find? pk = none := by
  cases hr : t.resources.find? pk with
  | none => rfl
  | some r => simp [findResource, hpk, hr] at h

theorem Sound.grantResource (h : t.Sound) (hdistinct : (t.grantResource a).2.Distinct) :
    (t.grantResource a).2.Sound := by
  unfold Table.grantResource at hdistinct ⊢
  cases hfound : t.findResource a with
  | some found =>
    simp only [hfound] at hdistinct ⊢
    split_ifs at hdistinct ⊢
    · exact h.put_unindex (find?_of_findResource hfound) hdistinct
    · exact h
  | none =>
    simp only [hfound] at hdistinct ⊢
    cases hpk : a.id with
    | none => exact h
    | some pk =>
      simp only [hpk] at hdistinct ⊢
      exact h.put_fresh (find?_eq_none_of_findResource hfound hpk) hdistinct

/-- A row created in the place of one enforced, under the same key. -/
theorem Sound.createResource (h : t.Sound) (hdistinct : (t.createResource pk r).Distinct)
    (hreplaces : Change.replaces t (.create pk r)) : (t.createResource pk r).Sound := by
  rw [createResource_eq] at hdistinct ⊢
  cases hold : t.resources.find? pk with
  | none => exact h.put_fresh hold hdistinct
  | some old =>
    cases hdeleted : old.isDeleted with
    | true =>
      -- a deleted row has no key in the index, so none is left behind
      refine Sound.put (fun key pk' => (h key pk').trans (exists_congr fun r' => ?_)) hdistinct
      refine and_congr_right fun hr' => ⟨fun hrest => ⟨hrest.1, hrest.2, ?_⟩, fun hrest => ⟨hrest.1, hrest.2.1⟩⟩
      rintro rfl
      obtain rfl : old = r' := some.inj (hold.symm.trans hr')
      exact absurd (hdeleted.symm.trans hrest.1) (by simp)
    | false =>
      obtain ⟨hlive, hkey⟩ := hreplaces old hold hdeleted
      have hsame : t.put pk r = (t.unindex pk old).put pk r := by
        have hkeys : ∀ key, (t.put pk r).schemaResources.find? key = ((t.unindex pk old).put pk r).schemaResources.find? key := by
          refine fun key => ext fun pk' => ?_
          unfold Table.put
          rw [find?_index, find?_index]
          rw [hkey]
          refine or_congr_right (and_congr_right fun hnot => ?_)
          unfold unindex
          split_ifs
          · rw [find?_erase, if_neg fun hk => hnot ⟨hlive, hk⟩]
          · rfl
        have hext : ∀ x y : Table, x.resources = y.resources → x.schemaResources = y.schemaResources → x = y := by
          rintro ⟨_, _⟩ ⟨_, _⟩ rfl rfl
          rfl
        exact hext _ _ (by rw [put_resources, put_resources, unindex_resources]) (ext_find hkeys)
      rw [hsame] at hdistinct ⊢
      exact h.put_unindex hold hdistinct

theorem Sound.step (h : t.Sound) {c : Change} (hdistinct : (t.step c).Distinct) (hbefore : t.Distinct)
    (hreplaces : c.replaces t) : (t.step c).Sound := by
  cases c with
  | load rows => exact sound_load hdistinct
  | create pk r => exact h.createResource hdistinct hreplaces
  | updateDeleted pk schemaName id slug restored =>
    unfold Table.step updateResourceDeleted
    dsimp only
    split_ifs
    · exact h.updateRows hbefore _ _ _ _ _
    · exact h
  | purge pk => exact h.purgeResource
  | grant a => exact h.grantResource hdistinct

end Sound

/-- The tables events come to, no two rows with one key and no row created over one it is not. -/
inductive Reached : Table → Prop
  | start : Reached {}
  | step {t : Table} {c : Change} (h : Reached t) (hdistinct : (t.step c).Distinct) (hreplaces : c.replaces t) :
      Reached (t.step c)

theorem Reached.distinct {t : Table} (h : Reached t) : t.Distinct := by
  cases h with
  | start => exact fun pk pk' r r' hr => absurd hr (by simp)
  | step _ hdistinct _ => exact hdistinct

theorem Reached.sound {t : Table} (h : Reached t) : t.Sound := by
  induction h with
  | start => exact sound_empty
  | step hbefore hdistinct hreplaces ih => exact ih.step hdistinct hbefore.distinct hreplaces

/-- The next event keeps the index exactly when it does not create a row over one enforced under another key. -/
theorem indexed_step_iff {t : Table} (h : Reached t) {c : Change} (hdistinct : (t.step c).Distinct) :
    (t.step c).Indexed ↔ c.replaces t := by
  refine ⟨fun hindexed => ?_, fun hreplaces => (h.sound.step hdistinct h.distinct hreplaces).indexed⟩
  cases c with
  | create pk r =>
    intro old hold hlive
    have hkey : t.schemaResources.find? old.key = some pk := (h.sound old.key pk).mpr ⟨old, hold, hlive, rfl⟩
    refine hindexed.row old.key pk r ?_ ?_
    · -- the key of the row that was there is still in the index
      change (t.createResource pk r).schemaResources.find? old.key = some pk
      rw [createResource_eq, put, find?_index]
      by_cases hsame : r.isDeleted = false ∧ old.key = r.key
      · exact .inl ⟨hsame.1, hsame.2, rfl⟩
      · exact .inr ⟨hsame, hkey⟩
    · change (t.createResource pk r).resources.find? pk = some r
      rw [createResource_eq, put_resources, find?_insert_self]
  | load | updateDeleted | purge | grant => trivial

theorem distinct_iff {t : Table} :
    t.Distinct ↔ ∀ e ∈ t.resources.entries, ∀ e' ∈ t.resources.entries, e.2.key = e'.2.key → e.1 = e'.1 :=
  ⟨fun h e he e' he' => h e.1 e'.1 e.2 e'.2 (mem_entries_iff.mp he) (mem_entries_iff.mp he'),
    fun h pk pk' r r' hr hr' => h (pk, r) (mem_entries_iff.mpr hr) (pk', r') (mem_entries_iff.mpr hr')⟩

instance (t : Table) : Decidable t.Distinct := decidable_of_iff _ distinct_iff.symm

/-- Row 5, the `sessions` of `app`, enforced. -/
def sessions : Change := .load ((∅ : OrdMap ResourcePK Resource).insert 5 { schema := "app", slug := "sessions" })

/-- Another row beside it is indexed under its own key. -/
theorem users_indexed : ((({} : Table).step sessions).step (.create 6 { schema := "app", slug := "users" })).Indexed := by
  have hreached : Reached (({} : Table).step sessions) := .step .start (by decide +kernel) trivial
  refine (indexed_step_iff hreached (by decide +kernel)).mpr fun old hold => ?_
  exact absurd hold (by rw [show (({} : Table).step sessions).resources.find? 6 = none by decide +kernel]; simp)

/-- Its pk reused for another row: `sessions` is still in the index, and its pk is that of `users`. -/
theorem reusedPK_misindexed : (({} : Table).step sessions).Distinct ∧
      ((({} : Table).step sessions).step (.create 5 { schema := "app", slug := "users" })).Distinct ∧
        ¬ ((({} : Table).step sessions).step (.create 5 { schema := "app", slug := "users" })).Indexed := by
  refine ⟨by decide +kernel, by decide +kernel, fun h => ?_⟩
  have hrow := h.row (resourceKey "app" "sessions" "") 5 { schema := "app", slug := "users" } (by decide +kernel)
    (by decide +kernel)
  exact absurd hrow.2 (by decide +kernel)

end Table

end OpcHub.Access
