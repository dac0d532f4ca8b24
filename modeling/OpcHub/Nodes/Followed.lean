import OpcHub.Nodes.Governed

/-! The published maps over the events that change the resource rows. Each event
decides from what it is given whether a row of the server's nodes changes, and
then assigns the rights again. A purge always does when it must. A row created,
or put by a grant, in the place of another is judged by what it is and not by
what it replaces, and a deletion that names its row by pk is judged by its slug
when it gives one: there the maps can stay behind the rows. They follow the rows
over events that replace no such row. -/

namespace OpcHub.Nodes

open OpcHub.Lib OpcHub.Access

inductive Event
  | create (pk : ResourcePK) (r : Resource)
  | updateDeleted (pk : Option ResourcePK) (schemaName : String) (id : Option ResourcePK) (slug : Option String)
      (restored : Bool)
  | purge (pk : ResourcePK)
  | grant (a : ResourceArgs)

/-- What the event does to the rows. -/
def Event.change : Event → Table.Change
  | .create pk r => .create pk r
  | .updateDeleted pk schemaName id slug restored => .updateDeleted pk schemaName id slug restored
  | .purge pk => .purge pk
  | .grant a => .grant a

/-- The rows, and the maps last published. -/
structure OpcAuthorize (ν : Type*) [LinearOrder ν] where
  table : Table
  published : Published ν

variable {ν : Type*} [LinearOrder ν]

/-- The row an event puts in the table, and its pk. -/
def Event.puts (t : Table) : Event → Option (ResourcePK × Resource)
  | .create pk r => some (pk, r)
  | .grant a =>
    match t.findResource a with
    | some found => if Table.stale a found then some (found.1, a.toResource) else none
    | none => a.id.map fun pk => (pk, a.toResource)
  | _ => none

namespace Server

variable (server : Server ν)

/-- A slug that is given decides; without one the row with the pk does. -/
def isNodeResource (t : Table) (pk : Option ResourcePK) (schemaName : String) (id : Option ResourcePK)
    (slug : Option String) : Bool :=
  match slug with
  | some slug => slug = "nodeIds" && (schemaName = "" || schemaName = server.app)
  | none => ((pk <|> id).bind t.resources.find?).any server.mine

/-- The event has the rights assigned again. -/
def reassigns (t : Table) : Event → Bool
  | .create _ r => server.mine r
  | .updateDeleted pk schemaName id slug restored =>
    server.isNodeResource t pk schemaName id slug && (t.updateResourceDeleted pk schemaName id slug restored).isSome
  | .purge pk => server.isNodeResource t pk "" none none
  | .grant a => server.mine a.toResource && (t.findResource a).isNone

def step (x : OpcAuthorize ν) (e : Event) : OpcAuthorize ν :=
  { table := x.table.step e.change
    published := if server.reassigns x.table e then server.assignRights (x.table.step e.change).resources else x.published }

/-- After the first assignment. -/
def assigned (t : Table) : OpcAuthorize ν := { table := t, published := server.assignRights t.resources }

/-- The maps published are those an assignment would publish now. -/
structure Follows (x : OpcAuthorize ν) : Prop where
  nodeResources : x.published.nodeResources = (server.assignRights x.table.resources).nodeResources
  enclosing : x.published.enclosing = (server.assignRights x.table.resources).enclosing
  beneath : x.published.beneath = (server.assignRights x.table.resources).beneath
  configured : x.published.configured = (server.assignRights x.table.resources).configured
  rootResourcePK : x.published.rootResourcePK = (server.assignRights x.table.resources).rootResourcePK
  enabled : x.published.enabled = (server.assignRights x.table.resources).enabled

/-- What an event asks of the rows it finds. A row created in another's place is of this server's nodes, or the other
is not; a change that gives a slug names the nodes' rows by it; a grant that puts its row in the place of one cached
under its pk is not about nodes. -/
def Heeds (t : Table) : Event → Prop
  | .create pk r => server.mine r = true ∨ ∀ old, t.resources.find? pk = some old → server.mine old = false
  | .updateDeleted pk schemaName id slug _ =>
    (∀ s, slug = some s → s = "nodeIds" ∧ (schemaName = "" ∨ schemaName = server.app)) ∨
      ∀ pk' r, t.resources.find? pk' = some r → Table.updates (pk <|> id) schemaName slug pk' r = true →
        server.mine r = false
  | .purge _ => True
  | .grant a => ∀ found, t.findResource a = some found → Table.stale a found = true →
      server.mine found.2 = false ∧ server.mine a.toResource = false

variable {server} {t : Table} {x : OpcAuthorize ν} {e : Event}

theorem follows_assigned (t : Table) : server.Follows (server.assigned t) := ⟨rfl, rfl, rfl, rfl, rfl, rfl⟩

theorem scan_filter {rows : OrdMap ResourcePK Resource} (keep : ResourcePK → Resource → Bool)
    (h : ∀ pk r, rows.find? pk = some r → keep pk r = false → server.mine r = false) :
    server.scan (rows.filter keep) = server.scan rows := by
  have hfilter : server.scan (rows.filter keep) = (rows.entries.filter fun e => keep e.1 e.2).foldl server.scanRow {} := rfl
  rw [hfilter, List.foldl_filter]
  refine List.foldl_ext _ _ _ fun x e he => ?_
  split_ifs with hkeep
  · rfl
  · simp [scanRow, h e.1 e.2 (OrdMap.mem_entries_iff.mp he) (by simpa using hkeep)]

/-- The rows of the server's nodes are the same. -/
def SameRows (server : Server ν) (rows rows' : OrdMap ResourcePK Resource) : Prop :=
  ∀ pk r, server.mine r = true → (rows.find? pk = some r ↔ rows'.find? pk = some r)

theorem SameRows.scan_eq {rows rows' : OrdMap ResourcePK Resource} (h : server.SameRows rows rows') :
    server.scan rows = server.scan rows' := by
  have hmine : ∀ rows : OrdMap ResourcePK Resource, server.scan (rows.filter fun _ r => server.mine r) = server.scan rows :=
    fun rows => scan_filter _ fun _ _ _ hkeep => hkeep
  rw [← hmine rows, ← hmine rows']
  refine congrArg server.scan (OrdMap.ext_find fun pk => Option.ext fun r => ?_)
  rw [OrdMap.find?_filter_eq_some, OrdMap.find?_filter_eq_some]
  exact ⟨fun ⟨hr, hm⟩ => ⟨(h pk r hm).mp hr, hm⟩, fun ⟨hr, hm⟩ => ⟨(h pk r hm).mpr hr, hm⟩⟩

omit [LinearOrder ν] in
/-- A row put where none of the nodes' was, and not one itself. -/
theorem sameRows_insert {rows : OrdMap ResourcePK Resource} {pk : ResourcePK} {r : Resource} (hr : server.mine r = false)
    (hold : ∀ old, rows.find? pk = some old → server.mine old = false) : server.SameRows rows (rows.insert pk r) := by
  intro pk' r' hmine
  rw [OrdMap.find?_insert]
  split_ifs with hpk
  · subst hpk
    refine iff_of_false (fun h => ?_) fun h => ?_
    · exact absurd ((hold r' h).symm.trans hmine) (by simp)
    · cases h
      exact absurd (hr.symm.trans hmine) (by simp)
  · rfl

omit [LinearOrder ν] in
theorem sameRows_updateRows {pk : Option ResourcePK} {schemaName : String} {slug : Option String}
    (h : ∀ pk' r, t.resources.find? pk' = some r → Table.updates pk schemaName slug pk' r = true → server.mine r = false)
    (restored : Bool) (pks : List ResourcePK) :
    server.SameRows t.resources (pks.foldl (Table.updateRow pk schemaName slug restored) t).resources := by
  refine List.foldlRecOn (motive := fun t' : Table => server.SameRows t.resources t'.resources) pks _
    (fun _ _ _ => Iff.rfl) ?_
  intro t' hsame pk' _
  unfold Table.updateRow
  split
  · exact hsame
  · rename_i r hr
    split_ifs with hupdates
    · -- were the row of the nodes, it would be so in the table the loop began with
      have hother : server.mine r = false := by
        by_contra hmine
        rw [Bool.not_eq_false] at hmine
        exact absurd ((h pk' r ((hsame pk' r hmine).mpr hr) hupdates).symm.trans hmine) (by simp)
      have hinsert : server.SameRows t'.resources (t'.resources.insert pk' { r with isDeleted := !restored }) :=
        sameRows_insert hother fun old hold => by
          cases hr.symm.trans hold
          exact hother
      intro pk'' r'' hmine
      rw [Table.setDeleted_resources]
      exact (hsame pk'' r'' hmine).trans (hinsert pk'' r'' hmine)
    · exact hsame

omit [LinearOrder ν] in
theorem sameRows_updateDeleted {pk id : Option ResourcePK} {schemaName : String} {slug : Option String} {restored : Bool}
    (h : server.Heeds t (.updateDeleted pk schemaName id slug restored))
    (hre : server.reassigns t (.updateDeleted pk schemaName id slug restored) = false) :
    server.SameRows t.resources (t.step (Event.updateDeleted pk schemaName id slug restored).change).resources := by
  have hstep : t.step (Event.updateDeleted pk schemaName id slug restored).change =
      (t.updateResourceDeleted pk schemaName id slug restored).getD t := rfl
  cases hupdate : t.updateResourceDeleted pk schemaName id slug restored with
  | none =>
    rw [hstep, hupdate]
    exact fun _ _ _ => Iff.rfl
  | some t' =>
    rw [hstep, hupdate]
    have hrows : ∀ pk' r, t.resources.find? pk' = some r → Table.updates (pk <|> id) schemaName slug pk' r = true →
        server.mine r = false := by
      intro pk' r hr hupdates
      rcases h with hslug | hrows
      · have hnode : server.isNodeResource t pk schemaName id slug = false := by simpa [reassigns, hupdate] using hre
        cases slug with
        | some s =>
          obtain ⟨rfl, hschema⟩ := hslug s rfl
          simp only [isNodeResource, decide_true, Bool.true_and, Bool.or_eq_false_iff, decide_eq_false_iff_not] at hnode
          exact absurd hschema (not_or.mpr hnode)
        | none =>
          cases hpk : (pk <|> id) with
          | none => simp [Table.updates, hpk] at hupdates
          | some p =>
            obtain rfl : p = pk' := by simpa [Table.updates, hpk] using hupdates
            simpa [isNodeResource, hpk, hr] using hnode
      · exact hrows pk' r hr hupdates
    unfold Table.updateResourceDeleted at hupdate
    dsimp only at hupdate
    split_ifs at hupdate
    cases hupdate
    exact sameRows_updateRows hrows restored _

omit [LinearOrder ν] in
theorem sameRows_grant {a : ResourceArgs} (h : server.Heeds t (.grant a))
    (hre : server.reassigns t (.grant a) = false) :
    server.SameRows t.resources (t.step (Event.grant a).change).resources := by
  have hstep : t.step (Event.grant a).change = (t.grantResource a).2 := rfl
  rw [hstep, Table.grantResource]
  cases hfound : t.findResource a with
  | some found =>
    dsimp only
    split_ifs with hstale
    · obtain ⟨hold, hnew⟩ := h found hfound hstale
      have hfind := Table.find?_of_findResource hfound
      simp only [Table.put_resources, Table.unindex_resources]
      refine sameRows_insert hnew fun old ho => ?_
      cases hfind.symm.trans ho
      exact hold
    · exact fun _ _ _ => Iff.rfl
  | none =>
    have hnew : server.mine a.toResource = false := by simpa [reassigns, hfound] using hre
    cases hid : a.id with
    | none => exact fun _ _ _ => Iff.rfl
    | some pk =>
      simp only [Table.put_resources]
      refine sameRows_insert hnew fun old ho => ?_
      rw [Table.find?_eq_none_of_findResource hfound hid] at ho
      cases ho

omit [LinearOrder ν] in
/-- An event that asks for no assignment and finds rows as it should changes none of the nodes' rows. -/
theorem Heeds.sameRows (h : server.Heeds t e) (hre : server.reassigns t e = false) :
    server.SameRows t.resources (t.step e.change).resources := by
  cases e with
  | create pk r =>
    have hr : server.mine r = false := hre
    have hold := Or.resolve_left h (by simp [hr])
    have hstep : (t.step (Event.create pk r).change).resources = t.resources.insert pk r := by
      simp [Event.change, Table.step, Table.createResource]
    rw [hstep]
    exact sameRows_insert hr hold
  | updateDeleted pk schemaName id slug restored => exact sameRows_updateDeleted h hre
  | purge pk =>
    intro pk' r hmine
    have hstep : (t.step (Event.purge pk).change).resources = t.resources.erase pk := rfl
    rw [hstep, OrdMap.find?_erase]
    split_ifs with hpk
    · subst hpk
      refine iff_of_false (fun hr => ?_) (by simp)
      simp [reassigns, isNodeResource, hr, hmine] at hre
    · rfl
  | grant a => exact sameRows_grant h hre

theorem Follows.step (h : server.Follows x) (hheeds : server.Heeds x.table e) : server.Follows (server.step x e) := by
  unfold Server.step
  cases hre : server.reassigns x.table e with
  | true =>
    rw [if_pos rfl]
    exact follows_assigned _
  | false =>
    rw [if_neg Bool.false_ne_true]
    -- the maps are made from what the scan has, and that is as it was
    have hsame : server.assignRights x.table.resources = server.assignRights (x.table.step e.change).resources :=
      congrArg server.publish (hheeds.sameRows hre).scan_eq
    obtain ⟨h₁, h₂, h₃, h₄, h₅, h₆⟩ := h
    constructor <;> simp only [← hsame] <;> assumption

/-- The states events come to, each of them heeded. -/
inductive Reached (server : Server ν) : OpcAuthorize ν → Prop
  | assigned (t : Table) : Reached server (server.assigned t)
  | step {x : OpcAuthorize ν} {e : Event} (h : Reached server x) (hheeds : server.Heeds x.table e) :
      Reached server (server.step x e)

theorem Reached.follows (h : server.Reached x) : server.Follows x := by
  induction h with
  | assigned t => exact follows_assigned t
  | step _ hheeds ih => exact ih.step hheeds

theorem step_resources_of_puts {pk : ResourcePK} {r : Resource} (h : e.puts t = some (pk, r)) :
    (t.step e.change).resources = t.resources.insert pk r := by
  cases e with
  | create pk' r' =>
    cases h
    simp [Event.change, Table.step, Table.createResource]
  | grant a =>
    simp only [Event.puts] at h
    simp only [Event.change, Table.step, Table.grantResource]
    cases hfound : t.findResource a with
    | some found =>
      rw [hfound] at h
      dsimp only at h ⊢
      split_ifs at h ⊢
      cases h
      simp
    | none =>
      rw [hfound] at h
      obtain ⟨pk', hid, heq⟩ := Option.map_eq_some_iff.mp h
      cases heq
      simp [hid]
  | updateDeleted | purge => cases h

/-- A row of the nodes, the only one that names its node, is replaced by one that does not, and the rights are not
assigned again. -/
theorem not_follows_of_replaced (h : server.Follows x) (hre : server.reassigns x.table e = false) {pk : ResourcePK}
    {old r : Resource} {n : ν} (hputs : e.puts x.table = some (pk, r)) (hold : x.table.resources.find? pk = some old)
    (hmine : server.mine old = true) (hplace : server.place old = some n)
    (halone : ∀ pk' r', x.table.resources.find? pk' = some r' → server.mine r' = true → server.place r' = some n → pk' = pk)
    (hnew : server.mine r = true → server.place r ≠ some n) : ¬ server.Follows (server.step x e) := by
  intro hstep
  have hbase : (server.scan x.table.resources).base = (server.scan (x.table.step e.change).resources).base := by
    have hafter := hstep.configured
    unfold Server.step at hafter
    rw [hre, if_neg Bool.false_ne_true] at hafter
    exact h.configured.symm.trans hafter
  obtain ⟨pk', hpk'⟩ := (scan_of_row hold hmine hplace).1
  rw [hbase, step_resources_of_puts hputs] at hpk'
  obtain ⟨r', hr', hmine', hplace'⟩ := row_of_scan hpk'
  rw [OrdMap.find?_insert] at hr'
  split_ifs at hr' with hpk
  · cases hr'
    exact hnew hmine' hplace'
  · exact hpk (halone pk' r' hr' hmine' hplace')

/-- The maps follow the rows in every state that heeded events come to; and an event that puts its row in the place of
a node's only one, without a new assignment, leaves them behind. -/
theorem follows_reached (h : server.Reached x) : server.Follows x ∧
    ∀ e pk old r n, server.reassigns x.table e = false → e.puts x.table = some (pk, r) →
      x.table.resources.find? pk = some old → server.mine old = true → server.place old = some n →
      (∀ pk' r', x.table.resources.find? pk' = some r' → server.mine r' = true → server.place r' = some n → pk' = pk) →
      (server.mine r = true → server.place r ≠ some n) → ¬ server.Follows (server.step x e) :=
  ⟨h.follows, fun _ _ _ _ _ hre hputs hold hmine hplace halone hnew =>
    not_follows_of_replaced h.follows hre hputs hold hmine hplace halone hnew⟩

/-- Another schema's row created, and the folder's resource purged: the nodes are as if it had never been. -/
theorem purge_followed : folder.Follows (folder.step (folder.step (folder.assigned { resources := folderRows })
    (.create 9 { schema := "gateway", slug := "users" })) (.purge 6)) :=
  (follows_reached (((Reached.assigned { resources := folderRows }).step
    (e := .create 9 { schema := "gateway", slug := "users" }) (.inr fun old hold => by cases hold)).step
      (e := .purge 6) trivial)).1

/-- A grant that names resource 6 as the variable's, where the cache still has the pk for the folder's. -/
def regrant : Event := .grant { id := some 6, schemaName := "opc", slug := "nodeIds", criteria := some "i=2" }

/-- The row is the variable's now, and it is the folder that stays mapped to the resource. -/
theorem regrant_unfollowed :
    ((folder.step (folder.assigned { resources := folderRows }) regrant).table.resources.find? 6).map Resource.criteria =
        some "i=2" ∧
      (folder.step (folder.assigned { resources := folderRows }) regrant).published.nodeResources.find? 1 = some 6 ∧
        ¬ folder.Follows (folder.step (folder.assigned { resources := folderRows }) regrant) := by
  refine ⟨by decide +kernel, by decide +kernel, fun h => ?_⟩
  exact absurd h.nodeResources (by decide +kernel)

end Server

end OpcHub.Nodes
