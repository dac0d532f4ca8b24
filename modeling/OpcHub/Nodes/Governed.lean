import OpcHub.Access.Directory
import OpcHub.Nodes.Walk

/-! What a user may do with a node. The resource rows with slug `nodeIds` name
nodes; the walk made from them is published, and a node is governed by the
resource it was mapped to and those around that one. A user has what any of them
allows, less what any of them denies, once one of them is enforced. A user may
browse what it may read, and what is above a resource it may read under: so who
can read a node can browse down to it. In a tree the resources that govern a node
are those of the node and of everything above it up to Objects: what is above that
is not walked, and a resource there governs nothing. -/

namespace OpcHub.Nodes

open OpcHub.Lib OpcHub.Access List OrdMap AddressSpace

/-- A server: its nodes, its name, how it reads a node id, and its type nodes. -/
structure Server (ν : Type*) extends AddressSpace ν where
  app : String
  decode : String → Option ν
  namespaceIndex : ν → ℕ
  typeNodes : List ν

/-- The rows scanned: the resource of each node that has one, and whether any, or the root's, is enforced. -/
structure Scan (ν : Type*) [LinearOrder ν] where
  base : OrdMap ν ResourcePK := ∅
  enforcing : Bool := false
  rootEnforced : Bool := false
  deriving DecidableEq

/-- What the access checks read. -/
structure Published (ν : Type*) [LinearOrder ν] where
  nodeResources : OrdMap ν ResourcePK := ∅
  beneath : OrdMap ν (List ResourcePK) := ∅
  enclosing : OrdMap ResourcePK ResourcePK := ∅
  typeNodes : List ν := []
  configured : OrdMap ν ResourcePK := ∅
  rootResourcePK : Option ResourcePK := none
  enabled : Bool := false
  deriving DecidableEq

structure NodeAccess where
  rights : ERights
  edits : ERights
  deriving DecidableEq

/-- The resources that govern a node, from the nearest up, and whether the walk came by it. -/
structure Governing where
  chain : List ResourcePK
  inTree : Bool
  deriving DecidableEq

variable {ν : Type*} [LinearOrder ν]

namespace Server

variable (server : Server ν)

/-- A row of this server's nodes. -/
def mine (r : Resource) : Bool := r.slug = "nodeIds" && r.schema = server.app

/-- The node a row names: Objects without a criteria, none when the criteria is no node id. -/
def place (r : Resource) : Option ν := if r.criteria = "" then some server.objects else server.decode r.criteria

def scanRow (x : Scan ν) (e : ResourcePK × Resource) : Scan ν :=
  if server.mine e.2 then
    match server.place e.2 with
    | some n =>
      { base := x.base.emplace n e.1
        enforcing := x.enforcing || !e.2.isDeleted
        rootEnforced := x.rootEnforced || (e.2.criteria = "" && !e.2.isDeleted) }
    | none => x
  else x

def scan (rows : OrdMap ResourcePK Resource) : Scan ν := rows.entries.foldl server.scanRow {}

/-- The walk is not made when nothing is enforced. -/
def publish (x : Scan ν) : Published ν :=
  let walk := if x.enforcing then server.descend x.base else {}
  { nodeResources := walk.nodeResources
    beneath := walk.beneath
    enclosing := walk.enclosing
    typeNodes := if x.rootEnforced then server.typeNodes.filter fun n => server.namespaceIndex n ≠ 0 else []
    configured := x.base
    rootResourcePK := if x.enforcing then x.base.find? server.objects else none
    enabled := x.enforcing }

def assignRights (rows : OrdMap ResourcePK Resource) : Published ν := server.publish (server.scan rows)

end Server

/-- The resource, and those around it up to one with none. -/
def Published.chain (p : Published ν) (pk : ResourcePK) : List ResourcePK :=
  ascend p.enclosing.find? (p.enclosing.keys.length + 1) pk

/-- None when the node is open. -/
def Published.governing (p : Published ν) (n : ν) : Option Governing :=
  if !p.enabled then none
  else
    match p.nodeResources.find? n with
    | some pk => some { chain := p.chain pk, inTree := true }
    | none => p.rootResourcePK.map fun root => { chain := [root], inTree := false }

/-- A user's rights under resources: all of them when none is enforced, and then no edits. -/
def rightsOn (s : Authorize) (chain : List ResourcePK) (u : UserPK) : NodeAccess :=
  if chain.any fun pk => (s.table.resources.find? pk).any fun r => !r.isDeleted then
    match s.users.find? u with
    | none => { rights := .none, edits := .none }
    | some user =>
      if user.isDeleted then { rights := .none, edits := .none }
      else
        let rights := (AllowedDisallowed.total (chain.map user.resourceRights)).effective
        { rights, edits := rights }
  else { rights := .all, edits := .none }

namespace Published

variable (p : Published ν) (s : Authorize) (u : UserPK) (n : ν)

def resolve : NodeAccess :=
  match p.governing n with
  | none => { rights := .all, edits := .none }
  | some governing => rightsOn s governing.chain u

def nodeRights : ERights := (p.resolve s u n).rights

/-- The rights hold Read. -/
def reads (rights : ERights) : Bool := rights &&& .read ≠ 0

/-- Read on the node, or on a resource configured below it; of the rest, namespace 0 and the type nodes. -/
def mayBrowse (namespaceIndex : ν → ℕ) : Bool :=
  match p.governing n with
  | none => true
  | some governing =>
    reads (rightsOn s governing.chain u).rights ||
      if governing.inTree then ((p.beneath.find? n).getD []).any fun pk => reads (rightsOn s (p.chain pk) u).rights
      else namespaceIndex n = 0 || n ∈ p.typeNodes

end Published

namespace Server

variable {server : Server ν} {rows : OrdMap ResourcePK Resource} {n : ν} {pk : ResourcePK}

theorem find?_scanRow (x : Scan ν) (e : ResourcePK × Resource) (n : ν) : (server.scanRow x e).base.find? n =
    if server.mine e.2 = true ∧ server.place e.2 = some n then some ((x.base.find? n).getD e.1) else x.base.find? n := by
  unfold scanRow
  cases server.mine e.2 with
  | false => simp
  | true =>
    cases server.place e.2 with
    | none => simp
    | some m =>
      simp only [if_true, find?_emplace, Option.some.injEq, true_and]
      split_ifs with hn hm hm
      · rw [hn]
      · exact absurd hn.symm hm
      · exact absurd hm.symm hn
      · rfl

theorem row_of_scan (h : (server.scan rows).base.find? n = some pk) :
    ∃ r, rows.find? pk = some r ∧ server.mine r = true ∧ server.place r = some n := by
  revert h
  refine List.foldlRecOn (motive := fun x : Scan ν => x.base.find? n = some pk →
    ∃ r, rows.find? pk = some r ∧ server.mine r = true ∧ server.place r = some n) rows.entries server.scanRow (by simp) ?_
  intro x hx e he h
  rw [find?_scanRow] at h
  split_ifs at h with hrow
  · cases hold : x.base.find? n with
    | some old => exact hx (by rwa [hold] at h ⊢)
    | none =>
      rw [hold] at h
      obtain rfl : e.1 = pk := Option.some.inj h
      exact ⟨e.2, mem_entries_iff.mp he, hrow⟩
  · exact hx h

theorem oneNode_scan : AddressSpace.OneNode (server.scan rows).base := by
  intro n n' pk h h'
  obtain ⟨r, hr, -, hplace⟩ := row_of_scan h
  obtain ⟨r', hr', -, hplace'⟩ := row_of_scan h'
  obtain rfl := Option.some.inj (hr.symm.trans hr')
  exact Option.some.inj (hplace.symm.trans hplace')

/-- The walk reaches a node. -/
def Walked (server : Server ν) (rows : OrdMap ResourcePK Resource) (n : ν) : Prop :=
  ∃ x ∈ server.items (server.scan rows).base, x.node = n

section Published

variable {x y : Item ν}

open Published

theorem chain_eq (h : (server.scan rows).enforcing = true) (pk : ResourcePK) :
    Ascent (server.descend (server.scan rows).base).enclosing.find? pk ((server.assignRights rows).chain pk) := by
  unfold assignRights publish chain
  simp only [h, if_true]
  exact (falls_enclosing oneNode_scan).ascend (fun k k' hk => OrdMap.mem_keys.mpr ⟨k', hk⟩) pk

/-- Going from a resource to the one around it ends, whatever refers to what. -/
theorem ascent_chain : Ascent (server.assignRights rows).enclosing.find? pk ((server.assignRights rows).chain pk) := by
  cases h : (server.scan rows).enforcing with
  | true =>
    have hchain := chain_eq h pk
    have henclosing : (server.assignRights rows).enclosing = (server.descend (server.scan rows).base).enclosing := by
      unfold assignRights publish
      simp only [h, if_true]
    rwa [← henclosing] at hchain
  | false =>
    have henclosing : (server.assignRights rows).enclosing = ∅ := by
      unfold assignRights publish
      simp [h]
    unfold chain
    rw [henclosing]
    exact .top (find?_empty pk)

/-- A node the walk came by is governed as it was walked to; with no resource on the way it is open. -/
theorem governing_item (h : (server.scan rows).enforcing = true) (hx : x ∈ server.items (server.scan rows).base) :
    (server.assignRights rows).governing x.node = (x.governing (server.scan rows).base).map fun pk =>
      { chain := (server.assignRights rows).chain pk, inTree := true } := by
  have henabled : (server.assignRights rows).enabled = true := h
  have hnode : (server.assignRights rows).nodeResources.find? x.node = x.governing (server.scan rows).base := by
    refine Option.ext fun pk => ?_
    have hwalk : (server.assignRights rows).nodeResources = (server.descend (server.scan rows).base).nodeResources := by
      unfold assignRights publish
      simp only [h, if_true]
    rw [hwalk, find?_nodeResources]
    constructor
    · rintro ⟨y, hy, hnode, hpk⟩
      rwa [item_unique hy hx hnode] at hpk
    · exact fun hpk => ⟨x, hx, rfl, hpk⟩
  unfold governing
  rw [henabled, hnode]
  cases hg : x.governing (server.scan rows).base with
  | some pk => rfl
  | none =>
    -- then Objects, on the way to every node, has none either
    have hroot : (server.assignRights rows).rootResourcePK = none := by
      have hobjects : server.objects = x.node ∨ server.objects ∈ x.path := by
        refine item_induction (P := fun x => server.objects = x.node ∨ server.objects ∈ x.path) (.inl rfl)
          (fun p x _ _ _ _ hpath hp => .inr ?_) hx
        rw [hpath, mem_append, mem_singleton]
        exact hp.symm
      unfold assignRights publish
      simp only [h, if_true]
      exact find?_of_governing_none hx hg hobjects
    simp [hroot]

/-- Who may read a node may browse what is on the walk's way to it. -/
theorem mayBrowse_path {s : Authorize} {u : UserPK} (hx : x ∈ server.items (server.scan rows).base)
    (hread : reads ((server.assignRights rows).nodeRights s u x.node) = true)
    (hy : y ∈ server.items (server.scan rows).base) (hway : y.node = x.node ∨ y.node ∈ x.path) :
    (server.assignRights rows).mayBrowse s u y.node server.namespaceIndex = true := by
  cases h : (server.scan rows).enforcing with
  | false =>
    have hopen : (server.assignRights rows).governing y.node = none := by
      have henabled : (server.assignRights rows).enabled = false := h
      unfold governing
      simp [henabled]
    simp only [mayBrowse, hopen]
  | true =>
    cases hg : y.governing (server.scan rows).base with
    | none => simp only [mayBrowse, governing_item h hy, hg, Option.map_none]
    | some q =>
      cases hgx : x.governing (server.scan rows).base with
      | none => exact absurd ((governing_none hx hgx y hy hway).symm.trans hg) (by simp)
      | some pk =>
        have hreads : reads (rightsOn s ((server.assignRights rows).chain pk) u).rights = true := by
          simpa only [nodeRights, resolve, governing_item h hx, hgx, Option.map_some] using hread
        simp only [mayBrowse, governing_item h hy, hg, Option.map_some, if_true, Bool.or_eq_true, any_eq_true]
        obtain ⟨z, hz, hown, -, hall⟩ := exists_governing hx hgx
        obtain habove | hsame := hall y hy hway
        · -- above the node the resource is configured on: it is among those beneath
          refine .inr ⟨pk, ?_, hreads⟩
          have hwalk : (server.assignRights rows).beneath = (server.descend (server.scan rows).base).beneath := by
            unfold assignRights publish
            simp only [h, if_true]
          rw [hwalk]
          exact mem_beneath.mpr ⟨z, hz, habove, hown⟩
        · obtain rfl := Option.some.inj (hg.symm.trans hsame)
          exact .inl hreads

/-- Who can read a node can browse to it: there are references down from Objects to it, all by nodes the user may
browse. The rows and users may have changed since the rights were assigned. -/
theorem browsable_of_readable (server : Server ν) (rows : OrdMap ResourcePK Resource) (s : Authorize) (u : UserPK) (n : ν)
    (hwalked : server.Walked rows n)
    (hread : Published.reads ((server.assignRights rows).nodeRights s u n) = true) :
    ∃ path : List ν, path.head? = some server.objects ∧ path.getLast? = some n ∧
      path.IsChain (fun a b => b ∈ server.references a) ∧
        ∀ m ∈ path, (server.assignRights rows).mayBrowse s u m server.namespaceIndex = true := by
  obtain ⟨x, hx, rfl⟩ := hwalked
  obtain ⟨hhead, hchain⟩ := AddressSpace.isChain_path hx
  refine ⟨x.path ++ [x.node], hhead, by simp, hchain, fun m hm => ?_⟩
  obtain hm | hm := mem_append.mp hm
  · obtain ⟨y, hy, rfl, -⟩ := AddressSpace.exists_item_of_mem_path hx hm
    exact mayBrowse_path hx hread hy (.inr hm)
  · obtain rfl := mem_singleton.mp hm
    exact mayBrowse_path hx hread hx (.inl rfl)

end Published

/-- Objects, 85, with a folder 1 in it and a variable 2 in the folder. -/
def folder : Server ℕ where
  objects := 85
  nodeClass n := if n = 2 then .variable else .object
  references n := if n = 85 then [1] else if n = 1 then [2] else []
  nodes := [85, 1, 2]
  objects_mem := by decide
  references_mem n c hc := by
    split_ifs at hc
    · simp_all
    · simp_all
    · cases hc
  objects_class := rfl
  app := "opc"
  decode criteria := if criteria = "i=1" then some 1 else if criteria = "i=2" then some 2 else none
  namespaceIndex _ := 1
  typeNodes := []

/-- Resource 5 on Objects and 6 on the folder, both enforced. -/
def folderRows : OrdMap ResourcePK Resource :=
  ((∅ : OrdMap ResourcePK Resource).insert 5 { schema := "opc", slug := "nodeIds" }).insert 6
    { schema := "opc", slug := "nodeIds", criteria := "i=1" }

/-- User 1 may read under resource 6 alone. -/
def granted : Authorize where
  users := (∅ : OrdMap UserPK User).insert 1
    { rights := (∅ : OrdMap ResourcePK AllowedDisallowed).insert 6 { allowed := .read } }
  table := { resources := folderRows }

/-- The user cannot read Objects, and can browse it down to the variable it reads. -/
theorem granted_browsable :
    Published.reads ((folder.assignRights granted.table.resources).nodeRights granted 1 85) = false ∧
      ∃ path : List ℕ, path.head? = some 85 ∧ path.getLast? = some 2 ∧
        path.IsChain (fun a b => b ∈ folder.references a) ∧
          ∀ m ∈ path, (folder.assignRights granted.table.resources).mayBrowse granted 1 m folder.namespaceIndex = true :=
  ⟨by decide +kernel,
    browsable_of_readable folder granted.table.resources granted 1 2 (by unfold Walked; decide +kernel) (by decide +kernel)⟩

section Tree

/-- A node refers to another, directly or through others, or is it. -/
def Above (server : Server ν) : ν → ν → Prop := Relation.ReflTransGen fun a b => b ∈ server.references a

/-- Each node has one parent; that of Objects is not below it. -/
structure Tree (server : Server ν) : Prop where
  parent : ∀ a b c, c ∈ server.references a → c ∈ server.references b → a = b
  objects : ∀ a, server.objects ∈ server.references a → ¬ server.Above server.objects a

/-- Each row of the server's nodes names another node. -/
def Apart (server : Server ν) (rows : OrdMap ResourcePK Resource) : Prop :=
  ∀ pk pk' r r' n, rows.find? pk = some r → rows.find? pk' = some r' → server.mine r = true → server.mine r' = true →
    server.place r = some n → server.place r' = some n → pk = pk'

/-- The resources configured on a node and on what is above it, up to Objects. -/
def Over (server : Server ν) (rows : OrdMap ResourcePK Resource) (n : ν) : Set ResourcePK :=
  { pk | ∃ r m, rows.find? pk = some r ∧ server.mine r = true ∧ server.place r = some m ∧
    server.Above server.objects m ∧ server.Above m n }

/-- In a tree what is above a node, up to Objects, is what the walk came by on the way to it. -/
theorem Tree.above_iff (h : server.Tree) {base : OrdMap ν ResourcePK} {x : Item ν} (hx : x ∈ server.items base) {m : ν} :
    server.Above server.objects m ∧ server.Above m x.node ↔ m = x.node ∨ m ∈ x.path := by
  refine item_induction (P := fun x => ∀ m, server.Above server.objects m ∧ server.Above m x.node ↔
    m = x.node ∨ m ∈ x.path) ?_ ?_ hx m
  · intro m
    constructor
    · rintro ⟨hbelow, habove⟩
      obtain heq | ⟨c, habove, hc⟩ := Relation.ReflTransGen.cases_tail habove
      · exact .inl heq.symm
      · exact absurd (hbelow.trans habove) (h.objects c hc)
    · rintro (rfl | hm)
      · exact ⟨.refl, .refl⟩
      · cases hm
  · intro p x _ _ href _ hpath ih m
    rw [hpath]
    constructor
    · rintro ⟨hbelow, habove⟩
      obtain heq | ⟨c, habove, hc⟩ := Relation.ReflTransGen.cases_tail habove
      · exact .inl heq.symm
      · obtain rfl := h.parent c p.node x.node hc href
        exact .inr (by simpa [or_comm] using (ih m).mp ⟨hbelow, habove⟩)
    · rintro (rfl | hm)
      · exact ⟨((ih p.node).mpr (.inl rfl)).1.tail href, .refl⟩
      · obtain ⟨hbelow, habove⟩ := (ih m).mpr (by simpa [or_comm] using hm)
        exact ⟨hbelow, habove.tail href⟩

theorem scan_of_row {r : Resource} (hr : rows.find? pk = some r) (hmine : server.mine r = true)
    (hplace : server.place r = some n) :
    (∃ pk', (server.scan rows).base.find? n = some pk') ∧ (r.isDeleted = false → (server.scan rows).enforcing = true) := by
  obtain ⟨before, after, hrows⟩ := append_of_mem (mem_entries_iff.mpr hr)
  rw [scan, hrows, foldl_append, foldl_cons]
  -- the row's own turn makes it so, and no later row's undoes it
  refine List.foldlRecOn (motive := fun x : Scan ν => (∃ pk', x.base.find? n = some pk') ∧
    (r.isDeleted = false → x.enforcing = true)) after server.scanRow ⟨?_, fun hlive => ?_⟩ ?_
  · rw [find?_scanRow, if_pos ⟨hmine, hplace⟩]
    exact ⟨_, rfl⟩
  · simp [scanRow, hmine, hplace, hlive]
  · rintro x ⟨⟨pk', hpk'⟩, henforcing⟩ e -
    refine ⟨?_, fun hlive => ?_⟩
    · rw [find?_scanRow, hpk']
      split_ifs <;> exact ⟨_, rfl⟩
    · unfold scanRow
      cases server.place e.2 <;> split_ifs <;> simp [henforcing hlive]

theorem mem_over (htree : server.Tree) (hapart : server.Apart rows) {x : Item ν}
    (hx : x ∈ server.items (server.scan rows).base) :
    pk ∈ server.Over rows x.node ↔
      ∃ m, (m = x.node ∨ m ∈ x.path) ∧ (server.scan rows).base.find? m = some pk := by
  constructor
  · rintro ⟨r, m, hr, hmine, hplace, habove⟩
    refine ⟨m, (htree.above_iff hx).mp habove, ?_⟩
    obtain ⟨pk', hpk'⟩ := (scan_of_row hr hmine hplace).1
    obtain ⟨r', hr', hmine', hplace'⟩ := row_of_scan hpk'
    rw [hpk', hapart pk' pk r' r m hr' hr hmine' hmine hplace' hplace]
  · rintro ⟨m, hm, hpk⟩
    obtain ⟨r, hr, hmine, hplace⟩ := row_of_scan hpk
    exact ⟨r, m, hr, hmine, hplace, (htree.above_iff hx).mpr hm⟩

/-- A user's rights under a set of resources: everything while none is enforced; then nothing for a user unknown or
deleted, and for another what any of them allows less what any denies. -/
structure RightsUnder (s : Authorize) (above : Set ResourcePK) (u : UserPK) (rights : ERights) : Prop where
  unenforced : (∀ pk ∈ above, ∀ r, s.table.resources.find? pk = some r → r.isDeleted = true) → rights = .all
  refused : (∃ pk ∈ above, ∃ r, s.table.resources.find? pk = some r ∧ r.isDeleted = false) →
    (∀ user, s.users.find? u = some user → user.isDeleted = true) → rights = .none
  granted : (∃ pk ∈ above, ∃ r, s.table.resources.find? pk = some r ∧ r.isDeleted = false) →
    ∀ user, s.users.find? u = some user → user.isDeleted = false →
      ∃ masks : AllowedDisallowed, rights = masks.effective ∧
        ∀ denied i, masks.bit denied i = true ↔ ∃ pk ∈ above, (user.resourceRights pk).bit denied i = true

theorem rightsUnder_rightsOn {s : Authorize} {above : Set ResourcePK} {chain : List ResourcePK} (u : UserPK)
    (h : ∀ pk, pk ∈ chain ↔ pk ∈ above) : RightsUnder s above u (rightsOn s chain u).rights := by
  have henforced : (chain.any fun pk => (s.table.resources.find? pk).any fun r => !r.isDeleted) = true ↔
      ∃ pk ∈ above, ∃ r, s.table.resources.find? pk = some r ∧ r.isDeleted = false := by
    simp only [any_eq_true, Option.any_eq_true, Bool.not_eq_true', h]
  unfold rightsOn
  refine ⟨fun hnone => ?_, fun hsome huser => ?_, fun hsome user hfind hlive => ?_⟩
  · rw [if_neg fun hany => ?_]
    obtain ⟨pk, hpk, r, hr, hlive⟩ := henforced.mp hany
    exact absurd ((hnone pk hpk r hr).symm.trans hlive) (by simp)
  · rw [if_pos (henforced.mpr hsome)]
    cases hfind : s.users.find? u with
    | none => rfl
    | some user => simp [huser user hfind]
  · rw [if_pos (henforced.mpr hsome)]
    refine ⟨.total (chain.map user.resourceRights), by simp [hfind, hlive], fun denied i => ?_⟩
    rw [AllowedDisallowed.bit_total]
    simp only [mem_map]
    constructor
    · rintro ⟨_, ⟨pk, hpk, rfl⟩, hbit⟩
      exact ⟨pk, (h pk).mp hpk, hbit⟩
    · rintro ⟨pk, hpk, hbit⟩
      exact ⟨_, ⟨pk, (h pk).mpr hpk, rfl⟩, hbit⟩

/-- Going up from a resource always ends. In a tree whose rows name different nodes, a node's rights are those of
every resource configured on it or above it up to Objects. -/
theorem rightsUnder_nodeRights (server : Server ν) (s : Authorize) :
    (∀ pk, Ascent (server.assignRights s.table.resources).enclosing.find? pk
        ((server.assignRights s.table.resources).chain pk)) ∧
      (server.Tree → server.Apart s.table.resources → ∀ n, server.Walked s.table.resources n → ∀ u,
        RightsUnder s (server.Over s.table.resources n) u
          ((server.assignRights s.table.resources).nodeRights s u n)) := by
  refine ⟨fun pk => ascent_chain, fun htree hapart n hwalked u => ?_⟩
  obtain ⟨x, hx, rfl⟩ := hwalked
  have hopen : ∀ {rights : ERights}, rights = .all →
      (∀ pk ∈ server.Over s.table.resources x.node, ∀ r, s.table.resources.find? pk = some r → r.isDeleted = true) →
      RightsUnder s (server.Over s.table.resources x.node) u rights := by
    intro rights hall hnone
    refine ⟨fun _ => hall, fun ⟨pk, hpk, r, hr, hlive⟩ => ?_, fun ⟨pk, hpk, r, hr, hlive⟩ => ?_⟩
    · exact absurd ((hnone pk hpk r hr).symm.trans hlive) (by simp)
    · exact absurd ((hnone pk hpk r hr).symm.trans hlive) (by simp)
  cases h : (server.scan s.table.resources).enforcing with
  | false =>
    have henabled : (server.assignRights s.table.resources).enabled = false := h
    refine hopen (by simp [Published.nodeRights, Published.resolve, Published.governing, henabled]) ?_
    rintro pk ⟨r, m, hr, hmine, hplace, -⟩ r' hr'
    obtain rfl := Option.some.inj (hr.symm.trans hr')
    cases hdeleted : r.isDeleted with
    | true => rfl
    | false => exact absurd (h.symm.trans ((scan_of_row hr hmine hplace).2 hdeleted)) (by simp)
  | true =>
    unfold Published.nodeRights Published.resolve
    rw [governing_item h hx]
    cases hg : x.governing (server.scan s.table.resources).base with
    | none =>
      refine hopen rfl fun pk hpk => ?_
      obtain ⟨m, hm, hbase⟩ := (mem_over htree hapart hx).mp hpk
      rw [AddressSpace.find?_of_governing_none hx hg hm] at hbase
      cases hbase
    | some pk =>
      refine rightsUnder_rightsOn u fun q => ?_
      rw [AddressSpace.mem_ascent oneNode_scan hx hg (chain_eq h pk), mem_over htree hapart hx]

/-- The folder's server with Root, 84, above Objects. -/
def rooted : Server ℕ where
  objects := 85
  nodeClass n := if n = 2 then .variable else .object
  references n := if n = 84 then [85] else if n = 85 then [1] else if n = 1 then [2] else []
  nodes := [84, 85, 1, 2]
  objects_mem := by decide
  references_mem n c hc := by
    split_ifs at hc
    · simp_all
    · simp_all
    · simp_all
    · cases hc
  objects_class := rfl
  app := "opc"
  decode criteria := if criteria = "i=84" then some 84 else if criteria = "i=1" then some 1 else none
  namespaceIndex _ := 1
  typeNodes := []

theorem tree_rooted : rooted.Tree where
  parent a b c ha hb := by
    simp only [rooted] at ha hb
    split_ifs at ha hb <;> simp_all
  objects a ha habove := by
    -- Objects is Root's alone, and nothing refers to Root
    obtain rfl : a = 84 := by
      simp only [rooted] at ha
      split_ifs at ha <;> simp_all
    obtain heq | ⟨c, -, hc⟩ := Relation.ReflTransGen.cases_tail habove
    · exact absurd heq (by decide)
    · simp only [rooted] at hc
      split_ifs at hc <;> simp_all

theorem apart_granted : rooted.Apart granted.table.resources := by
  have hplaces : ∀ e ∈ granted.table.resources.entries, ∀ e' ∈ granted.table.resources.entries,
      rooted.place e.2 = rooted.place e'.2 → e.1 = e'.1 := by decide +kernel
  intro pk pk' r r' n hr hr' _ _ hplace hplace'
  exact hplaces (pk, r) (mem_entries_iff.mpr hr) (pk', r') (mem_entries_iff.mpr hr')
    (hplace.trans hplace'.symm)

/-- The variable's rights are those of the two resources above it. -/
theorem granted_rightsUnder : RightsUnder granted (rooted.Over granted.table.resources 2) 1
        ((rooted.assignRights granted.table.resources).nodeRights granted 1 2) ∧
      (rooted.assignRights granted.table.resources).nodeRights granted 1 2 = .read :=
  ⟨(rightsUnder_nodeRights rooted granted).2 tree_rooted apart_granted 2 (by unfold Walked; decide +kernel) 1,
    by decide +kernel⟩

/-- Resource 7 on Root, enforced. -/
def rootRow : Authorize where
  table := .load ((∅ : OrdMap ResourcePK Resource).insert 7 { schema := "opc", slug := "nodeIds", criteria := "i=84" })

/-- Root is above the variable and its resource is enforced, yet a user unknown has every right on the variable. -/
theorem rootRow_open : rooted.Tree ∧ rooted.Walked rootRow.table.resources 2 ∧ rooted.Above 84 2 ∧
    (∃ r, rootRow.table.resources.find? 7 = some r ∧ rooted.mine r = true ∧ rooted.place r = some 84 ∧
      r.isDeleted = false) ∧ rootRow.users.find? 1 = none ∧
    (rooted.assignRights rootRow.table.resources).nodeRights rootRow 1 2 = .all := by
  refine ⟨tree_rooted, by unfold Walked; decide +kernel, ?_, ⟨{ schema := "opc", slug := "nodeIds", criteria := "i=84" }, by decide +kernel, by decide, by decide, rfl⟩,
    rfl, by decide +kernel⟩
  have hobjects : rooted.Above 84 85 := .single (by decide)
  exact (hobjects.tail (show 1 ∈ rooted.references 85 by decide)).tail (by decide)

end Tree

end Server

end OpcHub.Nodes
