import Mathlib.Data.List.Chain
import OpcHub.Access.Rights
import OpcHub.Lib.Ascent
import OpcHub.Lib.Descent

/-! The walk of a server's nodes that finds which resource governs each. A
resource may be configured on a node; a node without one is governed by what
governs the node it is walked from. The walk goes down from the Objects folder by
hierarchical references and comes by each node once, so where a node is shared, or
a reference leads back, one way to it counts. It notes the resource of each node,
the resource around each resource, and the resources below each node. -/

namespace OpcHub.Nodes

open OpcHub.Lib OpcHub.Access List OrdMap Nesting

inductive NodeClass
  | object
  | variable
  | method
  | objectType
  | variableType
  | referenceType
  | dataType
  | view
  deriving DecidableEq

/-- The walk goes on below these. -/
def NodeClass.descended : NodeClass → Bool
  | .object | .variable | .method => true
  | _ => false

/-- The nodes of a server. Browsing a node gives the nodes it refers to forward by a hierarchical reference, none
when the browse fails. -/
structure AddressSpace (ν : Type*) where
  objects : ν
  nodeClass : ν → NodeClass
  references : ν → List ν
  nodes : List ν
  objects_mem : objects ∈ nodes
  references_mem : ∀ n, ∀ c ∈ references n, c ∈ nodes
  objects_class : nodeClass objects = .object

/-- A node as it is walked to: what governs the node before it, and the nodes on the way. -/
structure Item (ν : Type*) where
  node : ν
  outer : Option ResourcePK
  path : List ν
  deriving DecidableEq

structure Walk (ν : Type*) [LinearOrder ν] where
  nodeResources : OrdMap ν ResourcePK := ∅
  beneath : OrdMap ν (List ResourcePK) := ∅
  enclosing : OrdMap ResourcePK ResourcePK := ∅
  deriving DecidableEq

variable {ν : Type*} [LinearOrder ν]

/-- A node's own resource, else what governs the one before it. -/
def Item.governing (base : OrdMap ν ResourcePK) (x : Item ν) : Option ResourcePK := (base.find? x.node).or x.outer

/-- What is noted of a node. -/
def Walk.take (base : OrdMap ν ResourcePK) (x : Item ν) (w : Walk ν) : Walk ν where
  nodeResources := (x.governing base).elim w.nodeResources (w.nodeResources.insert x.node)
  beneath := (base.find? x.node).elim w.beneath fun pk =>
    x.path.foldl (fun m ancestor => (m.emplace ancestor []).modify ancestor (· ++ [pk])) w.beneath
  enclosing :=
    match base.find? x.node, x.outer with
    | some pk, some outer => if outer = pk then w.enclosing else w.enclosing.emplace pk outer
    | _, _ => w.enclosing

namespace AddressSpace

variable (space : AddressSpace ν) (base : OrdMap ν ResourcePK)

/-- Each node opens what is below it; what is opened once is not walked again. -/
def below : Nesting ν (Item ν) where
  opens x := some x.node
  inside x :=
    if (space.nodeClass x.node).descended then
      (space.references x.node).map fun c => { node := c, outer := x.governing base, path := x.path ++ [x.node] }
    else []

def root : Item ν := { node := space.objects, outer := none, path := [] }

def descend : Walk ν := ((space.below base).walk (Walk.take base) (space.nodes.length + 1) ([], {}) space.root).2

/-- The nodes as the walk comes by them. -/
def items : List (Item ν) := ((space.below base).trace (space.nodes.length + 1) [] space.root).2

variable {space base} {x y : Item ν}

theorem descend_eq : space.descend base = (space.items base).foldl (fun w x => w.take base x) {} := by
  rw [descend, walk_eq]
  rfl

theorem nodup_items : ((space.items base).map Item.node).Nodup := by
  have hnodup : ((space.below base).trace (space.nodes.length + 1) [] space.root).1.Nodup := nodup_trace .nil
  rw [trace_fst, append_nil, nodup_reverse] at hnodup
  rwa [show (space.below base).opens = fun x => some x.node from rfl, filterMap_eq_map'] at hnodup

theorem item_unique (hx : x ∈ space.items base) (hy : y ∈ space.items base) (h : x.node = y.node) : x = y :=
  inj_on_of_nodup_map nodup_items hx hy h

theorem root_mem : space.root ∈ space.items base := by
  exact mem_cons_self

theorem item_cases (hx : x ∈ space.items base) :
    x = space.root ∨ ∃ p ∈ space.items base, x.node ∈ space.references p.node ∧ x.outer = p.governing base ∧
      x.path = p.path ++ [p.node] := by
  obtain heq | ⟨p, -, hp, hstep⟩ := Relation.ReflTransGen.cases_tail (descends_trace hx)
  · exact .inl heq
  · refine .inr ⟨p, hp, ?_⟩
    obtain ⟨-, hmem⟩ := hstep
    simp only [below] at hmem
    split_ifs at hmem
    · obtain ⟨c, hc, rfl⟩ := mem_map.mp hmem
      exact ⟨hc, rfl, rfl⟩
    · cases hmem

/-- What holds of the root, and of an item when of the one before it, holds of all. -/
theorem item_induction {P : Item ν → Prop} (hroot : P space.root)
    (hstep : ∀ p x, p ∈ space.items base → x ∈ space.items base → x.node ∈ space.references p.node →
      x.outer = p.governing base → x.path = p.path ++ [p.node] → P p → P x) (hx : x ∈ space.items base) : P x := by
  induction hn : x.path.length generalizing x with
  | zero =>
    obtain rfl | ⟨p, -, -, -, hpath⟩ := item_cases hx
    · exact hroot
    · simp [hpath] at hn
  | succ n ih =>
    obtain rfl | ⟨p, hp, href, houter, hpath⟩ := item_cases hx
    · exact hroot
    · exact hstep p x hp hx href houter hpath (ih hp (by simpa [hpath] using hn))

/-- The nodes on the way to an item are items, walked to by what is before them on it. -/
theorem exists_item_of_mem_path (hx : x ∈ space.items base) {m : ν} (hm : m ∈ x.path) :
    ∃ y ∈ space.items base, y.node = m ∧ ∃ rest, x.path = y.path ++ m :: rest := by
  refine item_induction (P := fun x => ∀ m ∈ x.path, ∃ y ∈ space.items base, y.node = m ∧ ∃ rest, x.path = y.path ++ m :: rest)
    nofun (fun p x hp _ _ _ hpath ih m hm => ?_) hx m hm
  rw [hpath] at hm ⊢
  obtain hm | hm := mem_append.mp hm
  · obtain ⟨y, hy, hnode, rest, hrest⟩ := ih m hm
    exact ⟨y, hy, hnode, rest ++ [p.node], by rw [hrest, append_assoc]; rfl⟩
  · obtain rfl := mem_singleton.mp hm
    exact ⟨p, hp, rfl, [], rfl⟩

/-- The nodes on the way to an item and its own are a path of references from Objects. -/
theorem isChain_path (hx : x ∈ space.items base) : (x.path ++ [x.node]).head? = some space.objects ∧
      (x.path ++ [x.node]).IsChain fun a b => b ∈ space.references a := by
  refine item_induction (P := fun x => (x.path ++ [x.node]).head? = some space.objects ∧
    (x.path ++ [x.node]).IsChain fun a b => b ∈ space.references a) ⟨rfl, isChain_singleton _⟩ ?_ hx
  intro p x _ _ href _ hpath ih
  rw [hpath]
  refine ⟨?_, isChain_append.mpr ⟨ih.2, isChain_singleton _, ?_⟩⟩
  · rw [head?_append, ih.1]
    rfl
  · intro a ha b hb
    obtain rfl : p.node = a := by simpa using ha
    obtain rfl : x.node = b := by simpa using hb
    exact href

section Maps

variable {n m : ν} {pk outer : ResourcePK}

theorem find?_nodeResources : (space.descend base).nodeResources.find? n = some pk ↔
      ∃ x ∈ space.items base, x.node = n ∧ x.governing base = some pk := by
  have hother : ∀ x : Item ν, x.node ≠ n → ∀ w : Walk ν,
      (w.take base x).nodeResources.find? n = w.nodeResources.find? n := by
    intro x hx w
    unfold Walk.take
    cases x.governing base with
    | none => rfl
    | some pk' => exact find?_insert_of_ne _ _ (Ne.symm hx)
  rw [descend_eq]
  by_cases hat : ∃ x ∈ space.items base, x.node = n
  · obtain ⟨x, hx, rfl⟩ := hat
    have hsame : ∀ y ∈ space.items base, y.node = x.node → y = x := fun y hy => inj_on_of_nodup_map nodup_items hy hx
    obtain ⟨w, hw, hfold⟩ := foldl_view_of_mem (f := fun w y => Walk.take base y w)
      (fun w => w.nodeResources.find? x.node) hx (.of_map _ nodup_items)
      (fun y hy hne => hother y fun heq => hne (hsame y hy heq)) {}
    have hthere : (∃ y ∈ space.items base, y.node = x.node ∧ y.governing base = some pk) ↔ x.governing base = some pk :=
      ⟨fun ⟨y, hy, heq, hg⟩ => hsame y hy heq ▸ hg, fun hg => ⟨x, hx, rfl, hg⟩⟩
    rw [hfold, hthere]
    cases hg : x.governing base with
    | none => simp [Walk.take, hg, hw]
    | some pk' => simp [Walk.take, hg]
  · have hnone := foldl_view (f := fun w y => Walk.take base y w) (fun w => w.nodeResources.find? n)
      (fun x hx => hother x fun heq => hat ⟨x, hx, heq⟩) {}
    rw [hnone, find?_empty]
    exact iff_of_false nofun fun ⟨x, hx, heq, _⟩ => hat ⟨x, hx, heq⟩

/-- No two nodes have one resource. -/
def OneNode (base : OrdMap ν ResourcePK) : Prop :=
  ∀ n n' pk, base.find? n = some pk → base.find? n' = some pk → n = n'

theorem find?_enclosing (hbase : OneNode base) : (space.descend base).enclosing.find? pk = some outer ↔
      ∃ x ∈ space.items base, base.find? x.node = some pk ∧ x.outer = some outer ∧ outer ≠ pk := by
  have hother : ∀ x : Item ν, base.find? x.node ≠ some pk → ∀ w : Walk ν,
      (w.take base x).enclosing.find? pk = w.enclosing.find? pk := by
    intro x hx w
    unfold Walk.take
    split
    · rename_i own out hown _
      have hne : pk ≠ own := by
        rintro rfl
        exact hx hown
      split_ifs
      · rfl
      · rw [find?_emplace, if_neg hne]
    · rfl
  rw [descend_eq]
  by_cases hat : ∃ x ∈ space.items base, base.find? x.node = some pk
  · -- the resource is configured on this node alone
    obtain ⟨x, hx, hown⟩ := hat
    have hsame : ∀ y ∈ space.items base, base.find? y.node = some pk → y = x := fun y hy heq =>
      inj_on_of_nodup_map nodup_items hy hx (hbase _ _ pk heq hown)
    obtain ⟨w, hw, hfold⟩ := foldl_view_of_mem (f := fun w y => Walk.take base y w) (fun w => w.enclosing.find? pk) hx
      (.of_map _ nodup_items) (fun y hy hne => hother y fun heq => hne (hsame y hy heq)) {}
    have hthere : (∃ y ∈ space.items base, base.find? y.node = some pk ∧ y.outer = some outer ∧ outer ≠ pk) ↔
        x.outer = some outer ∧ outer ≠ pk :=
      ⟨fun ⟨y, hy, heq, hout⟩ => hsame y hy heq ▸ hout, fun hout => ⟨x, hx, hown, hout⟩⟩
    rw [find?_empty] at hw
    rw [hfold, hthere]
    cases hout : x.outer with
    | none => simp [Walk.take, hown, hout, hw]
    | some out =>
      simp only [Walk.take, hown, hout]
      split_ifs with heq
      · simp [hw, heq, eq_comm]
      · rw [find?_emplace, if_pos rfl, hw]
        grind
  · have hnone := foldl_view (f := fun w y => Walk.take base y w) (fun w => w.enclosing.find? pk)
      (fun x hx => hother x fun heq => hat ⟨x, hx, heq⟩) {}
    rw [hnone, find?_empty]
    exact iff_of_false nofun fun ⟨x, hx, heq, _⟩ => hat ⟨x, hx, heq⟩

theorem mem_beneath : pk ∈ ((space.descend base).beneath.find? m).getD [] ↔
      ∃ x ∈ space.items base, m ∈ x.path ∧ base.find? x.node = some pk := by
  have hpath : ∀ (path : List ν) (own : ResourcePK) (b : OrdMap ν (List ResourcePK)),
      pk ∈ ((path.foldl (fun b ancestor => (b.emplace ancestor []).modify ancestor (· ++ [own])) b).find? m).getD [] ↔
        (m ∈ path ∧ pk = own) ∨ pk ∈ (b.find? m).getD [] := by
    intro path own
    induction path with
    | nil => simp
    | cons a path ih =>
      intro b
      rw [foldl_cons, ih, find?_modify, find?_emplace]
      by_cases hm : m = a
      · subst hm
        simp only [if_true, Option.map_some, Option.getD_some, mem_append, mem_cons, true_or, true_and]
        tauto
      · simp [hm]
  have hlist : ∀ (l : List (Item ν)) (w : Walk ν),
      pk ∈ ((l.foldl (fun w x => w.take base x) w).beneath.find? m).getD [] ↔
        (∃ x ∈ l, m ∈ x.path ∧ base.find? x.node = some pk) ∨ pk ∈ (w.beneath.find? m).getD [] := by
    intro l
    induction l with
    | nil => simp
    | cons x l ih =>
      intro w
      rw [foldl_cons, ih]
      simp only [exists_mem_cons_iff, Walk.take]
      cases hown : base.find? x.node with
      | none => simp
      | some own =>
        simp only [Option.elim_some, hpath, Option.some.injEq, eq_comm (a := own)]
        rw [or_left_comm, or_assoc]
  rw [descend_eq, hlist]
  simp

end Maps

section Governing

variable {n m : ν} {pk outer q : ResourcePK}

/-- What governs an item is configured on it or on a node before it, and governs all from there on. -/
theorem exists_governing (hx : x ∈ space.items base) (h : x.governing base = some pk) :
    ∃ y ∈ space.items base, base.find? y.node = some pk ∧ y.path.length ≤ x.path.length ∧
      ∀ z ∈ space.items base, z.node = x.node ∨ z.node ∈ x.path → z.node ∈ y.path ∨ z.governing base = some pk := by
  refine item_induction (P := fun x => ∀ pk, x.governing base = some pk → ∃ y ∈ space.items base,
    base.find? y.node = some pk ∧ y.path.length ≤ x.path.length ∧ ∀ z ∈ space.items base,
      z.node = x.node ∨ z.node ∈ x.path → z.node ∈ y.path ∨ z.governing base = some pk) ?_ ?_ hx pk h
  · intro pk h
    have hown : base.find? space.root.node = some pk := by simpa [Item.governing, root] using h
    refine ⟨space.root, root_mem, hown, Nat.le_refl _, fun z hz hor => .inr ?_⟩
    obtain heq | hmem := hor
    · rw [item_unique hz root_mem heq, h]
    · cases hmem
  · intro p x hp hx _ houter hpath ih pk h
    have hself : ∀ z ∈ space.items base, z.node = x.node → z.governing base = some pk := fun z hz heq => by
      rw [item_unique hz hx heq, h]
    cases hown : base.find? x.node with
    | some own =>
      obtain rfl : own = pk := by simpa [Item.governing, hown] using h
      exact ⟨x, hx, hown, Nat.le_refl _, fun z hz hor => hor.elim (fun heq => .inr (hself z hz heq)) .inl⟩
    | none =>
      have hbefore : p.governing base = some pk := by simpa [Item.governing, hown, houter] using h
      obtain ⟨y, hy, hpk, hlength, hall⟩ := ih pk hbefore
      refine ⟨y, hy, hpk, by rw [hpath, length_append]; exact Nat.le_add_right_of_le hlength, fun z hz hor => ?_⟩
      obtain heq | hmem := hor
      · exact .inr (hself z hz heq)
      · rw [hpath, mem_append, mem_singleton, or_comm] at hmem
        exact hall z hz hmem

/-- Where nothing governs an item, nothing governs what is on the way to it. -/
theorem governing_none (hx : x ∈ space.items base) (h : x.governing base = none) :
    ∀ z ∈ space.items base, z.node = x.node ∨ z.node ∈ x.path → z.governing base = none := by
  refine item_induction (P := fun x => x.governing base = none → ∀ z ∈ space.items base,
    z.node = x.node ∨ z.node ∈ x.path → z.governing base = none) ?_ ?_ hx h
  · rintro h z hz (heq | hm)
    · rwa [item_unique hz root_mem heq]
    · cases hm
  · intro p x _ hx _ houter hpath ih h z hz hor
    obtain heq | hmem := hor
    · rwa [item_unique hz hx heq]
    · rw [hpath, mem_append, mem_singleton, or_comm] at hmem
      exact ih (houter ▸ (Option.or_eq_none_iff.mp h).2) z hz hmem

theorem find?_of_governing_none (hx : x ∈ space.items base) (h : x.governing base = none) (hm : m = x.node ∨ m ∈ x.path) :
    base.find? m = none := by
  obtain rfl | hm := hm
  · exact (Option.or_eq_none_iff.mp h).1
  · obtain ⟨y, hy, rfl, -⟩ := exists_item_of_mem_path hx hm
    exact (Option.or_eq_none_iff.mp (governing_none hx h y hy (.inr hm))).1

/-- How far down the walk comes by the node a resource is configured on. -/
def depth (space : AddressSpace ν) (base : OrdMap ν ResourcePK) (pk : ResourcePK) : ℕ :=
  (((space.items base).find? fun x => base.find? x.node = some pk).map fun x => x.path.length).getD 0

theorem depth_eq (hbase : OneNode base) (hx : x ∈ space.items base) (h : base.find? x.node = some pk) :
    space.depth base pk = x.path.length := by
  unfold depth
  cases hfind : (space.items base).find? fun x => base.find? x.node = some pk with
  | none => exact absurd (find?_eq_none.mp hfind x hx) (by simpa using h)
  | some y =>
    have hy : base.find? y.node = some pk := by simpa using find?_some hfind
    rw [item_unique (mem_of_find?_eq_some hfind) hx (hbase _ _ pk hy h)]
    rfl

/-- The resource around another is less deep, so going from one to the next ends. -/
theorem falls_enclosing (hbase : OneNode base) : Falls (space.descend base).enclosing.find? (space.depth base) := by
  intro pk outer h
  obtain ⟨x, hx, hown, houter, -⟩ := (find?_enclosing hbase).mp h
  obtain rfl | ⟨p, hp, -, hbefore, hpath⟩ := item_cases hx
  · cases houter
  · obtain ⟨y, hy, hy', hlength, -⟩ := exists_governing hp (hbefore.symm.trans houter)
    rw [depth_eq hbase hx hown, depth_eq hbase hy hy', hpath, length_append]
    exact Nat.lt_succ_of_le hlength

/-- From the resource that governs an item up: those of the nodes on the way to it, and its own. -/
theorem mem_ascent (hbase : OneNode base) (hx : x ∈ space.items base) (h : x.governing base = some pk)
    {l : List ResourcePK} (hl : Ascent (space.descend base).enclosing.find? pk l) :
    q ∈ l ↔ ∃ m, (m = x.node ∨ m ∈ x.path) ∧ base.find? m = some q := by
  refine item_induction (P := fun x => ∀ pk l, x.governing base = some pk →
    Ascent (space.descend base).enclosing.find? pk l →
      (q ∈ l ↔ ∃ m, (m = x.node ∨ m ∈ x.path) ∧ base.find? m = some q)) ?_ ?_ hx pk l h hl
  · intro pk l h hl
    have hown : base.find? space.root.node = some pk := by simpa [Item.governing, root] using h
    have htop : (space.descend base).enclosing.find? pk = none := by
      refine Option.eq_none_iff_forall_ne_some.mpr fun outer hout => ?_
      obtain ⟨y, hy, hy', houter, -⟩ := (find?_enclosing hbase).mp hout
      rw [item_unique hy root_mem (hbase _ _ pk hy' hown)] at houter
      cases houter
    cases hl with
    | step hup _ => exact absurd (htop.symm.trans hup) (by simp)
    | top _ =>
      have hpath : space.root.path = [] := rfl
      simp only [mem_singleton, hpath, not_mem_nil, or_false, exists_eq_left, hown, Option.some.injEq]
      exact eq_comm
  · intro p x hp hx _ houter hpath ih pk l h hl
    cases hown : base.find? x.node with
    | none =>
      -- the node has no resource: what governs it governs the one before
      rw [ih pk l (by simpa [Item.governing, hown, houter] using h) hl, hpath]
      refine exists_congr fun m => ?_
      constructor
      · rintro ⟨hm, hq⟩
        exact ⟨.inr (by simpa [or_comm] using hm), hq⟩
      · rintro ⟨rfl | hm, hq⟩
        · exact absurd (hown.symm.trans hq) (by simp)
        · exact ⟨by simpa [or_comm] using hm, hq⟩
    | some own =>
      obtain rfl : own = pk := by simpa [Item.governing, hown] using h
      have hself : (∃ m, (m = x.node ∨ m ∈ x.path) ∧ base.find? m = some q) ↔
          q = own ∨ ∃ m, (m = p.node ∨ m ∈ p.path) ∧ base.find? m = some q := by
        rw [hpath]
        constructor
        · rintro ⟨m, rfl | hm, hq⟩
          · exact .inl (Option.some.inj (hq.symm.trans hown))
          · exact .inr ⟨m, by simpa [or_comm] using hm, hq⟩
        · rintro (rfl | ⟨m, hm, hq⟩)
          · exact ⟨x.node, .inl rfl, hown⟩
          · exact ⟨m, .inr (by simpa [or_comm] using hm), hq⟩
      rw [hself]
      cases hbefore : p.governing base with
      | none =>
        have htop : (space.descend base).enclosing.find? own = none := by
          refine Option.eq_none_iff_forall_ne_some.mpr fun outer hout => ?_
          obtain ⟨y, hy, hy', hyouter, -⟩ := (find?_enclosing hbase).mp hout
          rw [item_unique hy hx (hbase _ _ own hy' hown), houter, hbefore] at hyouter
          cases hyouter
        have hnone : ¬ ∃ m, (m = p.node ∨ m ∈ p.path) ∧ base.find? m = some q := fun ⟨m, hm, hq⟩ => by
          rw [find?_of_governing_none hp hbefore hm] at hq
          cases hq
        cases hl with
        | step hup _ => exact absurd (htop.symm.trans hup) (by simp)
        | top _ => simp [hnone]
      | some outer =>
        have hne : outer ≠ own := by
          rintro rfl
          obtain ⟨y, hy, hy', hlength, -⟩ := exists_governing hp hbefore
          rw [item_unique hy hx (hbase _ _ outer hy' hown), hpath, length_append] at hlength
          exact absurd hlength (by simp)
        have hup : (space.descend base).enclosing.find? own = some outer :=
          (find?_enclosing hbase).mpr ⟨x, hx, hown, houter.trans hbefore, hne⟩
        cases hl with
        | top htop => exact absurd (htop.symm.trans hup) (by simp)
        | step hup' hrest =>
          obtain rfl := Option.some.inj (hup.symm.trans hup')
          rw [mem_cons, ih outer _ hbefore hrest]

end Governing

end AddressSpace

end OpcHub.Nodes
