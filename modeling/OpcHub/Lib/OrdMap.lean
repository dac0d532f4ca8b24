import Mathlib.Data.List.Lookmap
import Mathlib.Data.List.Nodup
import Mathlib.Data.List.Perm.Basic
import Mathlib.Order.Lattice

/-! Maps walked in key order: an association list that carries the proof that
its keys increase. Inserting replaces, so a key has one value. What an insertion
or an erasure does to the entries is stated up to permutation, the form in which
sums over a map's values are kept. -/

namespace OpcHub.Lib

open List

section Folds

variable {σ α ν : Type*} {f : σ → α → σ} {l : List α}

theorem foldl_view (view : σ → ν) (h : ∀ x ∈ l, ∀ s, view (f s x) = view s) (s : σ) : view (l.foldl f s) = view s :=
  List.foldlRecOn (motive := fun t => view t = view s) l f rfl fun t ht x hx => (h x hx t).trans ht

/-- Where one element alone changes a view, the fold comes to what it changes it to. -/
theorem foldl_view_of_mem (view : σ → ν) {x : α} (hx : x ∈ l) (hnodup : l.Nodup)
    (h : ∀ y ∈ l, y ≠ x → ∀ s, view (f s y) = view s) (s : σ) :
    ∃ t, view t = view s ∧ view (l.foldl f s) = view (f t x) := by
  obtain ⟨before, after, rfl⟩ := append_of_mem hx
  rw [nodup_middle, nodup_cons] at hnodup
  have hbefore : ∀ y ∈ before, ∀ s, view (f s y) = view s := fun y hy =>
    h y (mem_append_left _ hy) fun heq => hnodup.1 (heq ▸ mem_append_left _ hy)
  have hafter : ∀ y ∈ after, ∀ s, view (f s y) = view s := fun y hy =>
    h y (mem_append_right _ (.tail _ hy)) fun heq => hnodup.1 (heq ▸ mem_append_right _ hy)
  refine ⟨before.foldl f s, foldl_view view hbefore s, ?_⟩
  rw [foldl_append, foldl_cons, foldl_view view hafter]

end Folds

theorem lookup_filter_ne {κ β : Type*} [BEq κ] [LawfulBEq κ] [DecidableEq κ] (l : List (κ × β)) (i j : κ) :
    (l.filter fun e => e.1 ≠ j).lookup i = if i = j then none else l.lookup i := by
  induction l with
  | nil => simp
  | cons e l ih =>
    obtain ⟨k, x⟩ := e
    by_cases hk : k = j
    · subst hk
      rw [filter_cons_of_neg (by simp), ih, lookup_cons]
      split_ifs with hi
      · rfl
      · rw [beq_eq_false_iff_ne.mpr hi]
    · rw [filter_cons_of_pos (by simpa using hk), lookup_cons, lookup_cons, ih]
      by_cases hi : i = k
      · subst hi
        simp [hk]
      · rw [beq_eq_false_iff_ne.mpr hi]

/-- A map whose entries are listed by increasing key. -/
structure OrdMap (κ β : Type*) [LinearOrder κ] where
  entries : List (κ × β)
  sorted : entries.Pairwise fun a b => a.1 < b.1

namespace OrdMap

variable {κ β : Type*} [LinearOrder κ]

def empty : OrdMap κ β := ⟨[], .nil⟩

instance : EmptyCollection (OrdMap κ β) := ⟨empty⟩

instance : Inhabited (OrdMap κ β) := ⟨empty⟩

variable {m : OrdMap κ β} {k : κ} {x : β} {γ : Type*}

@[ext] theorem ext {n : OrdMap κ β} (h : m.entries = n.entries) : m = n := by
  cases m
  cases n
  cases h
  rfl

instance [DecidableEq β] : DecidableEq (OrdMap κ β) := fun m n =>
  decidable_of_iff (m.entries = n.entries) ⟨ext, congrArg entries⟩

def find? (m : OrdMap κ β) (k : κ) : Option β := m.entries.lookup k

def contains (m : OrdMap κ β) (k : κ) : Bool := (m.find? k).isSome

def keys (m : OrdMap κ β) : List κ := m.entries.map Prod.fst

def values (m : OrdMap κ β) : List β := m.entries.map Prod.snd

/-- An entry put in its place, over the one of its key. -/
def insertEntry (k : κ) (x : β) : List (κ × β) → List (κ × β)
  | [] => [(k, x)]
  | (k', x') :: l =>
    if k < k' then (k, x) :: (k', x') :: l
    else if k = k' then (k, x) :: l
    else (k', x') :: insertEntry k x l

theorem mem_insertEntry {e : κ × β} {l : List (κ × β)} (h : e ∈ insertEntry k x l) : e = (k, x) ∨ e ∈ l := by
  induction l with
  | nil => simpa [insertEntry] using h
  | cons a l ih =>
    rw [insertEntry] at h
    split_ifs at h <;> grind

theorem pairwise_insertEntry (k : κ) (x : β) {l : List (κ × β)}
    (h : l.Pairwise fun a b => a.1 < b.1) : (insertEntry k x l).Pairwise fun a b => a.1 < b.1 := by
  induction l with
  | nil => simp [insertEntry]
  | cons a l ih =>
    obtain ⟨ha, hl⟩ := pairwise_cons.mp h
    rw [insertEntry]
    split_ifs with hlt heq
    · refine pairwise_cons.mpr ⟨fun e he => ?_, h⟩
      rcases mem_cons.mp he with rfl | he
      · exact hlt
      · exact lt_trans hlt (ha e he)
    · subst heq
      exact pairwise_cons.mpr ⟨ha, hl⟩
    · refine pairwise_cons.mpr ⟨fun e he => ?_, ih hl⟩
      rcases mem_insertEntry he with rfl | he
      · exact lt_of_le_of_ne (not_lt.mp hlt) (Ne.symm heq)
      · exact ha e he

def insert (m : OrdMap κ β) (k : κ) (x : β) : OrdMap κ β :=
  ⟨insertEntry k x m.entries, pairwise_insertEntry k x m.sorted⟩

def erase (m : OrdMap κ β) (k : κ) : OrdMap κ β :=
  ⟨m.entries.filter fun e => e.1 ≠ k, m.sorted.filter _⟩

/-- The value of `k` changed, when there is one. -/
def modify (m : OrdMap κ β) (k : κ) (f : β → β) : OrdMap κ β :=
  match m.find? k with
  | none => m
  | some x => m.insert k (f x)

/-- Each value changed. -/
def map {γ : Type*} (m : OrdMap κ β) (f : κ → β → γ) : OrdMap κ γ :=
  ⟨m.entries.map fun e => (e.1, f e.1 e.2), pairwise_map.mpr m.sorted⟩

/-- The entries that pass. -/
def filter (m : OrdMap κ β) (p : κ → β → Bool) : OrdMap κ β :=
  ⟨m.entries.filter fun e => p e.1 e.2, m.sorted.filter _⟩

/-- The value where the key has none. -/
def emplace (m : OrdMap κ β) (k : κ) (x : β) : OrdMap κ β := if m.contains k then m else m.insert k x

theorem mem_entries_iff : (k, x) ∈ m.entries ↔ m.find? k = some x := by
  obtain ⟨l, hl⟩ := m
  simp only [find?]
  induction l with
  | nil => simp
  | cons a l ih =>
    obtain ⟨k', x'⟩ := a
    obtain ⟨ha, hl⟩ := pairwise_cons.mp hl
    have hne : ∀ z, (k', z) ∉ l := fun z h => lt_irrefl k' (ha (k', z) h)
    by_cases hk : k = k'
    · subst hk
      simp [hne, eq_comm]
    · simp [lookup_cons, hk, ih hl, beq_eq_false_iff_ne.mpr hk]

@[simp] theorem find?_empty (k : κ) : (∅ : OrdMap κ β).find? k = none := rfl

theorem find?_insert (m : OrdMap κ β) (k k' : κ) (x : β) :
    (m.insert k x).find? k' = if k' = k then some x else m.find? k' := by
  obtain ⟨l, hl⟩ := m
  simp only [find?, insert]
  induction l with
  | nil => grind [insertEntry]
  | cons a l ih =>
    rw [insertEntry]
    split_ifs with hlt heq <;> grind

@[simp] theorem find?_insert_self (m : OrdMap κ β) (k : κ) (x : β) : (m.insert k x).find? k = some x := by
  rw [find?_insert, if_pos rfl]

theorem find?_insert_of_ne (m : OrdMap κ β) {k' : κ} (x : β) (h : k' ≠ k) : (m.insert k x).find? k' = m.find? k' := by
  rw [find?_insert, if_neg h]

theorem find?_erase (m : OrdMap κ β) (k k' : κ) : (m.erase k).find? k' = if k' = k then none else m.find? k' := by
  apply Option.ext
  intro x
  rw [← mem_entries_iff]
  split_ifs with h
  · simp [erase, h]
  · simp [erase, h, mem_entries_iff]

theorem find?_insert_eq_some {k' : κ} {y : β} :
    (m.insert k x).find? k' = some y ↔ k' = k ∧ x = y ∨ k' ≠ k ∧ m.find? k' = some y := by
  rw [find?_insert]
  split_ifs with h <;> simp [h]

theorem find?_erase_eq_some {k' : κ} : (m.erase k).find? k' = some x ↔ k' ≠ k ∧ m.find? k' = some x := by
  rw [find?_erase]
  split_ifs with h <;> simp [h]

theorem find?_map (m : OrdMap κ β) (f : κ → β → γ) (k : κ) : (m.map f).find? k = (m.find? k).map (f k) := by
  obtain ⟨l, hl⟩ := m
  simp only [find?, map]
  clear hl
  induction l with
  | nil => rfl
  | cons e l ih =>
    rw [map_cons, lookup_cons, lookup_cons]
    cases h : k == e.1 with
    | true => rw [eq_of_beq h]; rfl
    | false => exact ih

theorem find?_filter_eq_some {p : κ → β → Bool} :
    (m.filter p).find? k = some x ↔ m.find? k = some x ∧ p k x = true := by
  rw [← mem_entries_iff, ← mem_entries_iff]
  exact mem_filter

theorem find?_entries (m : OrdMap κ β) (k : κ) :
    (m.entries.find? fun e => e.1 = k) = (m.find? k).map fun x => (k, x) := by
  unfold find?
  induction m.entries with
  | nil => rfl
  | cons e l ih =>
    obtain ⟨k', x⟩ := e
    by_cases hk : k' = k
    · subst hk
      simp
    · have hne : (k == k') = false := beq_eq_false_iff_ne.mpr (Ne.symm hk)
      rw [find?_cons_of_neg (by simpa using hk), ih, lookup_cons, hne]

theorem mem_keys : k ∈ m.keys ↔ ∃ x, m.find? k = some x := by
  simp only [keys, mem_map, ← mem_entries_iff]
  exact ⟨fun ⟨e, he, hk⟩ => ⟨e.2, hk ▸ he⟩, fun ⟨x, hx⟩ => ⟨(k, x), hx, rfl⟩⟩

theorem entries_eq_nil_iff : m.entries = [] ↔ ∀ k, m.find? k = none := by
  rw [eq_nil_iff_forall_not_mem]
  constructor
  · intro h k
    rw [Option.eq_none_iff_forall_not_mem]
    exact fun x hx => h (k, x) (mem_entries_iff.mpr hx)
  · rintro h ⟨k, x⟩ he
    rw [mem_entries_iff, h k] at he
    cases he

theorem insert_entries_ne_nil (m : OrdMap κ β) (k : κ) (x : β) : (m.insert k x).entries ≠ [] := by
  intro h
  have hnone := entries_eq_nil_iff.mp h k
  rw [find?_insert_self] at hnone
  cases hnone

theorem keys_nodup (m : OrdMap κ β) : m.keys.Nodup :=
  pairwise_map.mpr (m.sorted.imp fun hlt => ne_of_lt hlt)

theorem mem_values : x ∈ m.values ↔ ∃ k, m.find? k = some x := by
  simp only [values, mem_map, ← mem_entries_iff]
  exact ⟨fun ⟨e, he, hx⟩ => ⟨e.1, hx ▸ he⟩, fun ⟨k, hk⟩ => ⟨(k, x), hk, rfl⟩⟩

theorem mem_values_of_erase (h : x ∈ (m.erase k).values) : x ∈ m.values := by
  obtain ⟨k', hk⟩ := mem_values.mp h
  rw [find?_erase] at hk
  split_ifs at hk
  exact mem_values.mpr ⟨k', hk⟩

theorem mem_values_of_insert {y : β} (h : y ∈ (m.insert k x).values) : y = x ∨ y ∈ m.values := by
  obtain ⟨k', hk⟩ := mem_values.mp h
  rw [find?_insert] at hk
  split_ifs at hk
  · exact .inl (Option.some.inj hk).symm
  · exact .inr (mem_values.mpr ⟨k', hk⟩)

theorem contains_iff : m.contains k = true ↔ ∃ x, m.find? k = some x :=
  Option.isSome_iff_exists

theorem mem_keys_iff_contains : k ∈ m.keys ↔ m.contains k = true :=
  mem_keys.trans contains_iff.symm

theorem find?_modify (m : OrdMap κ β) (k k' : κ) (f : β → β) :
    (m.modify k f).find? k' = if k' = k then (m.find? k').map f else m.find? k' := by
  unfold modify
  cases h : m.find? k with
  | none =>
    split_ifs with hk
    · rw [hk, h]; rfl
    · rfl
  | some x =>
    rw [find?_insert]
    split_ifs with hk
    · rw [hk, h]; rfl
    · rfl

theorem find?_emplace (m : OrdMap κ β) (k k' : κ) (x : β) :
    (m.emplace k x).find? k' = if k' = k then some ((m.find? k).getD x) else m.find? k' := by
  unfold emplace
  cases h : m.find? k with
  | some y =>
    rw [if_pos (contains_iff.mpr ⟨y, h⟩)]
    split_ifs with hk
    · rw [hk, h]; rfl
    · rfl
  | none =>
    rw [if_neg (by simp [contains, h]), find?_insert]
    rfl

theorem perm_cons_erase (h : m.find? k = some x) : m.entries.Perm ((k, x) :: (m.erase k).entries) := by
  obtain ⟨l, hl⟩ := m
  simp only [find?, erase] at h ⊢
  induction l with
  | nil => simp at h
  | cons a l ih =>
    obtain ⟨j, y⟩ := a
    obtain ⟨ha, hl⟩ := pairwise_cons.mp hl
    rw [lookup_cons] at h
    by_cases hk : k = j
    · subst hk
      obtain rfl : y = x := by simpa using h
      have hne : l.filter (fun e => decide (e.1 ≠ k)) = l :=
        filter_eq_self.mpr fun e he => by simpa using ne_of_gt (ha e he)
      rw [filter_cons, if_neg (by simp), hne]
    · rw [beq_eq_false_iff_ne.mpr hk] at h
      have hjk : decide (j ≠ k) = true := by simpa using Ne.symm hk
      rw [filter_cons, if_pos hjk]
      exact ((ih hl h).cons _).trans (List.Perm.swap _ _ _)

theorem ext_find {n : OrdMap κ β} (h : ∀ k, m.find? k = n.find? k) : m = n := by
  have hnodup : ∀ o : OrdMap κ β, o.entries.Nodup := fun o =>
    o.sorted.imp fun hlt => by
      rintro rfl
      exact lt_irrefl _ hlt
  apply ext
  refine List.Perm.eq_of_pairwise ?_ m.sorted n.sorted ?_
  · intro a b _ _ hab hba
    exact absurd hba (lt_asymm hab)
  · refine (perm_ext_iff_of_nodup (hnodup m) (hnodup n)).mpr fun e => ?_
    rw [mem_entries_iff, mem_entries_iff, h]

theorem insert_perm (m : OrdMap κ β) (k : κ) (x : β) :
    (m.insert k x).entries.Perm ((k, x) :: (m.erase k).entries) := by
  have h := perm_cons_erase (find?_insert_self m k x)
  have he : (m.insert k x).erase k = m.erase k := by
    apply ext_find
    intro k'
    rw [find?_erase, find?_erase, find?_insert]
    split_ifs <;> rfl
  rwa [he] at h

theorem erase_eq_self (h : m.find? k = none) : m.erase k = m := by
  apply ext
  refine filter_eq_self.mpr fun e he => ?_
  have hne : e.1 ≠ k := by
    rintro rfl
    rw [mem_entries_iff.mp he] at h
    cases h
  simpa using hne

theorem flatMap_perm_erase (m : OrdMap κ β) (k : κ) (f : κ × β → List γ) : (m.entries.flatMap f).Perm
      ((m.find? k).toList.flatMap (fun x => f (k, x)) ++ (m.erase k).entries.flatMap f) := by
  cases h : m.find? k with
  | none => simp [erase_eq_self h]
  | some x => simpa using (perm_cons_erase h).flatMap_right f

theorem flatMap_insert_perm (m : OrdMap κ β) (k : κ) (x : β) (f : κ × β → List γ) :
    ((m.insert k x).entries.flatMap f).Perm (f (k, x) ++ (m.erase k).entries.flatMap f) := by
  simpa using (insert_perm m k x).flatMap_right f

theorem map_insert_of_eq {y : β} (f : β → γ) (h : m.find? k = some y) (hf : f x = f y) :
    (m.insert k x).entries.map (fun e => (e.1, f e.2)) = m.entries.map fun e => (e.1, f e.2) := by
  obtain ⟨l, hl⟩ := m
  simp only [find?, insert] at h ⊢
  induction l with
  | nil => simp at h
  | cons e l ih =>
    obtain ⟨k', x'⟩ := e
    rw [pairwise_cons] at hl
    rw [lookup_cons] at h
    rcases lt_trichotomy k k' with hk | rfl | hk
    · -- a smaller key is in no entry
      rw [beq_false_of_ne (ne_of_lt hk)] at h
      have hmem := (mem_entries_iff (m := ⟨l, hl.2⟩)).mpr h
      exact absurd (hl.1 _ hmem) (not_lt_of_gt hk)
    · rw [beq_self_eq_true] at h
      cases h
      rw [insertEntry, if_neg (lt_irrefl k), if_pos rfl, map_cons, map_cons, hf]
    · rw [beq_false_of_ne (ne_of_gt hk)] at h
      simp only [insertEntry, if_neg (not_lt_of_gt hk), if_neg (ne_of_gt hk), map_cons]
      rw [ih hl.2 h]

/-- What a walk over the entries does to a part of the state that only the entry of `k` touches. -/
theorem foldl_entries_view {σ ν : Type*} {step : σ → κ × β → σ} (view : σ → ν) {f : β → ν → ν}
    (hself : ∀ s x, view (step s (k, x)) = f x (view s)) (hother : ∀ s k' x, k' ≠ k → view (step s (k', x)) = view s)
    (m : OrdMap κ β) (s : σ) :
    view (m.entries.foldl step s) = (m.find? k).elim (view s) fun x => f x (view s) := by
  cases hfind : m.find? k with
  | none =>
    refine foldl_view view (fun e he s => hother s e.1 e.2 ?_) s
    rintro rfl
    exact absurd (hfind.symm.trans (mem_entries_iff.mp he)) (by simp)
  | some x =>
    have hmem := mem_entries_iff.mpr hfind
    have hne : ∀ e ∈ m.entries, e ≠ (k, x) → ∀ s, view (step s e) = view s := fun e he hne s =>
      hother s e.1 e.2 fun hk => hne (inj_on_of_nodup_map m.keys_nodup he hmem hk)
    obtain ⟨t, ht, hfold⟩ := foldl_view_of_mem view hmem (.of_map _ m.keys_nodup) hne s
    rw [hfold, hself, ht]
    rfl

end OrdMap

end OpcHub.Lib
