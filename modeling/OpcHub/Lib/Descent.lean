import Mathlib.Data.List.Nodup
import Mathlib.Data.List.Perm.Subperm

/-! Walks down nested places. An item may open a place, with more items inside;
a place may be inside itself, however far down. A walk that keeps the places it
opened opens each once and comes by every item below its start. One that keeps
the places on the way to where it is comes by an item once for each way down
that meets no place twice. Both are given fuel: one more than the places there
are is enough. -/

namespace OpcHub.Lib

open List

/-- Items, the place an item opens when it opens one, and the items inside. -/
structure Nesting (α β : Type*) where
  opens : β → Option α
  inside : β → List β

namespace Nesting

variable {α β σ : Type*} (N : Nesting α β)

/-- `c` is inside what `b` opens. -/
def Step (b c : β) : Prop := (N.opens b).isSome ∧ c ∈ N.inside b

/-- `c` is `b`, or somewhere inside it. -/
def Reaches : β → β → Prop := Relation.ReflTransGen N.Step

/-- A way down from `b` to `c`, by the places it opens. -/
inductive Trail : List α → β → β → Prop
  | here (b : β) : Trail [] b b
  | step {a : α} {b c d : β} {q : List α} (hopens : N.opens b = some a) (hmem : c ∈ N.inside b)
      (hrest : Trail q c d) : Trail (a :: q) b d

/-- No two items open one place. -/
def Injective : Prop := ∀ {b c : β} {a : α}, N.opens b = some a → N.opens c = some a → b = c

variable {N} {a : α} {b c d : β} {q : List α}

theorem Trail.reaches (h : N.Trail q b c) : N.Reaches b c := by
  induction h with
  | here b => exact .refl
  | step hopens hmem _ ih => exact .head ⟨by rw [hopens]; rfl, hmem⟩ ih

theorem Trail.split {q₁ q₂ : List α} (h : N.Trail (q₁ ++ q₂) b d) : ∃ c, N.Trail q₁ b c ∧ N.Trail q₂ c d := by
  induction q₁ generalizing b with
  | nil => exact ⟨b, .here b, h⟩
  | cons a q₁ ih =>
    cases h with
    | step hopens hmem hrest =>
      obtain ⟨c, h₁, h₂⟩ := ih hrest
      exact ⟨c, .step hopens hmem h₁, h₂⟩

theorem Reaches.simple (hN : N.Injective) (h : N.Reaches b d) :
    ∃ q, N.Trail q b d ∧ q.Nodup ∧ ∀ a, N.opens d = some a → a ∉ q := by
  induction h using Relation.ReflTransGen.head_induction_on with
  | refl => exact ⟨[], .here d, .nil, fun _ _ => not_mem_nil⟩
  | @head b c hstep _ ih =>
    obtain ⟨hopens, hmem⟩ := hstep
    obtain ⟨a, ha⟩ := Option.isSome_iff_exists.mp hopens
    obtain ⟨q, htrail, hnodup, hend⟩ := ih
    by_cases hq : a ∈ q
    · -- the way comes back by the place: what is left of it starts there
      obtain ⟨q₁, q₂, rfl⟩ := append_of_mem hq
      obtain ⟨e, -, hrest⟩ := htrail.split
      cases hrest with
      | step hopens' hmem' hrest =>
        obtain rfl := hN ha hopens'
        refine ⟨a :: q₂, .step ha hmem' hrest, (nodup_append.mp hnodup).2.1, fun x hx hin => ?_⟩
        exact hend x hx (mem_append_right q₁ hin)
    · by_cases hd : N.opens d = some a
      · obtain rfl := hN ha hd
        exact ⟨[], .here b, .nil, fun _ _ => not_mem_nil⟩
      · refine ⟨a :: q, .step ha hmem htrail, nodup_cons.mpr ⟨hq, hnodup⟩, fun x hx hin => ?_⟩
        obtain rfl | hin := mem_cons.mp hin
        · exact hd hx
        · exact hend x hx hin

/-- Steps that lead nowhere near `d` may come and go. -/
theorem reaches_iff_of_step {M : Nesting α β} (hsub : ∀ b c, N.Step b c → M.Step b c)
    (hdiff : ∀ b c, M.Step b c → M.Reaches c d → N.Step b c) : N.Reaches b d ↔ M.Reaches b d := by
  refine ⟨fun h => h.lift id hsub, fun h => ?_⟩
  induction h using Relation.ReflTransGen.head_induction_on with
  | refl => exact .refl
  | head hstep hrest ih => exact .head (hdiff _ _ hstep hrest) ih

section Walk

variable [DecidableEq α] (N) (take : β → σ → σ)

/-- Each item taken as it is come by, and each place opened once. -/
def walk : ℕ → List α × σ → β → List α × σ
  | 0, s, _ => s
  | fuel + 1, s, b =>
    match N.opens b with
    | none => (s.1, take b s.2)
    | some a => if a ∈ s.1 then s else (N.inside b).foldl (walk fuel) (a :: s.1, take b s.2)

/-- One thing after the other, each with the places the ones before it opened. -/
def through (f : List α → β → List α × List β) : List α → List β → List α × List β
  | seen, [] => (seen, [])
  | seen, b :: bs => ((through f (f seen b).1 bs).1, (f seen b).2 ++ (through f (f seen b).1 bs).2)

/-- The places a walk has opened when it ends, and the items it takes in order. -/
def trace : ℕ → List α → β → List α × List β
  | 0, seen, _ => (seen, [])
  | fuel + 1, seen, b =>
    match N.opens b with
    | none => (seen, [b])
    | some a =>
      if a ∈ seen then (seen, [])
      else ((through (trace fuel) (a :: seen) (N.inside b)).1, b :: (through (trace fuel) (a :: seen) (N.inside b)).2)

variable {N} {fuel : ℕ} {seen : List α}

theorem trace_leaf (h : N.opens b = none) : N.trace (fuel + 1) seen b = (seen, [b]) := by
  simp only [trace, h]

theorem trace_seen (h : N.opens b = some a) (ha : a ∈ seen) : N.trace (fuel + 1) seen b = (seen, []) := by
  simp only [trace, h, if_pos ha]

theorem trace_open (h : N.opens b = some a) (ha : a ∉ seen) : N.trace (fuel + 1) seen b =
      ((through (N.trace fuel) (a :: seen) (N.inside b)).1,
        b :: (through (N.trace fuel) (a :: seen) (N.inside b)).2) := by
  simp only [trace, h, if_neg ha]

theorem walk_eq (s : σ) : N.walk take fuel (seen, s) b =
      ((N.trace fuel seen b).1, (N.trace fuel seen b).2.foldl (fun s c => take c s) s) := by
  induction fuel generalizing seen s b with
  | zero => rfl
  | succ fuel ih =>
    have hlist : ∀ (bs : List β) (seen : List α) (s : σ),
        bs.foldl (N.walk take fuel) (seen, s) =
          ((through (N.trace fuel) seen bs).1, (through (N.trace fuel) seen bs).2.foldl (fun s c => take c s) s) := by
      intro bs
      induction bs with
      | nil => exact fun _ _ => rfl
      | cons c bs ihl =>
        intro seen s
        rw [foldl_cons, ih, ihl, through, foldl_append]
    cases h : N.opens b with
    | none => rw [trace_leaf h, walk, h]; rfl
    | some a =>
      by_cases ha : a ∈ seen
      · rw [trace_seen h ha, walk, h]
        exact if_pos ha
      · rw [trace_open h ha, walk, h]
        exact (if_neg ha).trans (hlist _ _ _)

theorem trace_fst (seen : List α) (b : β) :
    (N.trace fuel seen b).1 = ((N.trace fuel seen b).2.filterMap N.opens).reverse ++ seen := by
  induction fuel generalizing seen b with
  | zero => rfl
  | succ fuel ih =>
    have hlist : ∀ (bs : List β) (seen : List α),
        (through (N.trace fuel) seen bs).1 =
          ((through (N.trace fuel) seen bs).2.filterMap N.opens).reverse ++ seen := by
      intro bs
      induction bs with
      | nil => exact fun _ => rfl
      | cons c bs ihl =>
        intro seen
        simp only [through]
        rw [ihl, ih, filterMap_append, reverse_append, append_assoc]
    cases h : N.opens b with
    | none => rw [trace_leaf h]; simp [h]
    | some a =>
      by_cases ha : a ∈ seen
      · rw [trace_seen h ha]; rfl
      · rw [trace_open h ha]
        rw [hlist, filterMap_cons_some h, reverse_cons, append_assoc]
        rfl

theorem mem_trace_fst {x : α} :
    x ∈ (N.trace fuel seen b).1 ↔ x ∈ seen ∨ ∃ c ∈ (N.trace fuel seen b).2, N.opens c = some x := by
  rw [trace_fst, mem_append, mem_reverse, mem_filterMap, or_comm]

theorem nodup_trace (hseen : seen.Nodup) : (N.trace fuel seen b).1.Nodup := by
  induction fuel generalizing seen b with
  | zero => exact hseen
  | succ fuel ih =>
    have hlist : ∀ (bs : List β) (seen : List α), seen.Nodup → (through (N.trace fuel) seen bs).1.Nodup := by
      intro bs
      induction bs with
      | nil => exact fun _ h => h
      | cons c bs ihl => exact fun seen h => ihl _ (ih h)
    cases h : N.opens b with
    | none => rw [trace_leaf h]; exact hseen
    | some a =>
      by_cases ha : a ∈ seen
      · rw [trace_seen h ha]; exact hseen
      · rw [trace_open h ha]
        exact hlist _ _ (nodup_cons.mpr ⟨ha, hseen⟩)

theorem descends_trace (hmem : c ∈ (N.trace fuel seen b).2) :
    Relation.ReflTransGen (fun p c => p ∈ (N.trace fuel seen b).2 ∧ N.Step p c) b c := by
  induction fuel generalizing seen b c with
  | zero => cases hmem
  | succ fuel ih =>
    have hlist : ∀ (bs : List β) (seen : List α), c ∈ (through (N.trace fuel) seen bs).2 → ∃ d ∈ bs,
        Relation.ReflTransGen (fun p c => p ∈ (through (N.trace fuel) seen bs).2 ∧ N.Step p c) d c := by
      intro bs
      induction bs with
      | nil => exact nofun
      | cons d bs ihl =>
        intro seen h
        obtain h | h := mem_append.mp h
        · exact ⟨d, mem_cons_self, (ih h).lift id fun p c hp => ⟨mem_append_left _ hp.1, hp.2⟩⟩
        · obtain ⟨e, he, hrest⟩ := ihl _ h
          exact ⟨e, mem_cons_of_mem d he, hrest.lift id fun p c hp => ⟨mem_append_right _ hp.1, hp.2⟩⟩
    cases h : N.opens b with
    | none =>
      rw [trace_leaf h, mem_singleton] at hmem
      rw [hmem]
    | some a =>
      by_cases ha : a ∈ seen
      · rw [trace_seen h ha] at hmem
        cases hmem
      · rw [trace_open h ha] at hmem ⊢
        obtain rfl | hmem := mem_cons.mp hmem
        · exact .refl
        · obtain ⟨d, hd, hrest⟩ := hlist _ _ hmem
          exact .head ⟨mem_cons_self, by rw [h]; rfl, hd⟩
            (hrest.lift id fun p c hp => ⟨mem_cons_of_mem b hp.1, hp.2⟩)

theorem reaches_of_mem_trace (hmem : c ∈ (N.trace fuel seen b).2) : N.Reaches b c :=
  (descends_trace hmem).lift id fun _ _ h => h.2

/-- The places of `all` not opened yet. -/
def unseen (all seen : List α) : ℕ := (all.filter fun a => a ∉ seen).length

theorem unseen_cons_lt {all : List α} (ha : a ∉ seen) (hall : a ∈ all) : unseen all (a :: seen) < unseen all seen := by
  have hsub : all.filter (fun x => x ∉ a :: seen) = (all.filter fun x => x ∉ seen).filter fun x => x ≠ a := by
    rw [filter_filter]
    refine filter_congr fun x _ => ?_
    simp
  rw [unseen, hsub]
  refine length_filter_lt_length_iff_exists.mpr ⟨a, ?_, by simp⟩
  simpa using ⟨hall, ha⟩

theorem unseen_le (all seen : List α) : unseen all seen ≤ all.length := length_filter_le _ _

theorem unseen_mono {all more : List α} (h : seen ⊆ more) : unseen all more ≤ unseen all seen := by
  refine (monotone_filter_right all fun a ha => ?_).length_le
  have hnot : a ∉ more := by simpa using ha
  simpa using fun hin => hnot (h hin)

theorem subset_trace (seen : List α) (b : β) : seen ⊆ (N.trace fuel seen b).1 :=
  fun _ hx => mem_trace_fst.mpr (.inl hx)

theorem subset_through (bs : List β) (seen : List α) : seen ⊆ (through (N.trace fuel) seen bs).1 := by
  induction bs generalizing seen with
  | nil => exact fun _ h => h
  | cons c bs ih => exact fun x hx => ih _ (subset_trace seen c hx)

/-- `c` was taken, or the place it opens is open. -/
structure Settled (N : Nesting α β) (seen : List α) (taken : List β) (c : β) : Prop where
  leaf : N.opens c = none → c ∈ taken
  opened : ∀ a, N.opens c = some a → a ∈ seen

omit [DecidableEq α] in
theorem Settled.mono {more : List α} {taken moreTaken : List β} (h : N.Settled seen taken c) (hseen : seen ⊆ more)
    (htaken : taken ⊆ moreTaken) : N.Settled more moreTaken c :=
  ⟨fun hc => htaken (h.leaf hc), fun a ha => hseen (h.opened a ha)⟩

variable {all : List α}

/-- With the fuel for it, all that is inside an item taken is settled, and so is the start. -/
theorem settled_trace (hall : ∀ p c a, c ∈ N.inside p → N.opens c = some a → a ∈ all)
    (hb : ∀ a, N.opens b = some a → a ∈ all) (hfuel : unseen all seen < fuel) :
    N.Settled (N.trace fuel seen b).1 (N.trace fuel seen b).2 b ∧
      ∀ p ∈ (N.trace fuel seen b).2, ∀ c, N.Step p c →
        N.Settled (N.trace fuel seen b).1 (N.trace fuel seen b).2 c := by
  induction fuel generalizing seen b with
  | zero => exact absurd hfuel (Nat.not_lt_zero _)
  | succ fuel ih =>
    have hlist : ∀ (bs : List β) (seen : List α), (∀ c ∈ bs, ∀ a, N.opens c = some a → a ∈ all) →
        unseen all seen < fuel →
        (∀ c ∈ bs, N.Settled (through (N.trace fuel) seen bs).1 (through (N.trace fuel) seen bs).2 c) ∧
          ∀ p ∈ (through (N.trace fuel) seen bs).2, ∀ c, N.Step p c →
            N.Settled (through (N.trace fuel) seen bs).1 (through (N.trace fuel) seen bs).2 c := by
      intro bs
      induction bs with
      | nil => exact fun _ _ _ => ⟨nofun, nofun⟩
      | cons d bs ihl =>
        intro seen hmem hlt
        obtain ⟨hd, hinside⟩ := ih (hmem d mem_cons_self) hlt
        obtain ⟨hbs, hrest⟩ := ihl (N.trace fuel seen d).1 (fun c hc => hmem c (mem_cons_of_mem d hc))
          (Nat.lt_of_le_of_lt (unseen_mono (subset_trace seen d)) hlt)
        have hseen : (N.trace fuel seen d).1 ⊆ (through (N.trace fuel) seen (d :: bs)).1 := subset_through bs _
        refine ⟨fun c hc => ?_, fun p hp c hstep => ?_⟩
        · obtain rfl | hc := mem_cons.mp hc
          · exact hd.mono hseen (subset_append_left _ _)
          · exact (hbs c hc).mono (fun _ h => h) (subset_append_right _ _)
        · obtain hp | hp := mem_append.mp hp
          · exact (hinside p hp c hstep).mono hseen (subset_append_left _ _)
          · exact (hrest p hp c hstep).mono (fun _ h => h) (subset_append_right _ _)
    cases h : N.opens b with
    | none =>
      rw [trace_leaf h]
      refine ⟨⟨fun _ => mem_singleton_self b, fun a ha => absurd (h.symm.trans ha) (by simp)⟩, ?_⟩
      intro p hp c hstep
      obtain rfl := mem_singleton.mp hp
      exact absurd hstep.1 (by simp [h])
    | some a =>
      by_cases ha : a ∈ seen
      · rw [trace_seen h ha]
        refine ⟨⟨fun hn => absurd (h.symm.trans hn) (by simp), fun x hx => ?_⟩, nofun⟩
        obtain rfl : a = x := Option.some.inj (h.symm.trans hx)
        exact ha
      · rw [trace_open h ha]
        obtain ⟨hin, hrest⟩ := hlist (N.inside b) (a :: seen) (fun c hc a => hall b c a hc)
          (Nat.lt_of_lt_of_le (unseen_cons_lt ha (hb a h)) (Nat.le_of_lt_succ hfuel))
        refine ⟨⟨fun hn => absurd (h.symm.trans hn) (by simp), fun x hx => ?_⟩, fun p hp c hstep => ?_⟩
        · obtain rfl : a = x := Option.some.inj (h.symm.trans hx)
          exact subset_through _ _ mem_cons_self
        · obtain rfl | hp := mem_cons.mp hp
          · exact (hin c hstep.2).mono (fun _ h => h) (subset_cons_self _ _)
          · exact (hrest p hp c hstep).mono (fun _ h => h) (subset_cons_self _ _)

/-- A walk from nothing open takes every item below its start that opens nothing. -/
theorem mem_trace_iff (hN : N.Injective) (hall : ∀ p c a, c ∈ N.inside p → N.opens c = some a → a ∈ all)
    (hb : ∀ a, N.opens b = some a → a ∈ all) (hc : N.opens c = none) :
    c ∈ (N.trace (all.length + 1) [] b).2 ↔ N.Reaches b c := by
  refine ⟨reaches_of_mem_trace, fun h => ?_⟩
  obtain ⟨hstart, hinside⟩ := settled_trace hall hb (Nat.lt_succ_of_le (unseen_le all []))
  suffices hsettled : N.Settled (N.trace (all.length + 1) [] b).1 (N.trace (all.length + 1) [] b).2 c from
    hsettled.leaf hc
  clear hc
  induction h with
  | refl => exact hstart
  | @tail d e _ hstep ih =>
    obtain ⟨a, ha⟩ := Option.isSome_iff_exists.mp hstep.1
    obtain hnil | ⟨p, hp, hpa⟩ := mem_trace_fst.mp (ih.opened a ha)
    · cases hnil
    · obtain rfl := hN ha hpa
      exact hinside d hp e hstep

end Walk

section Ways

variable [DecidableEq α] (N) (hits : β → Bool)

/-- The ways down to the items hit, each by the places on it. -/
def ways : ℕ → List α → β → List (List α × β)
  | 0, _, _ => []
  | fuel + 1, path, b =>
    match N.opens b with
    | none => if hits b then [(path, b)] else []
    | some a =>
      if a ∈ path then []
      else (if hits b then [(path, b)] else []) ++ (N.inside b).flatMap (ways fuel (path ++ [a]))

variable {N hits} {fuel : ℕ} {path : List α} {all : List α}

theorem trail_of_mem_ways {q : List α} (h : (q, d) ∈ N.ways hits fuel path b) :
    ∃ q', q = path ++ q' ∧ N.Trail q' b d ∧ hits d = true := by
  induction fuel generalizing path b with
  | zero => cases h
  | succ fuel ih =>
    rw [ways] at h
    have hit : (q, d) ∈ (if hits b then [(path, b)] else []) → ∃ q', q = path ++ q' ∧ N.Trail q' b d ∧ hits d = true := by
      intro h
      split_ifs at h with hb
      · obtain ⟨rfl, rfl⟩ := Prod.mk.inj (mem_singleton.mp h)
        exact ⟨[], (append_nil q).symm, .here d, hb⟩
      · cases h
    cases ha : N.opens b with
    | none =>
      rw [ha] at h
      exact hit h
    | some a =>
      simp only [ha] at h
      by_cases hin : a ∈ path
      · rw [if_pos hin] at h
        cases h
      · rw [if_neg hin] at h
        obtain h | h := mem_append.mp h
        · exact hit h
        · obtain ⟨c, hc, h⟩ := mem_flatMap.mp h
          obtain ⟨q', rfl, htrail, hd⟩ := ih h
          exact ⟨a :: q', by rw [append_assoc]; rfl, .step ha hc htrail, hd⟩

theorem mem_ways {q : List α} (htrail : N.Trail q b d) (hnodup : (path ++ q).Nodup)
    (hend : ∀ a, N.opens d = some a → a ∉ path ++ q) (hd : hits d = true) (hfuel : q.length < fuel) :
    (path ++ q, d) ∈ N.ways hits fuel path b := by
  induction fuel generalizing path b q with
  | zero => exact absurd hfuel (Nat.not_lt_zero _)
  | succ fuel ih =>
    rw [ways]
    cases htrail with
    | here =>
      rw [append_nil] at hend ⊢
      split
      · rw [if_pos hd]
        exact mem_singleton_self _
      · rename_i a ha
        rw [if_neg (hend a ha), if_pos hd]
        exact mem_append_left _ (mem_singleton_self _)
    | @step a _ c _ q hopens hmem hrest =>
      have hnot : a ∉ path := fun hin => (nodup_append.mp hnodup).2.2 a hin a mem_cons_self rfl
      have hassoc : path ++ a :: q = path ++ [a] ++ q := by rw [append_assoc]; rfl
      rw [hassoc] at hnodup hend ⊢
      simp only [hopens, if_neg hnot]
      exact mem_append_right _ (mem_flatMap.mpr
        ⟨c, hmem, ih hrest hnodup hend (Nat.lt_of_succ_lt_succ hfuel)⟩)

omit [DecidableEq α] in
theorem Trail.subset (hall : ∀ b a, N.opens b = some a → a ∈ all) (h : N.Trail q b d) : q ⊆ all := by
  induction h with
  | here => exact nil_subset all
  | step hopens _ _ ih => exact cons_subset.mpr ⟨hall _ _ hopens, ih⟩

/-- With fuel for every place there is a way to each item hit below the start, and to no other. -/
theorem exists_ways_iff (hN : N.Injective) (hall : ∀ b a, N.opens b = some a → a ∈ all) :
    (∃ q, (q, d) ∈ N.ways hits (all.length + 1) [] b) ↔ N.Reaches b d ∧ hits d = true := by
  constructor
  · rintro ⟨q, hq⟩
    obtain ⟨q', -, htrail, hd⟩ := trail_of_mem_ways hq
    exact ⟨htrail.reaches, hd⟩
  · rintro ⟨hreaches, hd⟩
    obtain ⟨q, htrail, hnodup, hend⟩ := hreaches.simple hN
    have hlength : q.length ≤ all.length := (subperm_of_subset hnodup (htrail.subset hall)).length_le
    have hmem : ([] ++ q, d) ∈ N.ways hits (all.length + 1) [] b :=
      mem_ways htrail hnodup hend hd (Nat.lt_succ_of_le hlength)
    exact ⟨q, hmem⟩

end Ways

end Nesting

end OpcHub.Lib
