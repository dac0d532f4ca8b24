import Mathlib.Data.List.Sort

/-! Stable sorting by a key, and the merge of two lists in its order. -/

namespace OpcHub.Lib

open List

variable {α κ : Type*} [LinearOrder κ] (key : α → κ)

/-- In key order. -/
def SortedBy (l : List α) : Prop := l.Pairwise fun a b => key a ≤ key b

instance (l : List α) : Decidable (SortedBy key l) :=
  inferInstanceAs (Decidable (l.Pairwise fun a b => key a ≤ key b))

/-- The stable sort by a key. -/
def stableSort (l : List α) : List α := l.insertionSort fun a b => key a ≤ key b

/-- A list merged into one that starts with `x`; `rest` is how it goes on once `x` is out. -/
def mergeFrom (x : α) (xs : List α) (rest : List α → List α) : List α → List α
  | [] => x :: xs
  | y :: ys => if key x ≤ key y then x :: rest (y :: ys) else y :: mergeFrom x xs rest ys

/-- `List.merge` by a key, by recursion on both lists: it runs in the kernel. -/
def mergeBy : List α → List α → List α
  | [], ys => ys
  | x :: xs, ys => mergeFrom key x xs (mergeBy xs) ys

theorem mergeBy_eq_merge (xs ys : List α) :
    mergeBy key xs ys = merge xs ys fun a b => decide (key a ≤ key b) := by
  induction xs generalizing ys with
  | nil => simp [mergeBy]
  | cons x xs ih =>
    rw [mergeBy]
    induction ys with
    | nil => simp [mergeFrom]
    | cons y ys ihy =>
      rw [mergeFrom, cons_merge_cons, ih, ihy]
      simp

theorem mergeBy_perm (xs ys : List α) : (mergeBy key xs ys).Perm (xs ++ ys) := by
  rw [mergeBy_eq_merge]
  exact merge_perm_append _

variable {key} {a : α} {l l₁ l₂ : List α}

theorem SortedBy.nil : SortedBy key [] := List.Pairwise.nil

theorem SortedBy.sublist (h : SortedBy key l₂) (hs : l₁.Sublist l₂) : SortedBy key l₁ :=
  List.Pairwise.sublist hs h

theorem sortedBy_append : SortedBy key (l₁ ++ l₂) ↔
      SortedBy key l₁ ∧ SortedBy key l₂ ∧ ∀ a ∈ l₁, ∀ b ∈ l₂, key a ≤ key b := pairwise_append

theorem stableSort_perm (l : List α) : (stableSort key l).Perm l := perm_insertionSort _ l

theorem mem_stableSort : a ∈ stableSort key l ↔ a ∈ l :=
  (stableSort_perm l).mem_iff

theorem sortedBy_stableSort (l : List α) : SortedBy key (stableSort key l) :=
  pairwise_insertionSort _ l

end OpcHub.Lib
