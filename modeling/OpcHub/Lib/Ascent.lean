import Mathlib.Data.List.Nodup
import Mathlib.Data.List.Perm.Subperm

/-! Going up a partial map, key by key, to one that has nothing above it. Where
some rank falls at every step the way up ends, and it is no longer than the keys
that have something above them, and one more. -/

namespace OpcHub.Lib

open List

variable {κ : Type*}

/-- The keys from `k` up; the fuel is the most there may be. -/
def ascend (up : κ → Option κ) : ℕ → κ → List κ
  | 0, _ => []
  | fuel + 1, k => k :: (up k).elim [] (ascend up fuel)

/-- All the keys from `k` up to one with nothing above it. -/
inductive Ascent (up : κ → Option κ) : κ → List κ → Prop
  | top {k : κ} (h : up k = none) : Ascent up k [k]
  | step {k k' : κ} {l : List κ} (h : up k = some k') (hrest : Ascent up k' l) : Ascent up k (k :: l)

/-- The rank falls from a key to the one above it. -/
def Falls (up : κ → Option κ) (rank : κ → ℕ) : Prop := ∀ k k', up k = some k' → rank k' < rank k

section Ascent

variable {up : κ → Option κ} {rank : κ → ℕ} {k : κ} {l : List κ}

theorem Falls.exists_ascent (h : Falls up rank) (k : κ) : ∃ l, Ascent up k l := by
  induction hn : rank k using Nat.strongRecOn generalizing k with
  | ind n ih =>
    cases hup : up k with
    | none => exact ⟨[k], .top hup⟩
    | some k' =>
      obtain ⟨l, hl⟩ := ih (rank k') (hn ▸ h k k' hup) k' rfl
      exact ⟨k :: l, .step hup hl⟩

/-- With fuel for it the keys are all of them. -/
theorem Ascent.ascend_eq (h : Ascent up k l) {fuel : ℕ} (hfuel : l.length ≤ fuel) : ascend up fuel k = l := by
  induction h generalizing fuel with
  | top hup =>
    obtain ⟨fuel, rfl⟩ := Nat.exists_eq_succ_of_ne_zero (Nat.one_le_iff_ne_zero.mp hfuel)
    simp [ascend, hup]
  | step hup _ ih =>
    obtain ⟨fuel, rfl⟩ := Nat.exists_eq_succ_of_ne_zero (Nat.one_le_iff_ne_zero.mp (Nat.le_trans (Nat.succ_pos _) hfuel))
    simp [ascend, hup, ih (Nat.le_of_succ_le_succ hfuel)]

theorem Ascent.rank_le (h : Ascent up k l) (hfalls : Falls up rank) : ∀ x ∈ l, rank x ≤ rank k := by
  induction h with
  | top _ => exact fun x hx => Nat.le_of_eq (congrArg rank (mem_singleton.mp hx))
  | @step k k' _ hup _ ih =>
    intro x hx
    obtain rfl | hx := mem_cons.mp hx
    · exact Nat.le_refl _
    · exact Nat.le_trans (ih x hx) (Nat.le_of_lt (hfalls k k' hup))

theorem Ascent.nodup (h : Ascent up k l) (hfalls : Falls up rank) : l.Nodup := by
  induction h with
  | top _ => exact nodup_singleton _
  | @step k k' _ hup hrest ih =>
    refine nodup_cons.mpr ⟨fun hk => ?_, ih⟩
    exact absurd (hrest.rank_le hfalls k hk) (Nat.not_le_of_lt (hfalls k k' hup))

theorem Ascent.dropLast_subset (h : Ascent up k l) {keys : List κ} (hkeys : ∀ k k', up k = some k' → k ∈ keys) :
    l.dropLast ⊆ keys := by
  induction h with
  | top _ => exact nil_subset keys
  | @step k k' l hup hrest ih =>
    have hne : l ≠ [] := by cases hrest <;> exact cons_ne_nil _ _
    rw [dropLast_cons_of_ne_nil hne]
    exact cons_subset.mpr ⟨hkeys k k' hup, ih⟩

/-- One more than the keys with something above them is fuel enough. -/
theorem Falls.ascend (h : Falls up rank) {keys : List κ} (hkeys : ∀ k k', up k = some k' → k ∈ keys) (k : κ) :
    Ascent up k (OpcHub.Lib.ascend up (keys.length + 1) k) := by
  obtain ⟨l, hl⟩ := h.exists_ascent k
  have hlength : l.length ≤ keys.length + 1 := by
    have hsub := (subperm_of_subset ((hl.nodup h).sublist (dropLast_sublist l)) (hl.dropLast_subset hkeys)).length_le
    rw [length_dropLast] at hsub
    exact Nat.le_add_of_sub_le hsub
  rw [hl.ascend_eq hlength]
  exact hl

end Ascent

end OpcHub.Lib
