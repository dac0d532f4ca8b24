import Mathlib.Data.List.Infix
import Mathlib.Data.List.Range

/-! First occurrence of a pattern in a list from a position on, as a byte
string's `find` gives it, and how it reads through a window: an occurrence that
lies inside a prefix of a suffix is an occurrence of the whole. -/

namespace OpcHub.Lib

open List

variable {α : Type*} [DecidableEq α]

/-- `pat` lies in `l` at position `p`. -/
def OccursAt (pat l : List α) (p : ℕ) : Prop := pat <+: l.drop p

instance (pat l : List α) (p : ℕ) : Decidable (OccursAt pat l p) :=
  inferInstanceAs (Decidable (pat <+: l.drop p))

/-- The first position of `pat` in `l` at or after `start`. -/
def find (pat l : List α) (start : ℕ) : Option ℕ :=
  (List.range' start (l.length - start)).find? fun p => decide (OccursAt pat l p)

variable {pat l : List α} {p : ℕ}

omit [DecidableEq α] in
theorem OccursAt.add_length_le (h : OccursAt pat l p) (hp : pat ≠ []) : p + pat.length ≤ l.length := by
  have hl := h.length_le
  have hpos := length_pos_of_ne_nil hp
  rw [length_drop] at hl
  omega

omit [DecidableEq α] in
theorem occursAt_iff_getElem? : OccursAt pat l p ↔ ∀ i < pat.length, l[p + i]? = pat[i]? := by
  constructor
  · rintro ⟨t, ht⟩ i hi
    rw [← getElem?_drop, ← ht, getElem?_append_left hi]
  · intro h
    refine ⟨(l.drop p).drop pat.length, ?_⟩
    apply ext_getElem?
    intro i
    by_cases hi : i < pat.length
    · rw [getElem?_append_left hi, getElem?_drop, h i hi]
    · rw [getElem?_append_right (by omega), getElem?_drop, getElem?_drop,
        getElem?_drop]
      congr 1
      omega

theorem find_eq_some_iff {start : ℕ} (hp : pat ≠ []) : find pat l start = some p ↔
      start ≤ p ∧ OccursAt pat l p ∧ ∀ q, start ≤ q → q < p → ¬ OccursAt pat l q := by
  unfold find
  rw [find?_range'_eq_some]
  simp only [mem_range'_1, decide_eq_true_eq, Bool.not_eq_true', decide_eq_false_iff_not]
  constructor
  · rintro ⟨ho, ⟨hs, -⟩, hq⟩
    exact ⟨hs, ho, hq⟩
  · rintro ⟨hs, ho, hq⟩
    have hle := ho.add_length_le hp
    have hpos := length_pos_of_ne_nil hp
    exact ⟨ho, ⟨hs, by omega⟩, hq⟩

theorem find_eq_none_iff {start : ℕ} (hp : pat ≠ []) :
    find pat l start = none ↔ ∀ q, start ≤ q → ¬ OccursAt pat l q := by
  unfold find
  rw [find?_eq_none]
  simp only [mem_range'_1, decide_eq_true_eq]
  constructor
  · intro h q hq ho
    have hle := ho.add_length_le hp
    have hpos := length_pos_of_ne_nil hp
    exact h q ⟨hq, by omega⟩ ho
  · intro h q hq
    exact h q hq.1

theorem find_eq_find_of_le {a b : ℕ} (hp : pat ≠ []) (hab : a ≤ b)
    (h : ∀ q, a ≤ q → q < b → ¬ OccursAt pat l q) : find pat l a = find pat l b := by
  cases hb : find pat l b with
  | none =>
    rw [find_eq_none_iff hp] at hb ⊢
    intro q hq
    by_cases hqb : q < b
    · exact h q hq hqb
    · exact hb q (by omega)
  | some p =>
    rw [find_eq_some_iff hp] at hb ⊢
    refine ⟨by omega, hb.2.1, fun q hq hqp => ?_⟩
    by_cases hqb : q < b
    · exact h q hq hqb
    · exact hb.2.2 q (by omega) hqp

omit [DecidableEq α] in
/-- Inside a window that starts at `b` and holds `n` elements, an occurrence is one of the whole. -/
theorem occursAt_window {b n q : ℕ} (hq : q + pat.length ≤ n) :
    OccursAt pat ((l.drop b).take n) q ↔ OccursAt pat l (b + q) := by
  rw [occursAt_iff_getElem?, occursAt_iff_getElem?]
  refine forall₂_congr fun i hi => ?_
  rw [getElem?_take_of_lt (by omega), getElem?_drop, Nat.add_assoc]

end OpcHub.Lib
