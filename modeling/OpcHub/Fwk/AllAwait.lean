import OpcHub.Lib.Runs
import Mathlib.Data.List.ReduceOption

/-! Several awaitables at once: each coroutine records its outcome in its slot and counts down, on whatever thread, and
the last to count down resumes the awaiter. -/

namespace OpcHub.Fwk

open Lib List

variable {V E : Type*} (slots : List (Option (Except E V)))

structure AllAwait (V E : Type*) where
  /-- `_values` and `_errors`. -/
  slots : List (Option (Except E V))
  remaining : ℕ
  /-- The slots still to count down, and what the awaiter was resumed with. -/
  glues : List ℕ
  resumed : List (Except E (List V)) := []

namespace AllAwait

def all (n : ℕ) : AllAwait V E where
  slots := replicate n none
  remaining := n
  glues := range n

/-- The first error by slot, or the values. -/
def collect : Except E (List V) :=
  match slots.findSome? fun | some (.error e) => some e | _ => none with
  | some e => .error e
  | none => .ok (slots.filterMap fun | some (.ok v) => some v | _ => none)

inductive Event (V E : Type*) where
  | settle (i : ℕ) (outcome : Except E V)
  | settled (i : ℕ)

def step (s : AllAwait V E) : Event V E → Option (AllAwait V E)
  | .settle i outcome =>
    if s.slots[i]?.any Option.isNone then some { s with slots := s.slots.set i (some outcome) } else none
  | .settled i =>
    if i ∈ s.glues ∧ s.slots[i]?.any Option.isSome then some
      { s with
        remaining := s.remaining - 1
        glues := s.glues.erase i
        resumed := s.resumed ++ if s.remaining = 1 then [collect s.slots] else [] }
    else none

variable {s t : AllAwait V E}

structure Sound (s : AllAwait V E) : Prop where
  remaining : s.remaining = s.glues.length
  running : ∀ i, s.slots[i]? = some none → i ∈ s.glues
  resumed : s.resumed = if s.glues = [] then [collect s.slots] else []

theorem Sound.step {e : Event V E} (h : Sound s) (hstep : s.step e = some t) : Sound t := by
  cases e with
  | settle i outcome =>
    obtain ⟨hi, rfl⟩ := of_guard hstep
    have hne : s.glues ≠ [] := ne_nil_of_mem (h.running i (by simpa [Option.any_eq_true] using hi))
    refine ⟨h.remaining, fun j hj => h.running j (by grind), ?_⟩
    simp [h.resumed, hne]
  | settled i =>
    obtain ⟨⟨hi, hsome⟩, rfl⟩ := of_guard hstep
    have hlen := length_erase_of_mem hi
    have hpos := length_pos_of_mem hi
    refine ⟨by rw [h.remaining, hlen], fun j hj => ?_, ?_⟩
    · exact (mem_erase_of_ne (by grind)).mpr (h.running j hj)
    · simp only [h.resumed, h.remaining, ← length_eq_zero_iff, hlen]
      grind

theorem collect_eq : collect slots = slots.reduceOption.mapM id := by
  induction slots with
  | nil => rfl
  | cons slot slots ih =>
    rcases slot with _ | e | v
    · exact ih
    · rfl
    · rw [reduceOption_cons_of_some, mapM_cons, ← ih]
      simp only [collect, findSome?_cons, filterMap_cons]
      cases slots.findSome? _ <;> rfl

/-- Whatever the order, the awaiter is resumed once, after the last slot, with what awaiting one after the other gives. -/
theorem resumes_once {n : ℕ} (hn : 0 < n) {es : List (Event V E)} (hrun : exec step (all n) es = some s) :
    s.resumed = (if s.glues = [] then [s.slots.reduceOption.mapM id] else []) ∧ (s.glues = [] → none ∉ s.slots) := by
  have hall : Sound (all n : AllAwait V E) := ⟨by simp [all], fun i hi => by grind [all], by grind [all]⟩
  have h := exec_induction (fun h hstep => Sound.step h hstep) hall hrun
  refine ⟨collect_eq s.slots ▸ h.resumed, fun hdone hmem => ?_⟩
  obtain ⟨i, hi⟩ := mem_iff_getElem?.mp hmem
  exact not_mem_nil (hdone ▸ h.running i hi)

def oneFails : List (Event ℕ ℕ) := [.settle 1 (.error 3), .settled 1, .settle 0 (.ok 7), .settled 0]

theorem oneFails_resumed : ∃ s, exec step (all 2) oneFails = some s ∧ s.resumed = [.error 3] :=
  have hrun : exec step (all 2) oneFails = some _ := rfl
  ⟨_, hrun, (resumes_once Nat.two_pos hrun).1⟩

end AllAwait

end OpcHub.Fwk
