import Mathlib.Data.Option.Basic

/-! Runs of a system whose events are guarded: a step is refused where the event
cannot happen, and a run is refused with its first such step. A fact that every
step keeps holds at the end of every run, and with a condition on the steps
taken, along every run whose steps meet it. -/

namespace OpcHub.Lib

variable {σ ε : Type*}

section Exec

variable (step : σ → ε → Option σ)

/-- The state the events lead to, one after the other. -/
def exec : σ → List ε → Option σ
  | s, [] => some s
  | s, e :: es => (step s e).bind fun t => exec t es

/-- Every event of the run is taken in a state that meets `P` with it. -/
def Along (P : σ → ε → Prop) : σ → List ε → Prop
  | _, [] => True
  | s, e :: es => P s e ∧ ∀ t ∈ step s e, Along P t es

instance decidableAlong {P : σ → ε → Prop} [∀ s e, Decidable (P s e)] :
    ∀ s es, Decidable (Along step P s es)
  | _, [] => isTrue trivial
  | s, e :: es =>
    have := fun t => decidableAlong (P := P) t es
    inferInstanceAs (Decidable (P s e ∧ ∀ t ∈ step s e, Along step P t es))

@[simp] theorem exec_nil (s : σ) : exec step s [] = some s := rfl

end Exec

variable {step : σ → ε → Option σ} {s t : σ}

theorem of_guard {p : Prop} [Decidable p] (h : (if p then some s else none) = some t) : p ∧ s = t :=
  (Option.ite_none_right_eq_some.mp h).imp_right Option.some.inj

theorem of_unless {p : Prop} [Decidable p] (h : (if p then none else some s) = some t) : ¬ p ∧ s = t :=
  (Option.ite_none_left_eq_some.mp h).imp_right Option.some.inj

variable {es : List ε} {I : σ → Prop} {P : σ → ε → Prop}

theorem exec_cons_eq_some {e : ε} :
    exec step s (e :: es) = some t ↔ ∃ u, step s e = some u ∧ exec step u es = some t :=
  Option.bind_eq_some_iff

/-- What every step keeps holds after every run. -/
theorem exec_induction (hstep : ∀ {s e t}, I s → step s e = some t → I t) (hs : I s)
    (hrun : exec step s es = some t) : I t := by
  induction es generalizing s with
  | nil =>
    cases hrun
    exact hs
  | cons e es ih =>
    obtain ⟨u, hu, hrun⟩ := exec_cons_eq_some.mp hrun
    exact ih (hstep hs hu) hrun

/-- A run whose steps another system can follow is followed by a run of it. -/
theorem exec_simulates {τ : Type*} {step' : τ → ε → Option τ} {R : σ → τ → Prop} {a : τ}
    (hstep : ∀ {s a e t}, R s a → step s e = some t → ∃ b, step' a e = some b ∧ R t b) (ha : R s a)
    (hrun : exec step s es = some t) : ∃ b, exec step' a es = some b ∧ R t b := by
  induction es generalizing s a with
  | nil =>
    cases hrun
    exact ⟨a, rfl, ha⟩
  | cons e es ih =>
    obtain ⟨u, hu, hrun⟩ := exec_cons_eq_some.mp hrun
    obtain ⟨b, hb, hR⟩ := hstep ha hu
    obtain ⟨c, hc, ht⟩ := ih hR hrun
    exact ⟨c, exec_cons_eq_some.mpr ⟨b, hb, hc⟩, ht⟩

/-- What every step that meets `P` keeps holds after every run of such steps. -/
theorem Along.exec_induction
    (hstep : ∀ {s e t}, I s → P s e → step s e = some t → I t) (hs : I s) (hP : Along step P s es)
    (hrun : exec step s es = some t) : I t := by
  induction es generalizing s with
  | nil =>
    cases hrun
    exact hs
  | cons e es ih =>
    obtain ⟨u, hu, hrun⟩ := exec_cons_eq_some.mp hrun
    exact ih (hstep hs hP.1 hu) (hP.2 u hu) hrun

/-- What a step that meets `P` does, from a state that meets the invariant, holds at every step of a run of such steps. -/
theorem Along.of_invariant {Q : σ → ε → Prop}
    (hstep : ∀ {s e t}, I s → P s e → step s e = some t → I t ∧ Q s e) (hs : I s) (hP : Along step P s es)
    (hrun : exec step s es = some t) : Along step Q s es := by
  induction es generalizing s with
  | nil => trivial
  | cons e es ih =>
    obtain ⟨u, hu, hrun⟩ := exec_cons_eq_some.mp hrun
    obtain ⟨hI, hQ⟩ := hstep hs hP.1 hu
    refine ⟨hQ, fun v hv => ?_⟩
    rw [hu] at hv
    cases hv
    exact ih hI (hP.2 u hu) hrun

theorem Along.last {e : ε} (h : Along step P s (es ++ [e])) (hrun : exec step s es = some t) : P t e := by
  induction es generalizing s with
  | nil =>
    cases hrun
    exact h.1
  | cons e' es ih =>
    obtain ⟨u, hu, hrun⟩ := exec_cons_eq_some.mp hrun
    exact ih (h.2 u hu) hrun

/-- A fact that each step decides by what it adds holds after a run exactly if it held before it and every step kept it. -/
theorem exec_iff_along {L : σ → Prop}
    (hstep : ∀ {s e t}, I s → step s e = some t → I t ∧ (L t ↔ L s ∧ P s e)) (hs : I s)
    (hrun : exec step s es = some t) : L t ↔ L s ∧ Along step P s es := by
  induction es generalizing s with
  | nil =>
    cases hrun
    exact (and_iff_left trivial).symm
  | cons e es ih =>
    obtain ⟨u, hu, hrun⟩ := exec_cons_eq_some.mp hrun
    obtain ⟨hI, hL⟩ := hstep hs hu
    rw [ih hI hrun, hL, and_assoc, Along]
    refine and_congr_right fun _ => and_congr_right fun _ => ⟨fun h v hv => ?_, fun h => h u hu⟩
    rw [hu] at hv
    exact Option.some.inj hv ▸ h

end OpcHub.Lib
