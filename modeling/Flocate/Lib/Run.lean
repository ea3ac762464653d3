import Mathlib.Tactic.Ring

/-!
# Runs of a partial step function

`step s e` is the state after event `e`, if `e` can happen in `s`. What every step preserves holds
after every run.
-/

namespace Run

variable {σ ε : Type*}

def run (step : σ → ε → Option σ) : σ → List ε → Option σ
  | s, [] => some s
  | s, e :: es => (step s e).bind fun s => run step s es

theorem invariant {step : σ → ε → Option σ} {Inv : σ → Prop}
    (hstep : ∀ s e s', Inv s → step s e = some s' → Inv s') {s s' : σ} {es : List ε}
    (hs : Inv s) (h : run step s es = some s') : Inv s' := by
  induction es generalizing s with
  | nil => exact Option.some.inj h ▸ hs
  | cons e es ih =>
      rw [run, Option.bind_eq_some_iff] at h
      obtain ⟨s₁, h₁, h⟩ := h
      exact ih (hstep s e s₁ hs h₁) h

/-- Every event of a run meets a condition in the state in which it happens. -/
def Meets (step : σ → ε → Option σ) (P : σ → ε → Prop) : σ → List ε → Prop
  | _, [] => True
  | s, e :: es => P s e ∧ ∀ s', step s e = some s' → Meets step P s' es

theorem meets_cons {step : σ → ε → Option σ} {P : σ → ε → Prop} {s s' : σ} {e : ε} {es : List ε}
    (h : step s e = some s') : Meets step P s (e :: es) ↔ P s e ∧ Meets step P s' es := by
  rw [Meets, h]
  exact and_congr_right' ⟨fun hall => hall s' rfl, fun hs' _ heq => Option.some.inj heq ▸ hs'⟩

theorem invariant_of_meets {step : σ → ε → Option σ} {P : σ → ε → Prop} {Inv : σ → Prop}
    (hstep : ∀ s e s', Inv s → P s e → step s e = some s' → Inv s') {s s' : σ} {es : List ε}
    (hs : Inv s) (hmeets : Meets step P s es) (h : run step s es = some s') : Inv s' := by
  induction es generalizing s with
  | nil => exact Option.some.inj h ▸ hs
  | cons e es ih =>
      rw [run, Option.bind_eq_some_iff] at h
      obtain ⟨s₁, h₁, h⟩ := h
      exact ih (hstep s e s₁ hs hmeets.1 h₁) (hmeets.2 s₁ h₁) h

/-- Steps that make a measure smaller bound the length of a run. -/
theorem length_le {step : σ → ε → Option σ} {Inv : σ → Prop} (μ : σ → ℕ)
    (hstep : ∀ s e s', Inv s → step s e = some s' → Inv s' ∧ μ s' < μ s) {s s' : σ} {es : List ε}
    (hs : Inv s) (h : run step s es = some s') : es.length + μ s' ≤ μ s := by
  induction es generalizing s with
  | nil =>
      exact Nat.le_of_eq ((Nat.zero_add _).trans (congrArg μ (Option.some.inj h).symm))
  | cons e es ih =>
      rw [run, Option.bind_eq_some_iff] at h
      obtain ⟨s₁, h₁, h⟩ := h
      obtain ⟨hs₁, hlt⟩ := hstep s e s₁ hs h₁
      have hle := ih hs₁ h
      rw [List.length_cons]
      omega

/-- If some step makes a measure smaller wherever a run has not ended, there is a run that ends. -/
theorem exists_ended {step : σ → ε → Option σ} {Ended : σ → Prop} (μ : σ → ℕ)
    (hstep : ∀ s, ¬Ended s → ∃ e s', step s e = some s' ∧ μ s' < μ s) (s : σ) :
    ∃ es s', run step s es = some s' ∧ Ended s' := by
  induction hn : μ s using Nat.strongRecOn generalizing s with
  | ind n ih =>
      by_cases hend : Ended s
      · exact ⟨[], s, rfl, hend⟩
      · obtain ⟨e, s₁, h₁, hlt⟩ := hstep s hend
        obtain ⟨es, s', hrun, hended⟩ := ih (μ s₁) (hn ▸ hlt) s₁ rfl
        exact ⟨e :: es, s', by rw [run, h₁, Option.bind_some, hrun], hended⟩

/-- What steps cost is paid for by a potential and by what other steps bring in. -/
theorem cost_le {step : σ → ε → Option σ} (Inv : σ → Prop) (μ : σ → ℕ) (cost credit : ε → ℕ)
    (hstep : ∀ s e s', Inv s → step s e = some s' → Inv s' ∧ cost e + μ s' ≤ μ s + credit e)
    {s s' : σ} {es : List ε} (hs : Inv s) (h : run step s es = some s') :
    (es.map cost).sum + μ s' ≤ μ s + (es.map credit).sum := by
  induction es generalizing s with
  | nil =>
      obtain rfl := Option.some.inj h
      exact Nat.le_of_eq (Nat.add_comm _ _)
  | cons e es ih =>
      rw [run, Option.bind_eq_some_iff] at h
      obtain ⟨s₁, h₁, h⟩ := h
      obtain ⟨hs₁, hle₁⟩ := hstep s e s₁ hs h₁
      have hle := ih hs₁ h
      rw [List.map_cons, List.map_cons, List.sum_cons, List.sum_cons]
      omega

end Run
