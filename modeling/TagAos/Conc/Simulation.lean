import TagAos.Conc.Schedule

/-!
# Simulation

Two systems of threads side by side.  `R s r` says that the state `s` of one stands for the state
`r` of the other.

* `Run.simulate` — if each step of the first has a step of the second beside it, each run has a run
  beside it.
* `Run.simulate_runs` — the same if each step of the first has a run of the second beside it.
* `moves_of_rel` and `exists_moves_of_rel` — two step functions that agree, for decisions of the
  environment that correspond, simulate each other.
-/

set_option autoImplicit false

namespace Conc

variable {σ τ ι : Type*}

/-- **Simulation of a run.** -/
theorem Run.simulate {Step : σ → ι → σ → Prop} {Step' : τ → ι → τ → Prop} {R : σ → τ → Prop}
    (hstep : ∀ s c s' r, R s r → Step s c s' → ∃ r', Step' r c r' ∧ R s' r') {s s' : σ} {r : τ}
    (hr : R s r) (h : Run Step s s') : ∃ r', Run Step' r r' ∧ R s' r' := by
  refine h.invariant (P := fun s' => ∃ r', Run Step' r r' ∧ R s' r')
    ⟨r, RunUnder.refl r, hr⟩ fun u c v hu _ hs => ?_
  obtain ⟨r', hrun, hR⟩ := hu
  obtain ⟨r'', hs', hR'⟩ := hstep u c v r' hR hs
  exact ⟨r'', hrun.step hs', hR'⟩

/-- Simulation of a run, each step by any number of steps. -/
theorem Run.simulate_runs {Step : σ → ι → σ → Prop} {Step' : τ → ι → τ → Prop} {R : σ → τ → Prop}
    (hstep : ∀ s c s' r, R s r → Step s c s' → ∃ r', Run Step' r r' ∧ R s' r') {s s' : σ} {r : τ}
    (hr : R s r) (h : Run Step s s') : ∃ r', Run Step' r r' ∧ R s' r' := by
  refine h.invariant (P := fun s' => ∃ r', Run Step' r r' ∧ R s' r')
    ⟨r, RunUnder.refl r, hr⟩ fun u c v hu _ hs => ?_
  obtain ⟨r', hrun, hR⟩ := hu
  obtain ⟨r'', hrun', hR'⟩ := hstep u c v r' hR hs
  exact ⟨r'', hrun.trans hrun', hR'⟩

section Moves

variable {ο ο' : Type*} {step : σ → ι → ο → Option σ} {step' : τ → ι → ο' → Option τ}
  {R : σ → τ → Prop} {f : ο → ο'} {s s' : σ} {r r' : τ} {c : ι}

/-- A move of the first is one of the second. -/
theorem moves_of_rel (h : ∀ o, Option.Rel R (step s c o) (step' r c (f o)))
    (hs : Moves step s c s') : ∃ r', Moves step' r c r' ∧ R s' r' := by
  obtain ⟨o, ho⟩ := hs
  have hrel := h o
  rw [ho] at hrel
  cases hr : step' r c (f o) with
  | none => rw [hr] at hrel; cases hrel
  | some r' =>
    rw [hr] at hrel
    cases hrel with
    | some hR => exact ⟨r', ⟨f o, hr⟩, hR⟩

/-- A move of the second is one of the first, if every decision has one that corresponds. -/
theorem exists_moves_of_rel (h : ∀ o, Option.Rel R (step s c o) (step' r c (f o)))
    (hf : Function.Surjective f) (hr : Moves step' r c r') :
    ∃ s', Moves step s c s' ∧ R s' r' := by
  obtain ⟨o', ho'⟩ := hr
  obtain ⟨o, rfl⟩ := hf o'
  have hrel := h o
  rw [ho'] at hrel
  cases hs : step s c o with
  | none => rw [hs] at hrel; cases hrel
  | some s' =>
    rw [hs] at hrel
    cases hrel with
    | some hR => exact ⟨s', ⟨o, hs⟩, hR⟩

end Moves

end Conc
