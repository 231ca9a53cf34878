import TagAos.Conc.Run

/-!
# Schedules

A step function `step s c o` moves the thread `c` when the environment decides `o`; `none` means
that the thread cannot move so.  A schedule says who moves and what the environment decides, so
running one is a computation, and `after` carries it out.  The results here turn such a
computation into a run of the relation `Moves step`, or of `MovesWithin allowed step` when the
environment is not allowed to decide anything at any time.
-/

set_option autoImplicit false

namespace Conc

variable {σ ι ο : Type*} {step : σ → ι → ο → Option σ}

/-- Some move of the thread `c`. -/
def Moves (step : σ → ι → ο → Option σ) (s : σ) (c : ι) (s' : σ) : Prop :=
  ∃ o, step s c o = some s'

/-- Some move of the thread `c` that the environment is allowed to make. -/
def MovesWithin (allowed : σ → ι → ο → Prop) (step : σ → ι → ο → Option σ) (s : σ) (c : ι)
    (s' : σ) : Prop :=
  ∃ o, allowed s c o ∧ step s c o = some s'

/-- Run a schedule.  A thread that cannot move is passed over. -/
def after (step : σ → ι → ο → Option σ) : σ → List (ι × ο) → σ
  | s, [] => s
  | s, (c, o) :: rest => after step ((step s c o).getD s) rest

/-- A test of every state a schedule goes through, with the thread that moves there. -/
def passes (step : σ → ι → ο → Option σ) (ok : σ → ι → Bool) : σ → List (ι × ο) → Bool
  | _, [] => true
  | s, (c, o) :: rest => ok s c && passes step ok ((step s c o).getD s) rest

/-- **A schedule all of whose states pass a test** is a run under what the test is for.  The test
may rely on an invariant of the moves of the schedule. -/
theorem runUnder_after {Good : σ → ι → Prop} {ok : σ → ι → Bool} {P : σ → Prop} {s : σ}
    {l : List (ι × ο)} (hok : ∀ s c, P s → ok s c = true → Good s c)
    (hP : ∀ x ∈ l, ∀ s t, P s → step s x.1 x.2 = some t → P t) (hs : P s)
    (h : passes step ok s l = true) : RunUnder (Moves step) Good s (after step s l) := by
  induction l generalizing s with
  | nil => exact RunUnder.refl s
  | cons x rest ih =>
    obtain ⟨c, o⟩ := x
    have hrest : ∀ y ∈ rest, ∀ s t, P s → step s y.1 y.2 = some t → P t :=
      fun y hy => hP y (List.mem_cons_of_mem _ hy)
    simp only [passes, Bool.and_eq_true] at h
    rw [after]
    cases hstep : step s c o with
    | none =>
      rw [hstep] at h
      exact ih hrest hs h.2
    | some t =>
      rw [hstep] at h
      have ht : P t := hP (c, o) (by simp) s t hs hstep
      exact RunUnder.head (hok s c hs h.1) ⟨o, hstep⟩ (ih hrest ht h.2)

theorem run_after (s : σ) (l : List (ι × ο)) : Run (Moves step) s (after step s l) := by
  have hpass : ∀ s : σ, passes step (fun _ _ => true) s l = true := by
    induction l with
    | nil => exact fun s => rfl
    | cons x rest ih => exact fun s => by rw [passes, ih, Bool.and_true]
  exact runUnder_after (P := fun _ => True) (fun _ _ _ _ => trivial)
    (fun _ _ _ _ _ _ => trivial) trivial (hpass s)

theorem MovesWithin.moves {allowed : σ → ι → ο → Prop} {s s' : σ} {c : ι}
    (h : MovesWithin allowed step s c s') : Moves step s c s' := by
  obtain ⟨o, -, ho⟩ := h
  exact ⟨o, ho⟩

theorem run_of_within {allowed : σ → ι → ο → Prop} {s t : σ}
    (h : Run (MovesWithin allowed step) s t) : Run (Moves step) s t :=
  h.invariant (RunUnder.refl s) fun _ _ _ hu _ hs => hu.step hs.moves

/-- A test of every move of a schedule. -/
def obeys (step : σ → ι → ο → Option σ) (ok : σ → ι → ο → Bool) : σ → List (ι × ο) → Bool
  | _, [] => true
  | s, (c, o) :: rest => ok s c o && obeys step ok ((step s c o).getD s) rest

/-- A schedule whose moves are allowed is a run of such moves. -/
theorem within_after {allowed : σ → ι → ο → Prop} {ok : σ → ι → ο → Bool} {s : σ}
    {l : List (ι × ο)} (hok : ∀ s c o, ok s c o = true → allowed s c o)
    (h : obeys step ok s l = true) : Run (MovesWithin allowed step) s (after step s l) := by
  induction l generalizing s with
  | nil => exact RunUnder.refl s
  | cons x rest ih =>
    obtain ⟨c, o⟩ := x
    simp only [obeys, Bool.and_eq_true] at h
    rw [after]
    cases hstep : step s c o with
    | none => rw [hstep] at h; exact ih h.2
    | some t =>
      rw [hstep] at h
      exact RunUnder.head trivial ⟨o, hok s c o h.1, hstep⟩ (ih h.2)

/-- What every move of a schedule keeps holds at its end. -/
theorem after_keeps {P : σ → Prop} {s : σ} {l : List (ι × ο)}
    (hP : ∀ x ∈ l, ∀ s t, P s → step s x.1 x.2 = some t → P t) (hs : P s) :
    P (after step s l) := by
  induction l generalizing s with
  | nil => exact hs
  | cons x rest ih =>
    rw [after]
    refine ih (fun y hy => hP y (List.mem_cons_of_mem _ hy)) ?_
    cases hstep : step s x.1 x.2 with
    | none => exact hs
    | some t => exact hP x (by simp) s t hs hstep

end Conc
