import Mathlib.Data.Nat.Notation
import Mathlib.Logic.Relation
import Mathlib.Logic.Function.Basic
import Mathlib.Data.Set.Defs

/-!
# Runs of threads over a shared memory

A `Config` is a shared memory together with one local state for each thread of an arbitrary
type of thread names.  One step moves one thread: it reads and changes the memory and replaces
that thread's local state.  Everything here is about an arbitrary step relation of that shape.

* `RunUnder Step Good` is the reflexive transitive closure of the steps that are taken from a
  state, by a thread, that meet `Good`; `Run Step` is the same with no condition.
* `RunUnder.invariant` is the rule "holds at first, and every step keeps it".
* `exists_run_of_measure` is the rule "some step lowers a measure until the goal is reached".
* `exists_run_without` leaves threads out of a run, if each of them ran in one go and left the
  memory as it was.
-/

set_option autoImplicit false

namespace Conc

variable {σ ι : Type*}

/-! ## Runs

A run is a sequence of steps, each by some thread and each from a state in which the condition
holds.  An invariant that every step keeps needs no condition; one that a program keeps only as long
as some race does not happen is stated with one. -/

/-- Some thread takes a step, from a state in which `Good` allows it to. -/
def StepUnder (Step : σ → ι → σ → Prop) (Good : σ → ι → Prop) (s s' : σ) : Prop :=
  ∃ c, Good s c ∧ Step s c s'

/-- Any number of steps, each of them allowed by `Good` in the state it is taken from. -/
def RunUnder (Step : σ → ι → σ → Prop) (Good : σ → ι → Prop) : σ → σ → Prop :=
  Relation.ReflTransGen (StepUnder Step Good)

/-- The condition that allows every step. -/
def anyStep : σ → ι → Prop := fun _ _ => True

/-- Any number of steps. -/
abbrev Run (Step : σ → ι → σ → Prop) : σ → σ → Prop := RunUnder Step anyStep

variable {Step : σ → ι → σ → Prop} {Good Good' : σ → ι → Prop} {s t u : σ}

theorem RunUnder.refl (s : σ) : RunUnder Step Good s s := Relation.ReflTransGen.refl

theorem RunUnder.tail {c : ι} (h : RunUnder Step Good s t) (hg : Good t c) (hs : Step t c u) :
    RunUnder Step Good s u :=
  Relation.ReflTransGen.tail h ⟨c, hg, hs⟩

theorem RunUnder.head {c : ι} (hg : Good s c) (hs : Step s c t) (h : RunUnder Step Good t u) :
    RunUnder Step Good s u :=
  Relation.ReflTransGen.head ⟨c, hg, hs⟩ h

theorem RunUnder.trans (h : RunUnder Step Good s t) (h' : RunUnder Step Good t u) :
    RunUnder Step Good s u :=
  Relation.ReflTransGen.trans h h'

/-- A weaker condition allows more runs. -/
theorem RunUnder.mono (hg : ∀ s c, Good s c → Good' s c) (h : RunUnder Step Good s t) :
    RunUnder Step Good' s t := by
  induction h with
  | refl => exact RunUnder.refl s
  | tail _ hst ih =>
    obtain ⟨c, hc, hs⟩ := hst
    exact ih.tail (hg _ c hc) hs

/-- A run under a condition is a run. -/
theorem RunUnder.run (h : RunUnder Step Good s t) : Run Step s t :=
  h.mono fun _ _ _ => trivial

theorem Run.step {c : ι} (h : Run Step s t) (hs : Step t c u) : Run Step s u :=
  RunUnder.tail h trivial hs

theorem Run.single {c : ι} (hs : Step s c t) : Run Step s t :=
  Run.step (RunUnder.refl s) hs

/-- **The invariant rule.**  What holds at first and is kept by every allowed step holds at the
end of every run. -/
theorem RunUnder.invariant {P : σ → Prop} (h : RunUnder Step Good s t) (h0 : P s)
    (hstep : ∀ s c t, P s → Good s c → Step s c t → P t) : P t := by
  induction h with
  | refl => exact h0
  | tail _ hst ih =>
    obtain ⟨c, hg, hs⟩ := hst
    exact hstep _ c _ ih hg hs

/-- The invariant rule when the step lemma also needs to know how the state was reached. -/
theorem RunUnder.invariant_run {P : σ → Prop} (h : RunUnder Step Good s t) (h0 : P s)
    (hstep : ∀ u c v, RunUnder Step Good s u → P u → Good u c → Step u c v → P v) : P t := by
  induction h with
  | refl => exact h0
  | tail hr hst ih =>
    obtain ⟨c, hg, hs⟩ := hst
    exact hstep _ c _ hr ih hg hs

/-- **The rule of the falling measure.**  If from every state that is not done yet some allowed step
leads to a state with a lower measure, some run leads to a state that is done.  The measure is a
relation, so that a state may have several. -/
theorem exists_run_of_measure {M : σ → ℕ → Prop} {Done : σ → Prop}
    (hstep : ∀ s n, M s n → Done s ∨ ∃ c s' m, Good s c ∧ Step s c s' ∧ M s' m ∧ m < n)
    {n : ℕ} (hs : M s n) : ∃ s', RunUnder Step Good s s' ∧ Done s' := by
  induction n using Nat.strongRecOn generalizing s with
  | ind n ih =>
    rcases hstep s n hs with hdone | ⟨c, t, m, hg, hst, hm, hlt⟩
    · exact ⟨s, RunUnder.refl s, hdone⟩
    · obtain ⟨s', hr, hdone⟩ := ih m hlt hm
      exact ⟨s', RunUnder.head hg hst hr, hdone⟩

/-! ## Threads over a shared memory

The states of a system of threads: a shared memory, and for each thread where it is. -/

/-- A shared memory and the local state of every thread. -/
structure Config (ι μ π : Type*) where
  /-- The shared memory. -/
  mem : μ
  /-- The local state of each thread. -/
  thread : ι → π

namespace Config

variable {μ π : Type*} [DecidableEq ι]

/-- The configuration after thread `c` has moved to the local state `p` and left the memory
`m` behind. -/
def set (s : Config ι μ π) (c : ι) (m : μ) (p : π) : Config ι μ π :=
  ⟨m, Function.update s.thread c p⟩

variable (s : Config ι μ π) (c : ι) (m : μ) (p : π)

@[simp] theorem set_mem : (s.set c m p).mem = m := rfl

@[simp] theorem set_thread_self : (s.set c m p).thread c = p := Function.update_self ..

@[simp] theorem set_thread_of_ne {d : ι} (h : d ≠ c) : (s.set c m p).thread d = s.thread d :=
  Function.update_of_ne h ..

theorem set_thread (d : ι) : (s.set c m p).thread d = if d = c then p else s.thread d :=
  Function.update_apply ..

@[simp] theorem set_set (m' : μ) (p' : π) : (s.set c m p).set c m' p' = s.set c m' p' := by
  simp [set]

@[simp] theorem set_self : s.set c s.mem (s.thread c) = s := by simp [set]

end Config

/-! ## Threads that can be left out

If what one thread does cannot be seen by the others, the others have the same run without it. -/

section LeaveOut

variable {μ π : Type*} [DecidableEq ι] {Step : Config ι μ π → ι → Config ι μ π → Prop}

/-- A step reads and changes the memory and the local state of its thread, and nothing else. -/
structure Local (Step : Config ι μ π → ι → Config ι μ π → Prop) : Prop where
  frame : ∀ {s s' : Config ι μ π} {c d : ι}, Step s c s' → d ≠ c → s'.thread d = s.thread d
  replay : ∀ {s s' t : Config ι μ π} {c : ι}, Step s c s' → t.mem = s.mem →
    t.thread c = s.thread c → Step t c (t.set c s'.mem (s'.thread c))

/-- A step of a thread outside of `U`, or all that a thread of `U` does, at once. -/
inductive Apart (Step : Config ι μ π → ι → Config ι μ π → Prop)
    (Whole : Config ι μ π → ι → Config ι μ π → Prop) (U : Set ι) (s : Config ι μ π) (c : ι)
    (s' : Config ι μ π) : Prop
  | step (hc : c ∉ U) (h : Step s c s')
  | whole (hc : c ∈ U) (h : Whole s c s')

/-- **Threads that leave no trace can be left out of a run**: the others do not see the
difference. -/
theorem exists_run_without {Whole : Config ι μ π → ι → Config ι μ π → Prop} {U : Set ι}
    (hlocal : Local Step) {P : Config ι μ π → Prop}
    (hstep : ∀ s c s', P s → Step s c s' → P s')
    (hwhole : ∀ s c s', P s → Whole s c s' →
      P s' ∧ s'.mem = s.mem ∧ ∀ d, d ≠ c → s'.thread d = s.thread d)
    {s₀ s : Config ι μ π} (h0 : P s₀) (h : Run (Apart Step Whole U) s₀ s) :
    ∃ t, RunUnder Step (fun _ c => c ∉ U) s₀ t ∧ t.mem = s.mem ∧
      ∀ c, c ∉ U → t.thread c = s.thread c := by
  suffices hs : P s ∧ ∃ t, RunUnder Step (fun _ c => c ∉ U) s₀ t ∧ t.mem = s.mem ∧
      ∀ c, c ∉ U → t.thread c = s.thread c from hs.2
  refine h.invariant (P := fun s => P s ∧ ∃ t, RunUnder Step (fun _ c => c ∉ U) s₀ t ∧
    t.mem = s.mem ∧ ∀ c, c ∉ U → t.thread c = s.thread c)
    ⟨h0, s₀, RunUnder.refl s₀, rfl, fun _ _ => rfl⟩ fun s c s' hp _ hs => ?_
  obtain ⟨hP, t, hr, hmem, hthread⟩ := hp
  cases hs with
  | step hc h =>
    refine ⟨hstep s c s' hP h, t.set c s'.mem (s'.thread c),
      hr.tail hc (hlocal.replay h hmem (hthread c hc)), rfl, fun d hd => ?_⟩
    by_cases hdc : d = c
    · subst hdc; rw [Config.set_thread_self]
    · rw [Config.set_thread_of_ne _ _ _ _ hdc, hlocal.frame h hdc]
      exact hthread d hd
  | whole hc h =>
    obtain ⟨hP', hmem', hthread'⟩ := hwhole s c s' hP h
    refine ⟨hP', t, hr, hmem.trans hmem'.symm, fun d hd => ?_⟩
    have hdc : d ≠ c := by
      rintro rfl
      exact hd hc
    exact (hthread d hd).trans (hthread' d hdc).symm

end LeaveOut
end Conc
