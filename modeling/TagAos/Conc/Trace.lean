import Mathlib.Algebra.Order.Group.Nat
import TagAos.Conc.Schedule

/-!
# Runs, state by state

`Run` only relates the two ends of a run.  What a property says about a moment in between (a thread
*found* a flag set, an event happened *after* a call had begun) is said about the run that was
taken, so the states of that run have to be at hand.  `Trace` keeps them, numbered by moments.

* `Trace.run` and `exists_trace` connect the two forms of a run.
* `Trace.extend` adds a step, and a trace of `n` steps is one of any fewer (`Trace.take`).
* `Trace.simulate` is the simulation rule for traces: each state of the first trace has a state of
  the second beside it, under a relation whose parameter may grow along the trace.
* `Trace.ofSchedule` reads a trace off a schedule.
-/

set_option autoImplicit false

namespace Conc

variable {σ τ ι α : Type*}

/-- A run of `n` steps, state by state. -/
structure Trace (Step : σ → ι → σ → Prop) (Good : σ → ι → Prop) (n : ℕ) where
  /-- The state at each moment up to `n`. -/
  state : ℕ → σ
  /-- The thread that takes the step after each moment before `n`. -/
  mover : ℕ → ι
  good : ∀ k < n, Good (state k) (mover k)
  step : ∀ k < n, Step (state k) (mover k) (state (k + 1))

namespace Trace

variable {Step : σ → ι → σ → Prop} {Good Good' : σ → ι → Prop} {Step' : τ → ι → τ → Prop}
  {Good₂ : τ → ι → Prop} {n : ℕ}

/-- What is between two moments of a trace is a run. -/
theorem run (e : Trace Step Good n) {j k : ℕ} (hjk : j ≤ k) (hk : k ≤ n) :
    RunUnder Step Good (e.state j) (e.state k) := by
  induction k, hjk using Nat.le_induction with
  | base => exact RunUnder.refl _
  | succ k hjk ih =>
    have hlt : k < n := hk
    exact (ih hlt.le).tail (e.good k hlt) (e.step k hlt)

/-- **The invariant rule for traces.**  What holds at one moment and is kept by every later step
holds at every later moment.  What holds may be about the moment itself, so about what has happened
before it. -/
theorem invariant (e : Trace Step Good n) {P : ℕ → Prop} {j : ℕ} (h0 : P j)
    (hstep : ∀ k, j ≤ k → k < n → Good (e.state k) (e.mover k) →
      Step (e.state k) (e.mover k) (e.state (k + 1)) → P k → P (k + 1))
    {k : ℕ} (hjk : j ≤ k) (hk : k ≤ n) : P k := by
  induction k, hjk using Nat.le_induction with
  | base => exact h0
  | succ k hjk ih =>
    have hlt : k < n := hk
    exact hstep k hjk hlt (e.good k hlt) (e.step k hlt) (ih hlt.le)

/-- The first steps of a trace. -/
def take (e : Trace Step Good n) {k : ℕ} (hk : k ≤ n) : Trace Step Good k where
  state := e.state
  mover := e.mover
  good j hj := e.good j (lt_of_lt_of_le hj hk)
  step j hj := e.step j (lt_of_lt_of_le hj hk)

/-- The same steps under a weaker condition. -/
def mono (e : Trace Step Good n) (hg : ∀ s c, Good s c → Good' s c) : Trace Step Good' n where
  state := e.state
  mover := e.mover
  good k hk := hg _ _ (e.good k hk)
  step := e.step

/-- No step at all. -/
def nil (s : σ) (c : ι) : Trace Step Good 0 where
  state _ := s
  mover _ := c
  good _ hk := absurd hk (Nat.not_lt_zero _)
  step _ hk := absurd hk (Nat.not_lt_zero _)

/-- One more step. -/
def extend (e : Trace Step Good n) {c : ι} {s : σ} (hg : Good (e.state n) c)
    (hs : Step (e.state n) c s) : Trace Step Good (n + 1) where
  state k := if k ≤ n then e.state k else s
  mover k := if k < n then e.mover k else c
  good k hk := by
    rcases Nat.lt_succ_iff_lt_or_eq.1 hk with hlt | rfl
    · simpa [hlt, hlt.le] using e.good k hlt
    · simpa using hg
  step k hk := by
    rcases Nat.lt_succ_iff_lt_or_eq.1 hk with hlt | rfl
    · simpa [hlt, hlt.le, Nat.succ_le_of_lt hlt] using e.step k hlt
    · simpa using hs

theorem extend_state_of_le (e : Trace Step Good n) {c : ι} {s : σ} (hg : Good (e.state n) c)
    (hs : Step (e.state n) c s) {k : ℕ} (hk : k ≤ n) : (e.extend hg hs).state k = e.state k :=
  if_pos hk

theorem extend_state_last (e : Trace Step Good n) {c : ι} {s : σ} (hg : Good (e.state n) c)
    (hs : Step (e.state n) c s) : (e.extend hg hs).state (n + 1) = s :=
  if_neg (Nat.not_succ_le_self n)

theorem extend_mover_of_lt (e : Trace Step Good n) {c : ι} {s : σ} (hg : Good (e.state n) c)
    (hs : Step (e.state n) c s) {k : ℕ} (hk : k < n) : (e.extend hg hs).mover k = e.mover k :=
  if_pos hk

theorem extend_mover_last (e : Trace Step Good n) {c : ι} {s : σ} (hg : Good (e.state n) c)
    (hs : Step (e.state n) c s) : (e.extend hg hs).mover n = c :=
  if_neg (lt_irrefl n)

/-- **The simulation rule for traces.**  `R a s t` says that `t` stands beside `s` as far as the
parameter `a` tells.  A step may replace the parameter by one that extends it, as `Ext` says, and
then every pair of states that came before is still related. -/
theorem simulate {R : α → σ → τ → Prop} {Ext : τ → α → α → Prop}
    (hstep : ∀ a s t c s', R a s t → Good s c → Step s c s' →
      ∃ b t', Good₂ t c ∧ Step' t c t' ∧ R b s' t' ∧ Ext t a b)
    (hext : ∀ a b s t u, R a s t → Run Step' t u → Ext u a b → R b s t)
    (e : Trace Step Good n) {a : α} {t : τ} (h0 : R a (e.state 0) t) :
    ∃ (b : α) (f : Trace Step' Good₂ n), f.state 0 = t ∧ (∀ k < n, f.mover k = e.mover k) ∧
      ∀ k ≤ n, R b (e.state k) (f.state k) := by
  induction n with
  | zero =>
    refine ⟨a, nil t (e.mover 0), rfl, fun k hk => absurd hk (Nat.not_lt_zero k), ?_⟩
    rintro k hk
    obtain rfl := Nat.le_zero.1 hk
    exact h0
  | succ n ih =>
    obtain ⟨b, f, hf0, hmover, hR⟩ := ih (e.take n.le_succ) h0
    obtain ⟨b', t', hg, hs, hR', hb⟩ :=
      hstep b _ _ _ _ (hR n le_rfl) (e.good n n.lt_succ_self) (e.step n n.lt_succ_self)
    refine ⟨b', f.extend hg hs, ?_, fun k hk => ?_, fun k hk => ?_⟩
    · rw [extend_state_of_le _ _ _ (Nat.zero_le n), hf0]
    · rcases Nat.lt_succ_iff_lt_or_eq.1 hk with hlt | rfl
      · rw [extend_mover_of_lt _ _ _ hlt]
        exact hmover k hlt
      · exact extend_mover_last ..
    · rcases Nat.le_succ_iff.1 hk with hle | rfl
      · rw [extend_state_of_le _ _ _ hle]
        exact hext b b' _ _ _ (hR k hle) (f.run hle le_rfl).run hb
      · rw [extend_state_last]
        exact hR'

end Trace

variable {Step : σ → ι → σ → Prop} {Good : σ → ι → Prop}

/-- A run has a trace. -/
theorem RunUnder.exists_trace [Inhabited ι] {s t : σ} (h : RunUnder Step Good s t) :
    ∃ (n : ℕ) (e : Trace Step Good n), e.state 0 = s ∧ e.state n = t := by
  induction h with
  | refl => exact ⟨0, .nil s default, rfl, rfl⟩
  | tail _ hst ih =>
    obtain ⟨n, e, h0, rfl⟩ := ih
    obtain ⟨c, hg, hs⟩ := hst
    exact ⟨n + 1, e.extend hg hs, (e.extend_state_of_le hg hs (Nat.zero_le n)).trans h0,
      e.extend_state_last hg hs⟩

section OfSchedule

variable {ο : Type*} {step : σ → ι → ο → Option σ}

/-- Every move of the schedule can be made, in a state that passes the test. -/
def runs (step : σ → ι → ο → Option σ) (ok : σ → ι → Bool) : σ → List (ι × ο) → Bool
  | _, [] => true
  | s, (c, o) :: rest =>
    ok s c && match step s c o with
      | none => false
      | some t => runs step ok t rest

/-- Each move of a schedule that runs is a step. -/
theorem step_of_runs {ok : σ → ι → Bool} {s : σ} {l : List (ι × ο)} (h : runs step ok s l = true)
    {k : ℕ} (hk : k < l.length) :
    ok (after step s (l.take k)) l[k].1 = true ∧
      step (after step s (l.take k)) l[k].1 l[k].2 = some (after step s (l.take (k + 1))) := by
  induction l generalizing s k with
  | nil => exact absurd hk (Nat.not_lt_zero k)
  | cons x rest ih =>
    obtain ⟨c, o⟩ := x
    rw [runs, Bool.and_eq_true] at h
    obtain ⟨hok, hrest⟩ := h
    cases hstep : step s c o with
    | none => rw [hstep] at hrest; cases hrest
    | some t =>
      rw [hstep] at hrest
      cases k with
      | zero => exact ⟨hok, by simp [after, hstep]⟩
      | succ k =>
        have := ih hrest (Nat.lt_of_succ_lt_succ hk)
        simpa [after, hstep] using this

/-- **The trace of a schedule** all of whose moves can be made. -/
def Trace.ofSchedule [Inhabited ι] {ok : σ → ι → Bool} {P : σ → Prop} {s : σ} {l : List (ι × ο)}
    (hok : ∀ s c, P s → ok s c = true → Good s c)
    (hP : ∀ x ∈ l, ∀ s t, P s → step s x.1 x.2 = some t → P t) (hs : P s)
    (h : runs step ok s l = true) : Trace (Moves step) Good l.length where
  state k := after step s (l.take k)
  mover k := if hk : k < l.length then l[k].1 else default
  good k hk := by
    rw [dif_pos hk]
    refine hok _ _ ?_ (step_of_runs h hk).1
    exact after_keeps (fun x hx => hP x (List.mem_of_mem_take hx)) hs
  step k hk := by
    rw [dif_pos hk]
    exact ⟨_, (step_of_runs h hk).2⟩

end OfSchedule

end Conc
