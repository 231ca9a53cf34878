import TagAos.Tag.Ownership
import Mathlib.Algebra.BigOperators.Group.Finset.Basic
import Mathlib.Algebra.Order.BigOperators.Group.Finset

/-!
# Calls that hold a lock can go on

A call that holds a `level_lock` or an `rcu_lock` has a bounded number of operations in front of
it until it has released both, or waits for a message.  `rest` is such a bound; it goes down in
every operation the call performs.  The operations in question can block, but not for ever:
`Inv.progress` finds among the calls with something left to do one that can take a step, without a
signal.  Together they give `exists_all_rest`: the calls that hold locks can run, on their own, to
the point where none is left that has something to release.
-/

set_option autoImplicit false

namespace TagAos

open Conc

/-! ## Calm steps

A signal may interrupt a wait, but progress must not depend on one. -/

/-- A step that no signal has a part in. -/
def CalmStep (s : State) (e : CallId) (s' : State) : Prop :=
  ∃ o, o ≠ .signal ∧ step s e o = some s'

theorem CalmStep.step {s s' : State} {e : CallId} (h : CalmStep s e s') : Step s e s' := by
  obtain ⟨o, -, ho⟩ := h
  exact ⟨o, ho⟩

/-- The calls that have begun, apart from `c`. -/
def Others (c : CallId) (s : State) (e : CallId) : Prop :=
  e ≠ c ∧ (s.thread e).inFlight = true

/-- A run without signals of calls that have begun, in which `c` does not move. -/
abbrev RunOthers (c : CallId) : State → State → Prop := RunUnder CalmStep (Others c)

theorem RunOthers.run {c : CallId} {s s' : State} (h : RunOthers c s s') : Run Step s s' := by
  refine h.invariant (P := fun u => Run Step s u) (RunUnder.refl s) fun u e v hu _ hs => ?_
  exact hu.step hs.step

/-! ## Operations that can block

Only the acquisition of a semaphore and the sleep can keep a call at a point.  Everything else can
be performed in every state. -/

namespace Instr

variable {π ρ : Type}

/-- The semaphore an operation may have to wait for. -/
def acquires : Instr π → Option (Sem × Mode)
  | downRead l _ _ => some (l, .read)
  | downWrite l _ _ => some (l, .write)
  | _ => none

/-- The operation sleeps, or there is none. -/
def stops : Instr π → Bool
  | schedule _ _ | ret => true
  | _ => false

/-- An operation that neither acquires a semaphore nor sleeps can always be performed. -/
theorem exec_isSome (c : CallId) (m : Mem) {i : Instr π} (ha : i.acquires = none)
    (hs : i.stops = false) : ∃ o, o ≠ .signal ∧ (exec c m i o).isSome = true := by
  cases i
  case downRead => cases ha
  case downWrite => cases ha
  case schedule => cases hs
  case ret => cases hs
  case copyFromUser a data n ok fault =>
    by_cases hn : n ≤ data.length
    · exact ⟨.go, by simp, by simp [exec, hn]⟩
    · exact ⟨.fault data.length, by simp, by simp [exec]; omega⟩
  case tryWrite l ok busy =>
    refine ⟨.go, by simp, ?_⟩
    rw [exec]
    split <;> rfl
  case tryMutex a ok busy =>
    refine ⟨.go, by simp, ?_⟩
    rw [exec]
    split <;> rfl
  case loadLevel i null found =>
    refine ⟨.go, by simp, ?_⟩
    rw [exec]
    split <;> rfl
  all_goals exact ⟨.go, by simp, rfl⟩

end Instr

/-- The semaphore the call is waiting for, if it cannot be had at once. -/
theorem calmStep_of_code {s : State} {e : CallId} (hs : (s.thread e).code.stops = false)
    (ha : ∀ l md, (s.thread e).code.acquires = some (l, md) →
      (md = .read → (s.mem.sem l).downRead e ≠ none) ∧
      (md = .write → (s.mem.sem l).downWrite e ≠ none)) : ∃ s', CalmStep s e s' := by
  have hex : ∃ o, o ≠ .signal ∧ (exec e s.mem (s.thread e).code o).isSome = true := by
    cases hc : (s.thread e).code.acquires with
    | none => exact Instr.exec_isSome e s.mem hc hs
    | some x =>
      obtain ⟨l, md⟩ := x
      obtain ⟨hr, hw⟩ := ha l md hc
      cases hi : (s.thread e).code
      case downRead l' ok intr =>
        rw [hi] at hc
        cases hc
        exact ⟨.go, by simp, by simpa [exec, Option.isSome_iff_ne_none] using hr rfl⟩
      case downWrite l' ok intr =>
        rw [hi] at hc
        cases hc
        exact ⟨.go, by simp, by simpa [exec, Option.isSome_iff_ne_none] using hw rfl⟩
      all_goals rw [hi] at hc; cases hc
  obtain ⟨o, ho, hsome⟩ := hex
  obtain ⟨⟨m, p⟩, hmp⟩ := Option.isSome_iff_exists.1 hsome
  exact ⟨s.set e m p, o, ho, by simp [step, hmp]⟩

/-! ## What is left to do

How far a call is from having released what it holds inside of the tag, or from its wait. -/

/-- A bound on the operations of a receiver until it holds no `level_lock` and no `rcu_lock`, or
queues itself for a message. -/
def ReceiveState.rest : ReceiveState → ℕ
  | start | loadTag | checkPerm | lockLevel | prepare _ | condReady _ _ | condTagReady _ _
  | sleep _ | tryLock _ _ | unlockTag _ | done _ => 0
  | loadLevel => 27
  | enter _ => 26
  | lockRcu _ => 25
  | unlockLevel _ => 24
  | testReady _ => 23
  | lockLevelWrite _ => 22
  | reloadLevel _ => 21
  | retestReady _ _ => 20
  | readEpoch _ _ => 19
  | create _ _ _ => 18
  | install _ _ _ => 17
  | unlockOld _ _ _ => 16
  | lockNew _ _ => 15
  | unlockLevelWrite _ => 14
  | register _ => 13
  | waitReady _ => 12
  | waitTagReady _ | finish _ => 11
  | codeTagReady _ | loadNew _ _ => 10
  | codeReady _ | cmpEpoch _ _ _ => 9
  | recheck _ | resetReady _ _ => 8
  | readSize _ | resetSize _ _ => 7
  | copy _ _ | wipeSize _ _ => 6
  | unlockRcu _ _ | unlockFree _ _ | wipe _ _ _ | rollback _ => 5
  | leaveLevel _ _ | free _ _ | unlockReset _ _ | unlockLevelError _ _ => 4
  | leave _ _ => 3
  | clear _ _ => 2
  | release _ _ => 1

/-- The same for a sender. -/
def SendState.rest : SendState → ℕ
  | loadLevel => 12
  | lockRcu _ => 11
  | unlockLevel _ => 10
  | lockMutex _ => 9
  | testReady _ => 8
  | testWaiting _ => 7
  | copy _ => 6
  | setSize _ => 5
  | setReady _ => 4
  | unlockMutex _ _ => 3
  | wake _ => 2
  | unlockRcu _ _ | unlockLevelNull | unlockLevelIntr | faultUnlockRcu _ => 1
  | _ => 0

/-- The same for an `AWAKE_ALL` command. -/
def AwakeState.rest : AwakeState → ℕ
  | loadLevel _ => 6
  | lockRcu _ _ => 5
  | testWaiting _ _ => 4
  | wake _ _ => 3
  | unlockRcu _ _ => 2
  | unlockLevel _ | unlockLevelIntr _ => 1
  | _ => 0

/-- A bound on the operations of a call until it holds no `level_lock` and no `rcu_lock`, or
queues itself for a message. -/
def Thread.rest : Thread → ℕ
  | receive _ p => p.rest
  | send _ p => p.rest
  | awake _ p => p.rest

theorem Thread.inFlight_of_rest {t : Thread} (h : 0 < t.rest) : t.inFlight = true := by
  cases t with
  | receive a p => cases p <;> first | rfl | exact absurd h (lt_irrefl 0)
  | send b p => cases p <;> first | rfl | exact absurd h (lt_irrefl 0)
  | awake e p => cases p <;> first | rfl | exact absurd h (lt_irrefl 0)

section Step

variable {c : CallId} {m m' : Mem}

theorem ReceiveState.rest_lt {a : ReceiveArgs} {q q' : ReceiveState}
    (hx : Exec c m (receiveCode a q) m' q') (hq : 0 < q.rest) : q'.rest < q.rest := by
  cases q
  case readSize l =>
    cases hx
    rw [afterSize]
    split <;> simp [rest]
  case leave rel r => cases hx <;> cases rel <;> simp [afterLeave, rest]
  case clear rel r => cases hx; cases rel <;> simp [afterLeave, rest]
  case release rel r => cases rel <;> cases hx <;> simp [rest]
  all_goals first | exact absurd hq (lt_irrefl 0) | (cases hx <;> simp [rest])

theorem SendState.rest_lt {b : SendArgs} {q q' : SendState}
    (hx : Exec c m (sendCode b q) m' q') (hq : 0 < q.rest) : q'.rest < q.rest := by
  cases q
  case testWaiting l =>
    cases hx
    beta_reduce
    split_ifs <;> simp [rest]
  case unlockMutex l rc =>
    cases hx
    split <;> simp [rest]
  all_goals first | exact absurd hq (lt_irrefl 0) | (cases hx <;> simp [rest])

theorem AwakeState.rest_lt {e : ℕ} {q q' : AwakeState}
    (hx : Exec c m (awakeCode e q) m' q') (hq : 0 < q.rest) : q'.rest < q.rest := by
  cases q
  case testWaiting i l =>
    cases hx
    beta_reduce
    split <;> simp [rest]
  case unlockLevel i =>
    cases hx
    split <;> simp [rest]
  all_goals first | exact absurd hq (lt_irrefl 0) | (cases hx <;> simp [rest])

end Step

/-- Every operation of a call with something left to do leaves it with less. -/
theorem Step.rest_lt {s s' : State} {e : CallId} (hs : Step s e s')
    (he : 0 < (s.thread e).rest) : (s'.thread e).rest < (s.thread e).rest := by
  cases ht : s.thread e with
  | receive a q =>
    rw [ht] at he
    obtain ⟨m, q', hx, rfl⟩ := hs.receive ht
    rw [Config.set_thread_self]
    exact ReceiveState.rest_lt hx he
  | send b q =>
    rw [ht] at he
    obtain ⟨m, q', hx, rfl⟩ := hs.send ht
    rw [Config.set_thread_self]
    exact SendState.rest_lt hx he
  | awake u q =>
    rw [ht] at he
    obtain ⟨m, q', hx, rfl⟩ := hs.awake ht
    rw [Config.set_thread_self]
    exact AwakeState.rest_lt hx he

/-! ## Who waits for whom

A call that holds a `level_lock` waits for an `rcu_lock` at most, and who holds an `rcu_lock` for
writing waits for nothing; so the waits inside of a tag are two steps long. -/

/-- A call with something left to do waits for an `rcu_lock` to read it or for a `level_lock` to
write it, or it does not wait at all. -/
theorem Thread.rest_code {t : Thread} (h : 0 < t.rest) :
    t.code.stops = false ∧ (t.code.acquires = none ∨ (∃ x, t.code.acquires = some (.rcu x, .read)) ∨
      ∃ i, t.code.acquires = some (.level i, .write)) := by
  cases t with
  | receive a p =>
    cases p
    case release rel r => cases rel <;> exact ⟨rfl, .inl rfl⟩
    case lockRcu l => exact ⟨rfl, .inr (.inl ⟨l, rfl⟩)⟩
    case lockNew l old => exact ⟨rfl, .inr (.inl ⟨l, rfl⟩)⟩
    case lockLevelWrite l => exact ⟨rfl, .inr (.inr ⟨_, rfl⟩)⟩
    all_goals first | exact absurd h (lt_irrefl 0) | exact ⟨rfl, .inl rfl⟩
  | send b p =>
    cases p
    case lockRcu l => exact ⟨rfl, .inr (.inl ⟨l, rfl⟩)⟩
    all_goals first | exact absurd h (lt_irrefl 0) | exact ⟨rfl, .inl rfl⟩
  | awake e p =>
    cases p
    case lockRcu i l => exact ⟨rfl, .inr (.inl ⟨l, rfl⟩)⟩
    all_goals first | exact absurd h (lt_irrefl 0) | exact ⟨rfl, .inl rfl⟩

/-- A writer of an `rcu_lock` has something left to do and waits for nothing. -/
theorem Thread.rest_of_rcu_write {t : Thread} {x : Addr} (h : (Sem.rcu x, .write) ∈ t.ann.held) :
    0 < t.rest ∧ t.code.acquires = none := by
  cases t with
  | receive a p =>
    cases p
    case release rel r =>
      cases rel
      case rcuWrite y => exact ⟨Nat.one_pos, rfl⟩
      all_goals simp [ann, ReceiveState.ann, Release.held] at h
    all_goals first
      | (simp [ann, ReceiveState.ann] at h; done)
      | exact ⟨Nat.succ_pos _, rfl⟩
  | send b p => cases p <;> simp [ann, SendState.ann] at h
  | awake e p => cases p <;> simp [ann, AwakeState.ann] at h

/-- A holder of a `level_lock` has something left to do and does not wait for a `level_lock`. -/
theorem Thread.rest_of_level {t : Thread} {i : ℕ} {md : Mode}
    (h : (Sem.level i, md) ∈ t.ann.held) :
    0 < t.rest ∧ ∀ j md', t.code.acquires ≠ some (.level j, md') := by
  cases t with
  | receive a p =>
    cases p
    case release rel r =>
      cases rel
      case level => exact ⟨Nat.one_pos, fun j md' hc => by cases hc⟩
      all_goals simp [ann, ReceiveState.ann, Release.held] at h
    all_goals first
      | (simp [ann, ReceiveState.ann] at h; done)
      | exact ⟨Nat.succ_pos _, fun j md' hc => by cases hc⟩
  | send b p =>
    cases p
    all_goals first
      | (simp [ann, SendState.ann] at h; done)
      | exact ⟨Nat.succ_pos _, fun j md' hc => by cases hc⟩
  | awake e p =>
    cases p
    all_goals first
      | (simp [ann, AwakeState.ann] at h; done)
      | exact ⟨Nat.succ_pos _, fun j md' hc => by cases hc⟩

section Progress

variable {s : State} {e : CallId} {x : Addr}

/-- A call with something left to do that waits for nothing can go on. -/
theorem calmStep_of_rest (he : 0 < (s.thread e).rest)
    (ha : (s.thread e).code.acquires = none) : ∃ s', CalmStep s e s' :=
  calmStep_of_code (Thread.rest_code he).1 fun l md h => by rw [ha] at h; cases h

/-- A call that waits to read an `rcu_lock` can go on, or the writer of that lock can. -/
theorem Inv.progress_rcu (h : Inv s.mem s.anns) (he : 0 < (s.thread e).rest)
    (ha : (s.thread e).code.acquires = some (.rcu x, .read)) :
    ∃ f s', 0 < (s.thread f).rest ∧ CalmStep s f s' := by
  by_cases hd : (s.mem.sem (.rcu x)).downRead e = none
  · obtain ⟨w, hw⟩ := RwSem.downRead_eq_none hd
    obtain ⟨hpos, hnone⟩ := Thread.rest_of_rcu_write ((h.sem _ w .write).1 hw)
    obtain ⟨s', hs⟩ := calmStep_of_rest hpos hnone
    exact ⟨w, s', hpos, hs⟩
  · obtain ⟨s', hs⟩ := calmStep_of_code (Thread.rest_code he).1 fun l md hl => by
      rw [ha] at hl
      cases hl
      exact ⟨fun _ => hd, fun hmd => by cases hmd⟩
    exact ⟨e, s', he, hs⟩

/-- **Whoever has something left to do, somebody can go on**, and has something left to do as
well. -/
theorem Inv.progress (h : Inv s.mem s.anns) (he : 0 < (s.thread e).rest) :
    ∃ f s', 0 < (s.thread f).rest ∧ CalmStep s f s' := by
  rcases (Thread.rest_code he).2 with ha | ⟨x, ha⟩ | ⟨i, ha⟩
  · obtain ⟨s', hs⟩ := calmStep_of_rest he ha
    exact ⟨e, s', he, hs⟩
  · exact h.progress_rcu he ha
  · by_cases hd : (s.mem.sem (.level i)).downWrite e = none
    · -- the holders of the level do not wait for a level in turn
      obtain ⟨f, md, hf⟩ := RwSem.downWrite_eq_none hd
      obtain ⟨hpos, hlevel⟩ := Thread.rest_of_level ((h.sem _ f md).1 hf)
      rcases (Thread.rest_code hpos).2 with ha' | ⟨x, ha'⟩ | ⟨j, ha'⟩
      · obtain ⟨s', hs⟩ := calmStep_of_rest hpos ha'
        exact ⟨f, s', hpos, hs⟩
      · exact h.progress_rcu hpos ha'
      · exact absurd ha' (hlevel j .write)
    · obtain ⟨s', hs⟩ := calmStep_of_code (Thread.rest_code he).1 fun l md hl => by
        rw [ha] at hl
        cases hl
        exact ⟨fun hmd => (by cases hmd), fun _ => hd⟩
      exact ⟨e, s', he, hs⟩

end Progress

theorem Thread.rest_of_idle {t : Thread} (h : t.idle = true) : t.rest = 0 := by
  by_contra hne
  have := Thread.inFlight_of_rest (Nat.pos_of_ne_zero hne)
  simp [Thread.inFlight, h] at this

/-- **The calls that hold locks can run on.**  From every reachable state some run without
signals, in which no call begins and a call `c` that has nothing to release does not move, leads
to a state in which no call has anything left to do. -/
theorem Reachable.exists_all_rest {s : State} (h : Reachable s) {c : CallId}
    (hc : (s.thread c).rest = 0) :
    ∃ s', RunOthers c s s' ∧ ∀ e, (s'.thread e).rest = 0 := by
  obtain ⟨S, hS⟩ := h.begun
  have hout : ∀ e, e ∉ S → (s.thread e).rest = 0 := fun e he => Thread.rest_of_idle (hS e he)
  clear hS
  -- by induction on what all calls together have left to do
  generalize hn : ∑ e ∈ S, (s.thread e).rest = n
  induction n using Nat.strong_induction_on generalizing s with
  | _ n ih =>
    by_cases hall : ∀ e, (s.thread e).rest = 0
    · exact ⟨s, RunUnder.refl s, hall⟩
    · obtain ⟨e, he⟩ := not_forall.1 hall
      obtain ⟨f, t, hf, hs⟩ := h.inv.progress (Nat.pos_of_ne_zero he)
      have hfc : f ≠ c := by
        rintro rfl
        rw [hc] at hf; exact lt_irrefl 0 hf
      have hfS : f ∈ S := by
        by_contra hfS
        rw [hout f hfS] at hf; exact lt_irrefl 0 hf
      have hne : ∀ g, g ≠ f → t.thread g = s.thread g := fun g hg => hs.step.thread_of_ne hg
      have hlt : ∑ e ∈ S, (t.thread e).rest < n := by
        rw [← hn]
        refine Finset.sum_lt_sum (fun g _ => ?_) ⟨f, hfS, hs.step.rest_lt hf⟩
        by_cases hg : g = f
        · subst hg; exact (hs.step.rest_lt hf).le
        · rw [hne g hg]
      obtain ⟨s', hr, hrest⟩ := ih _ hlt (h.step hs.step) (by rw [hne c hfc.symm]; exact hc)
        (fun g hg => by
          rw [hne g (fun hgf => hg (hgf ▸ hfS))]
          exact hout g hg) rfl
      exact ⟨s', RunUnder.head ⟨hfc, Thread.inFlight_of_rest hf⟩ hs hr, hrest⟩

end TagAos
