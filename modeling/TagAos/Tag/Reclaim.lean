import TagAos.Tag.AwakeAll

/-!
# Freeing a superseded instance

The receiver that frees an instance has found itself the last one registered on it, has held its
lock alone, and has seen a newer epoch linked.  None of this keeps another receiver from referring
to the instance: one that registered between the decrement and the write lock becomes a second
last receiver (`freed_twice`), and the last receiver of an older instance may be about to compare
epochs with it.

`refs` lists the instances a receiver is still going to touch without loading a pointer again.
New references come from the level pointer or from an allocation only, and neither yields an
instance that has been freed; so `reclamation_is_safe` needs to ask only that nobody else refers
to an instance at the moment it is freed.
-/

set_option autoImplicit false

namespace TagAos

open Conc

/-- The instance a release refers to. -/
def Release.refs : Release → List Addr
  | nothing | level => []
  | rcu a | rcuWrite a => [a]

/-- The instances the receiver still refers to. -/
def ReceiveState.refs : ReceiveState → List Addr
  | enter l | lockRcu l | unlockLevel l | testReady l | lockLevelWrite l | reloadLevel l
  | create l _ _ | lockNew l _ | unlockLevelWrite l | register l | waitReady l | waitTagReady l
  | prepare l | condReady l _ | condTagReady l _ | sleep l | finish l | codeTagReady l
  | codeReady l | recheck l | readSize l | copy l _ | unlockRcu l _ | leaveLevel l _
  | tryLock l _ | loadNew l _ | unlockFree l _ | free l _ | resetReady l _ | resetSize l _
  | wipeSize l _ | wipe l _ _ | unlockReset l _ => [l]
  | retestReady sem l | readEpoch sem l | unlockOld sem l _ | install sem _ l
  | cmpEpoch l sem _ => [sem, l]
  | unlockLevelError rel _ | leave rel _ | clear rel _ | release rel _ => rel.refs
  | _ => []

section Step

variable {c : CallId} {m m' : Mem} {a : ReceiveArgs} {q q' : ReceiveState} {x : Addr}

/-- A receiver touches only what it refers to. -/
theorem ReceiveState.refs_of_touches {p : ReceiveState} (h : x ∈ (receiveCode a p).touches) :
    x ∈ p.refs := by
  cases p
  case start =>
    rw [receiveCode] at h
    split at h <;> cases h
  case release rel r =>
    cases rel <;>
      simp_all [receiveCode, releaseCode, Instr.touches, refs, Release.refs]
  case cmpEpoch l new r => simpa [receiveCode, Instr.touches, refs] using h
  all_goals first
    | exact h
    | (simp only [receiveCode, Instr.touches, List.mem_singleton] at h; simp [refs, h]; done)
    | cases h

/-- A receiver comes by an instance through the pointer of its level, or by creating it. -/
theorem ReceiveState.refs_succ (hx : Exec c m (receiveCode a q) m' q') (hq' : x ∈ q'.refs) :
    x ∈ q.refs ∨ m.tagLevel a.lvl = some x ∨ x = m.brk ∧ m.brk < m'.brk := by
  cases q
  case start =>
    rw [receiveCode] at hx
    split at hx <;> cases hx <;> cases hq'
  case loadLevel =>
    cases hx with
    | loadLevelNull => cases hq'
    | loadLevel h => simp only [refs, List.mem_singleton] at hq'; exact .inr (.inl (hq' ▸ h))
  case reloadLevel sem =>
    cases hx with
    | loadLevelNull => exact .inl hq'
    | loadLevel h =>
      simp only [refs, List.mem_cons, List.not_mem_nil, or_false] at hq'
      rcases hq' with rfl | rfl
      · exact .inl (by simp [refs])
      · exact .inr (.inl h)
  case loadNew l r =>
    cases hx with
    | loadLevelNull => exact .inl hq'
    | loadLevel h =>
      simp only [refs, List.mem_cons, List.not_mem_nil, or_false] at hq'
      rcases hq' with rfl | rfl
      · exact .inr (.inl h)
      · exact .inl (by simp [refs])
  case create sem l e =>
    cases hx with
    | createLevel =>
      simp only [refs, List.mem_cons, List.not_mem_nil, or_false] at hq'
      rcases hq' with rfl | rfl
      · exact .inl (by simp [refs])
      · exact .inr (.inr ⟨rfl, Nat.lt_succ_self _⟩)
    | createLevelFailed => exact .inl hq'
  case condTagReady | readSize => cases turns_succ hx rfl <;> exact .inl hq'
  case leave rel r =>
    cases hx <;> cases rel <;> exact .inl hq'
  case clear rel r => cases hx; cases rel <;> exact .inl hq'
  case release rel r => cases rel <;> cases hx <;> cases hq'
  all_goals
    cases hx <;> first
      | exact .inl hq'
      | (simp only [refs, Release.refs, List.mem_cons, List.not_mem_nil, or_false] at hq' ⊢
         simp [hq'])
      | cases hq'

/-- Who frees an instance, and what becomes of it. -/
theorem ReceiveState.freed_succ (hx : Exec c m (receiveCode a q) m' q') :
    m'.freed = m.freed ∨ ∃ l r, q = free l r ∧ q' = leave .nothing r ∧
      m'.freed = Function.update m.freed l (m.freed l + 1) := by
  refine hx.freed.imp_right ?_
  rintro ⟨l, hi, hfreed⟩
  cases q
  case start =>
    rw [receiveCode] at hi
    split at hi <;> cases hi
  case free x r => cases hi; exact ⟨l, r, rfl, rfl, hfreed⟩
  case release rel r => cases rel <;> cases hi
  all_goals cases hi

end Step

/-! ## Safe reclamation

The code takes the last receiver for the only one that still refers to the instance.  Under the
condition this is so at the moment of the free, and no other call comes by a reference afterwards.
-/

/-- The condition on a step: an instance is freed when no other receive refers to it. -/
def FreesAlone (s : State) (c : CallId) : Prop :=
  ∀ a l r, s.thread c = .receive a (.free l r) →
    ∀ d, d ≠ c → ∀ a' p, s.thread d = .receive a' p → l ∉ p.refs

/-- Every instance is freed at most once, and the next operation of no receive touches an instance
that has been freed. -/
structure ReclaimSafe (s : State) : Prop where
  once : ∀ x, s.mem.freed x ≤ 1
  untouched : ∀ c a p x, s.thread c = .receive a p → x ∈ (receiveCode a p).touches →
    s.mem.freed x = 0

/-- Nobody refers to an instance that has been freed. -/
structure Reclaimed (s : State) : Prop where
  once : ∀ x, s.mem.freed x ≤ 1
  unreferenced : ∀ x, s.mem.freed x ≠ 0 → ∀ d a p, s.thread d = .receive a p → x ∉ p.refs

theorem Reclaimed.safe {s : State} (h : Reclaimed s) : ReclaimSafe s where
  once := h.once
  untouched c a p x hc hx := by
    by_contra hfreed
    exact h.unreferenced x hfreed c a p hc (ReceiveState.refs_of_touches hx)

/-- Only a last receiver frees an instance. -/
theorem Thread.freed_succ {c : CallId} {m m' : Mem} {t t' : Thread} {o : Outcome}
    (h : exec c m t.code o = some (m', t')) :
    m'.freed = m.freed ∨ ∃ a l r, t = .receive a (.free l r) ∧
      t' = .receive a (.leave .nothing r) ∧ m'.freed = Function.update m.freed l (m.freed l + 1) := by
  cases t with
  | receive a p =>
    rw [code, exec_map, Option.map_eq_some_iff] at h
    obtain ⟨⟨m₁, q⟩, hq, heq⟩ := h
    cases heq
    rcases ReceiveState.freed_succ (.of_exec hq) with hsame | ⟨l, r, rfl, rfl, hfreed⟩
    · exact .inl hsame
    · exact .inr ⟨a, l, r, rfl, rfl, hfreed⟩
  | send b p =>
    rw [code, exec_map, Option.map_eq_some_iff] at h
    obtain ⟨⟨m₁, q⟩, hq, heq⟩ := h
    cases heq
    exact .inl (send_freed (.of_exec hq))
  | awake e p =>
    rw [code, exec_map, Option.map_eq_some_iff] at h
    obtain ⟨⟨m₁, q⟩, hq, heq⟩ := h
    cases heq
    exact .inl (awake_freed (.of_exec hq))

theorem Step.freed {s s' : State} {c : CallId} (hs : Step s c s') :
    s'.mem.freed = s.mem.freed ∨ ∃ a l r, s.thread c = .receive a (.free l r) ∧
      s'.thread c = .receive a (.leave .nothing r) ∧
      s'.mem.freed = Function.update s.mem.freed l (s.mem.freed l + 1) := by
  obtain ⟨o, ho⟩ := hs
  rw [step, Option.map_eq_some_iff] at ho
  obtain ⟨⟨m, t⟩, hx, rfl⟩ := ho
  rcases Thread.freed_succ hx with h | ⟨a, l, r, ht, rfl, h⟩
  · exact .inl h
  · exact .inr ⟨a, l, r, ht, Config.set_thread_self .., h⟩

/-- Nobody comes by a reference to an instance that has already been freed. -/
theorem Reclaimed.unreferenced_step {s s' : State} {c d : CallId} {x : Addr} (hr : Reachable s)
    (hs : Step s c s') (h : Reclaimed s) (hx : s.mem.freed x ≠ 0) {a : ReceiveArgs}
    {p : ReceiveState} (hp : s'.thread d = .receive a p) : x ∉ p.refs := by
  by_cases hdc : d = c
  · subst hdc
    obtain ⟨q, hq, hexec⟩ := hs.of_receive hp
    have hret := hr.epoch.freed x hx
    intro hmem
    rcases ReceiveState.refs_succ hexec hmem with hold | hlink | ⟨hnew, -⟩
    · exact h.unreferenced x hx d a q hq hold
    · exact hret.unlinked ⟨_, hlink⟩
    · exact absurd hret.lt (by rw [hnew]; exact lt_irrefl _)
  · rw [hs.thread_of_ne hdc] at hp
    exact h.unreferenced x hx d a p hp

theorem Reclaimed.step {s s' : State} {c : CallId} (hr : Reachable s) (hs : Step s c s')
    (hg : FreesAlone s c) (h : Reclaimed s) : Reclaimed s' := by
  rcases hs.freed with heq | ⟨a, l, r, hc, hc', hfreed⟩
  · exact ⟨fun x => by rw [heq]; exact h.once x, fun x hx d a p hp => by
      rw [heq] at hx
      exact h.unreferenced_step hr hs hx hp⟩
  · -- the instance had not been freed, for the receiver that frees it referred to it
    have hzero : s.mem.freed l = 0 := by
      by_contra hne
      exact h.unreferenced l hne c a _ hc (by simp [ReceiveState.refs])
    constructor
    · intro x
      rw [hfreed]
      by_cases hxl : x = l
      · subst hxl; simp [hzero]
      · rw [Function.update_of_ne hxl]; exact h.once x
    · intro x hx d a' p hp
      by_cases hxl : x = l
      · subst hxl
        by_cases hdc : d = c
        · subst hdc
          rw [hc'] at hp
          cases hp
          simp [ReceiveState.refs, Release.refs]
        · rw [hs.thread_of_ne hdc] at hp
          exact hg a x r hc d hdc a' p hp
      · rw [hfreed, Function.update_of_ne hxl] at hx
        exact h.unreferenced_step hr hs hx hp

theorem reclaimed_of_run {s₀ s : State} (h0 : Init s₀) (h : RunUnder Step FreesAlone s₀ s) :
    Reclaimed s := by
  refine h.invariant_run ?_ fun u c v hu hi hg hs => hi.step ⟨s₀, h0, hu.run⟩ hs hg
  obtain ⟨pm, e, hm⟩ := h0.mem
  exact ⟨fun x => by simp [hm, Mem.fresh], fun x hx => absurd (by simp [hm, Mem.fresh]) hx⟩

/-- **Reclamation is safe** in every run in which an instance is freed only when no other receive
refers to it: no instance is freed twice, and no receive touches an instance after it has been
freed. -/
theorem reclamation_is_safe {s₀ s : State} (h0 : Init s₀) (h : RunUnder Step FreesAlone s₀ s) :
    ReclaimSafe s := (reclaimed_of_run h0 h).safe

/-! ## Two last receivers

The decrement and the acquisition of the write lock are two operations, and a receiver that
registers in between is counted from zero again. -/

/-- Three receivers (calls 0, 2 and 3) and a send (call 1) on level 0. -/
def crowd : CallId → Thread
  | 1 => .send ⟨0, some [7, 8, 9], 3, 0⟩ .start
  | _ => .receive ⟨0, true, 2, 0⟩ .start

theorem crowd_idle (c : CallId) : (crowd c).idle = true := by
  unfold crowd
  split <;> rfl

/-- Receiver 2 is registered and receiver 0 is in its exit loop, both on the instance 0; the send
sets `ready` there, and receiver 3 makes a new epoch. -/
def newcomer : List (CallId × Outcome) :=
  goes 0 15 ++ signalled 0 ++ goes 0 4 ++ goes 2 15 ++ goes 1 18 ++ goes 3 26

/-- Receiver 2 takes its message and is the last to leave as well; then each of the two frees the
instance. -/
theorem freed_twice : ¬ ∀ s, Reachable s → ReclaimSafe s := by
  intro h
  have honce := (h _ (State.reachable_start crowd_idle
    (newcomer ++ goes 2 11 ++ goes 0 5 ++ goes 2 5))).once 0
  revert honce
  decide +kernel

/-- A test for `FreesAlone` when only the calls below `n` have begun. -/
def freesAlone (n : ℕ) (s : State) (c : CallId) : Bool :=
  match s.thread c with
  | .receive _ (.free l _) =>
    (List.range n).all fun d => d == c || match s.thread d with
      | .receive _ p => !p.refs.contains l
      | _ => true
  | _ => true

theorem freesAlone_of_test {n : ℕ} (s : State) (c : CallId)
    (hidle : ∀ d, n ≤ d → (s.thread d).idle = true) (h : freesAlone n s c = true) :
    FreesAlone s c := by
  intro a l r hc d hdc a' p hp hmem
  by_cases hd : d < n
  · simp only [freesAlone, hc, List.all_eq_true, List.mem_range] at h
    have := h d hd
    simp [hdc, hp, hmem] at this
  · have := hidle d (not_lt.1 hd)
    rw [hp] at this
    cases p
    case start => cases hmem
    all_goals cases this

/-- With receiver 0 out of the way, receiver 2 frees the instance and nobody refers to it. -/
def freedOnce : State := (State.start crowd).after (goes 2 15 ++ goes 1 18 ++ goes 3 26 ++ goes 2 18)

theorem reclamation_is_safe_freedOnce : freedOnce.mem.freed 0 = 1 ∧ ReclaimSafe freedOnce :=
  ⟨by decide +kernel, reclamation_is_safe (State.init_start crowd_idle)
    (State.runUnder_after_of_idle (n := 4) freesAlone_of_test (fun _ _ => crowd_idle _)
      (by decide +kernel) (by decide +kernel))⟩

end TagAos
