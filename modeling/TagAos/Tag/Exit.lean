import TagAos.Tag.AwakeAll
import TagAos.Tag.Progress

/-!
# Leaving an instance

The last receiver of an instance has given up its read lock and its place in `waiting` when it
begins to try for the write lock.  Nothing keeps a new receiver from registering on the instance
in that gap, and if there is no message for it, it sleeps there with the read lock held
(`exit_can_be_blocked`).

`exit_is_free` is about runs in which no receive arrives at an instance with nothing to wake it
while another one is in its exit loop.  There the exit loop only ever waits for calls that run to
their release on their own.
-/

set_option autoImplicit false

namespace TagAos

open Conc

namespace ReceiveState

/-- The instance on which the receiver is in its exit loop. -/
def tries : ReceiveState → Option Addr
  | tryLock l _ => some l
  | _ => none

/-- The instance whose `rcu_lock` the receiver is about to acquire in order to register on it. -/
def locks : ReceiveState → Option Addr
  | lockRcu l | lockNew l _ => some l
  | _ => none

/-- The instance whose `rcu_lock` the receiver has acquired in order to register on it. -/
def arrives : ReceiveState → Option Addr
  | unlockLevel l | testReady l | unlockLevelWrite l | register l => some l
  | _ => none

/-- The instance for whose message the receiver is queueing or asleep. -/
def loops : ReceiveState → Option Addr
  | prepare l | condReady l _ | condTagReady l _ | sleep l => some l
  | _ => none

theorem on_of_loops {p : ReceiveState} {l : Addr} (h : p.loops = some l) : p.on = some l := by
  cases p <;> cases h <;> rfl

theorem held_of_arrives {p : ReceiveState} {l : Addr} (i : ℕ) (h : p.arrives = some l) :
    (Sem.rcu l, Mode.read) ∈ (p.ann i).held := by
  cases p <;> cases h <;> simp [ann]

theorem counted_of_arrives {p : ReceiveState} {l : Addr} (i : ℕ) (h : p.arrives = some l) :
    (p.ann i).counted = true := by
  cases p <;> cases h <;> rfl

theorem not_held_of_locks {p : ReceiveState} {l : Addr} (i : ℕ) (md : Mode)
    (h : p.locks = some l) : (Sem.rcu l, md) ∉ (p.ann i).held := by
  cases p <;> cases h <;> simp [ann]

section Step

variable {c : CallId} {m m' : Mem} {a : ReceiveArgs} {q q' : ReceiveState} {l : Addr}

/-- A receive arrives on an instance by acquiring its `rcu_lock`. -/
theorem arrives_succ (hx : Exec c m (receiveCode a q) m' q') (hq' : q'.arrives = some l) :
    (q.arrives = some l ∨ q.locks = some l) ∧ m'.ready = m.ready := by
  cases q
  case start | leave | clear | release => cases ends_succ hx rfl <;> cases hq'
  case condTagReady | readSize => cases turns_succ hx rfl <;> cases hq'
  all_goals
    cases hx <;>
      first | exact ⟨.inl hq', rfl⟩ | exact ⟨.inr hq', rfl⟩ | cases hq'

/-- It comes to test the condition of the wait when it has arrived, with `ready` as it was. -/
theorem waitReady_succ (hx : Exec c m (receiveCode a q) m' q') (hq' : q' = waitReady l) :
    q.arrives = some l ∧ m'.ready = m.ready := by
  subst hq'
  cases wait_step hx rfl with
  | register h => exact ⟨rfl, h⟩

/-- It comes to test the flag of the tag only when it has found `ready` clear. -/
theorem waitTagReady_succ (hx : Exec c m (receiveCode a q) m' q') (hq' : q' = waitTagReady l) :
    q = waitReady l ∧ m.ready l = false := by
  subst hq'
  cases wait_step hx rfl with
  | notReady h => exact ⟨rfl, h⟩

/-- It goes to sleep only when it has found both clear. -/
theorem loops_succ (hx : Exec c m (receiveCode a q) m' q') (hq' : q'.loops = some l) :
    q.loops = some l ∨ (q = waitTagReady l ∧ m.tagReady = false) := by
  have hw : q'.waits = true := by cases q' <;> first | rfl | cases hq'
  cases wait_step hx hw with
  | notTagReady h => cases hq'; exact .inr ⟨rfl, h⟩
  | prepare | condNotReady | sleep | again => exact .inl hq'
  | _ => cases hq'

/-- A receiver enters its exit loop by bringing `waiting` to zero. -/
theorem tries_succ (hx : Exec c m (receiveCode a q) m' q') (hq' : q'.tries = some l) :
    q.tries = some l ∨ ((∃ r, q = leaveLevel l r) ∧ m.waiting l = 1 ∧ m'.waiting l = 0) := by
  cases q
  case start | leave | clear | release => cases ends_succ hx rfl <;> cases hq'
  case condTagReady | readSize => cases turns_succ hx rfl <;> cases hq'
  case leaveLevel y r =>
    cases hx with
    | decWaitingZero h =>
      cases hq'
      exact .inr ⟨⟨r, rfl⟩, by omega, by simp [h]⟩
    | decWaiting => cases hq'
  all_goals cases hx <;> first | exact .inl hq' | cases hq'

end Step

end ReceiveState

/-! ## Passing through

A receiver that is on the instance for a moment only, because there is a message or the flag is set,
holds the `rcu_lock` on its way and gives it back.  It keeps a last receiver waiting but does not
block it. -/

/-- If `d` is a receive on the instance `l`, or about to register on it, something keeps it from
sleeping there: `ready` is set, or the flag is and stays so. -/
structure Passes (s : State) (d : CallId) (l : Addr) : Prop where
  arriving : ∀ a p, s.thread d = .receive a p → p.arrives = some l →
    s.mem.ready l = true ∨ Armed s
  first : ∀ a, s.thread d = .receive a (.waitReady l) → s.mem.ready l = true ∨ Armed s
  second : ∀ a, s.thread d = .receive a (.waitTagReady l) → Armed s
  looping : ∀ a p, s.thread d = .receive a p → p.loops ≠ some l

section Step

variable {s s' : State} {c d e : CallId} {l : Addr}

/-- What keeps a receiver from sleeping stays as long as it stands at the instance. -/
theorem passing_step {a : ReceiveArgs} {p : ReceiveState} (hr : Reachable s) (hs : Step s e s')
    (hd : s.thread d = .receive a p) (hheld : (Sem.rcu l, Mode.read) ∈ (p.ann a.lvl).held)
    (hcount : (s'.anns d).counted = true) (h : s.mem.ready l = true ∨ Armed s) :
    s'.mem.ready l = true ∨ Armed s' := by
  rcases h with hready | harmed
  · rw [← State.anns_of_receive hd] at hheld
    exact .inl (hr.inv.frozen hs.change s.anns_wf hheld hready).1
  · exact .inr (harmed.step hr hs hcount)

/-- A step keeps what stands for the receive, and for one that is about to acquire the lock it has
to be there already. -/
theorem Passes.step (hr : Reachable s) (hs : Step s e s') (h : Passes s d l)
    (hlock : ∀ a p, d = e → s.thread d = .receive a p → p.locks = some l →
      s.mem.ready l = true ∨ Armed s) : Passes s' d l := by
  by_cases hde : d = e
  · subst hde
    constructor
    · intro a p hp harr
      obtain ⟨q, hq, hx⟩ := hs.of_receive hp
      have hcount : (s'.anns d).counted = true := by
        rw [State.anns_of_receive hp]
        exact ReceiveState.counted_of_arrives _ harr
      obtain ⟨harr' | hlocks, hmem⟩ := ReceiveState.arrives_succ hx harr
      · exact passing_step hr hs hq (ReceiveState.held_of_arrives _ harr') hcount
          (h.arriving a q hq harr')
      · rcases hlock a q rfl hq hlocks with hready | harmed
        · exact .inl (by rw [hmem]; exact hready)
        · exact .inr (harmed.step hr hs hcount)
    · intro a hp
      obtain ⟨q, hq, hx⟩ := hs.of_receive hp
      have hcount : (s'.anns d).counted = true := by
        rw [State.anns_of_receive hp]; rfl
      obtain ⟨harr, -⟩ := ReceiveState.waitReady_succ hx rfl
      exact passing_step hr hs hq (ReceiveState.held_of_arrives _ harr) hcount
        (h.arriving a q hq harr)
    · intro a hp
      obtain ⟨q, hq, hx⟩ := hs.of_receive hp
      have hcount : (s'.anns d).counted = true := by
        rw [State.anns_of_receive hp]; rfl
      obtain ⟨rfl, hclear⟩ := ReceiveState.waitTagReady_succ hx rfl
      rcases h.first a hq with hready | harmed
      · rw [hclear] at hready; cases hready
      · exact harmed.step hr hs hcount
    · intro a p hp hloop
      obtain ⟨q, hq, hx⟩ := hs.of_receive hp
      rcases ReceiveState.loops_succ hx hloop with hloop' | ⟨rfl, hclear⟩
      · exact h.looping a q hq hloop'
      · have htag := (h.second a hq).1
        rw [hclear] at htag; cases htag
  · have hthread := hs.thread_of_ne hde
    have hcount : ∀ a p, s.thread d = .receive a p → (p.ann a.lvl).counted = true →
        (s'.anns d).counted = true := by
      intro a p hp hcount
      rw [hs.anns_of_ne d hde, State.anns_of_receive hp]
      exact hcount
    constructor
    · intro a p hp harr
      rw [hthread] at hp
      exact passing_step hr hs hp (ReceiveState.held_of_arrives _ harr)
        (hcount a p hp (ReceiveState.counted_of_arrives _ harr)) (h.arriving a p hp harr)
    · intro a hp
      rw [hthread] at hp
      exact passing_step hr hs hp (by simp [ReceiveState.ann]) (hcount a _ hp rfl)
        (h.first a hp)
    · intro a hp
      rw [hthread] at hp
      exact (h.second a hp).step hr hs (hcount a _ hp rfl)
    · intro a p hp
      rw [hthread] at hp
      exact h.looping a p hp

/-- Right after the last receiver has left `waiting` nobody is on the instance. -/
theorem passes_of_last {a : ReceiveArgs} {r : Result} (hr : Reachable s) (hs : Step s c s')
    (hc : s.thread c = .receive a (.leaveLevel l r)) (hzero : s'.mem.waiting l = 0)
    (harr : ∀ d a' p, s.thread d = .receive a' p → p.arrives = some l →
      s.mem.ready l = true ∨ Armed s) : Passes s' d l := by
  have hcensus := (hr.step hs).inv.reg l
  rw [hzero] at hcensus
  have hon : ∀ a p, s'.thread d = .receive a p → p.on ≠ some l := by
    intro a p hp hon
    refine hcensus.not_of_zero d ?_
    rw [State.anns_of_receive hp, p.ann_of_on a.lvl hon]
  refine ⟨fun a' p hp hp' => ?_, fun a' hp => absurd rfl (hon a' _ hp),
    fun a' hp => absurd rfl (hon a' _ hp),
    fun a' p hp hloop => hon a' p hp (ReceiveState.on_of_loops hloop)⟩
  have hdc : d ≠ c := by
    rintro rfl
    obtain ⟨m, q', hx, rfl⟩ := hs.receive hc
    rw [Config.set_thread_self] at hp
    cases hp
    cases hx <;> cases hp'
  have hp₀ := hp
  rw [hs.thread_of_ne hdc] at hp₀
  refine passing_step hr hs hp₀ (ReceiveState.held_of_arrives _ hp') ?_ (harr d a' p hp₀ hp')
  rw [State.anns_of_receive hp]
  exact ReceiveState.counted_of_arrives _ hp'

end Step

/-! ## The exit loop is free

The condition is about the two steps at which a receiver that arrives and one that leaves can miss
each other: the acquisition of the `rcu_lock` by the one, and the decrement by the other. -/

/-- The condition on a step: when a receive is about to acquire the `rcu_lock` of an instance in
order to register while another one is in its exit loop there, or when the last one registered is
about to leave while another one has acquired the lock in order to register, then `ready` of the
instance is set, or the flag of the tag is and stays so. -/
structure ExitsApart (s : State) (e : CallId) : Prop where
  arrive : ∀ a p l, s.thread e = .receive a p → p.locks = some l →
    ∀ c a' p', s.thread c = .receive a' p' → p'.tries = some l →
      s.mem.ready l = true ∨ Armed s
  leave : ∀ a l r, s.thread e = .receive a (.leaveLevel l r) → s.mem.waiting l = 1 →
    ∀ d a' p, s.thread d = .receive a' p → p.arrives = some l →
      s.mem.ready l = true ∨ Armed s

/-- Nobody sleeps on an instance that a receiver is trying to leave. -/
def ExitInv (s : State) : Prop :=
  ∀ c a p l, s.thread c = .receive a p → p.tries = some l → ∀ d, Passes s d l

/-- A step keeps the invariant.  The condition is needed in the two cases it names: a newcomer
arrives while somebody tries to leave, or the last one begins to leave when a newcomer has arrived.
-/
theorem ExitInv.step {s s' : State} {e : CallId} (hr : Reachable s) (hs : Step s e s')
    (hg : ExitsApart s e) (h : ExitInv s) : ExitInv s' := by
  intro c a p l hc hp d
  -- either the receiver was trying already, or it has just begun to
  have hcases : (∃ q, s.thread c = .receive a q ∧ q.tries = some l) ∨
      (c = e ∧ (∃ r, s.thread c = .receive a (.leaveLevel l r)) ∧ s.mem.waiting l = 1 ∧
        s'.mem.waiting l = 0) := by
    by_cases hce : c = e
    · subst hce
      obtain ⟨q, hq, hx⟩ := hs.of_receive hc
      rcases ReceiveState.tries_succ hx hp with htry | ⟨⟨r, rfl⟩, h1, h2⟩
      · exact .inl ⟨q, hq, htry⟩
      · exact .inr ⟨rfl, ⟨r, hq⟩, h1, h2⟩
    · rw [hs.thread_of_ne hce] at hc
      exact .inl ⟨p, hc, hp⟩
  rcases hcases with ⟨q, hq, htry⟩ | ⟨rfl, ⟨r, hleave⟩, h1, h2⟩
  · refine (h c a q l hq htry d).step hr hs fun a' p' hde hp' hlocks => ?_
    exact hg.arrive a' p' l (hde ▸ hp') hlocks c a q hq htry
  · exact passes_of_last hr hs hleave h2 (hg.leave a l r hleave h1)

/-- It holds after every run whose steps meet the condition. -/
theorem exitInv_of_run {s₀ s : State} (h0 : Init s₀) (h : RunUnder Step ExitsApart s₀ s) :
    ExitInv s := by
  refine h.invariant_run (P := ExitInv) ?_ fun u e v hu hi hg hs =>
    hi.step ⟨s₀, h0, hu.run⟩ hs hg
  intro c a p l hc hp
  obtain rfl := h0.receive hc
  cases hp

/-- The call `d` can run to its release of the `rcu_lock` of `l`: calls that have begun can run,
without a signal and without a step of `c`, to a state in which `d` does not hold it. -/
def CanRelease (s : State) (c d : CallId) (l : Addr) : Prop :=
  ∃ s', RunOthers c s s' ∧ ∀ md, ¬ (s'.mem.sem (.rcu l)).Holds d md

/-- A holder of an `rcu_lock` has something left to do unless it is waiting for a message. -/
theorem Thread.rest_of_rcu {t : Thread} {x : Addr} {md : Mode}
    (h : (Sem.rcu x, md) ∈ t.ann.held) :
    0 < t.rest ∨ ∃ a p, t = .receive a p ∧ p.loops = some x := by
  cases t with
  | receive a p =>
    cases p
    case prepare l => exact .inr ⟨a, _, rfl, by simp_all [ann, ReceiveState.ann, ReceiveState.loops]⟩
    case condReady l b =>
      exact .inr ⟨a, _, rfl, by simp_all [ann, ReceiveState.ann, ReceiveState.loops]⟩
    case condTagReady l b =>
      exact .inr ⟨a, _, rfl, by simp_all [ann, ReceiveState.ann, ReceiveState.loops]⟩
    case sleep l => exact .inr ⟨a, _, rfl, by simp_all [ann, ReceiveState.ann, ReceiveState.loops]⟩
    all_goals first
      | (simp [ann, ReceiveState.ann] at h; done)
      | exact .inl (Nat.succ_pos _)
  | send b p =>
    cases p
    all_goals first
      | (simp [ann, SendState.ann] at h; done)
      | exact .inl (Nat.succ_pos _)
  | awake e p =>
    cases p
    all_goals first
      | (simp [ann, AwakeState.ann] at h; done)
      | exact .inl (Nat.succ_pos _)

/-- A holder that nothing will put to sleep can run to its release. -/
theorem Passes.canRelease {s : State} {c d : CallId} {l : Addr} (hr : Reachable s)
    (hc : (s.thread c).rest = 0) (h : Passes s d l) : CanRelease s c d l := by
  obtain ⟨s', hrun, hrest⟩ := hr.exists_all_rest hc
  -- as long as the holder has not released, nothing will put it to sleep
  have key : CanRelease s c d l ∨ Passes s' d l := by
    refine hrun.invariant_run (P := fun u => CanRelease s c d l ∨ Passes u d l) (.inr h) ?_
    rintro u e v hu (hdone | hpass) _ hs
    · exact .inl hdone
    · have hreach : Reachable u := hr.run (RunOthers.run hu)
      by_cases hheld : ∃ md, (u.mem.sem (.rcu l)).Holds d md
      · obtain ⟨md, hmd⟩ := hheld
        refine .inr (hpass.step hreach hs.step fun a p _ hp hlocks => ?_)
        have := (hreach.inv.sem _ d md).1 hmd
        rw [State.anns_of_receive hp] at this
        exact absurd this (ReceiveState.not_held_of_locks _ md hlocks)
      · exact .inl ⟨u, hu, fun md hmd => hheld ⟨md, hmd⟩⟩
  rcases key with hdone | hpass
  · exact hdone
  · refine ⟨s', hrun, fun md hmd => ?_⟩
    have hheld := ((hr.run (RunOthers.run hrun)).inv.sem _ d md).1 hmd
    rcases Thread.rest_of_rcu hheld with hpos | ⟨a, p, hp, hloop⟩
    · rw [hrest d] at hpos; exact lt_irrefl 0 hpos
    · exact hpass.looping a p hp hloop

/-- In the state `s` no receive in its exit loop is kept out by a sleeper: nobody is asleep on its
instance with the condition of the wait false, and every holder of the `rcu_lock` can run to its
release. -/
def ExitFree (s : State) : Prop :=
  ∀ c a p l, s.thread c = .receive a p → p.tries = some l →
    (∀ d, ¬ (Asleep s d l ∧ s.mem.ready l = false ∧ s.mem.tagReady = false)) ∧
      ∀ d md, (s.mem.sem (.rcu l)).Holds d md → CanRelease s c d l

/-- **A receiver that is done waiting can leave**, in every run in which receivers arrive at an
instance and leave it apart. -/
theorem exit_is_free {s₀ s : State} (h0 : Init s₀) (h : RunUnder Step ExitsApart s₀ s) :
    ExitFree s := by
  intro c a p l hc hp
  have hpass := exitInv_of_run h0 h c a p l hc hp
  refine ⟨?_, fun d md _ => ?_⟩
  · rintro d ⟨⟨⟨a', ha'⟩, -⟩, -⟩
    exact (hpass d).looping a' _ ha' rfl
  · refine (hpass d).canRelease ⟨s₀, h0, h.run⟩ ?_
    rw [hc]
    cases p <;> cases hp
    rfl

/-! ## A newcomer in the way

Two runs: in the first the newcomer goes to sleep on the instance, in the second there is a message
for it. -/

/-- Receiver 0 is in its exit loop, and receiver 2 has gone to sleep on the same instance. -/
def blockedExit : State :=
  (State.start awakening).after (goes 0 15 ++ signalled 0 ++ goes 0 4 ++ goes 2 15)

/-- In the first run the exit of receiver 0 is not free: its trylock fails until receiver 2 gives
the lock back, and what receiver 2 sleeps for is a message or a command. -/
theorem exit_can_be_blocked : ¬ ∀ s, Reachable s → ExitFree s := by
  intro h
  have hfree := (h blockedExit (State.reachable_start awakening_idle _) 0 ⟨0, true, 2, 0⟩
    (.tryLock 0 .interrupted) 0 (by decide +kernel) rfl).1 2
  exact hfree ⟨⟨⟨⟨0, true, 2, 0⟩, by decide +kernel⟩, by decide +kernel⟩, by decide +kernel,
    by decide +kernel⟩

/-- A test for `ExitsApart` when only the calls below `n` have begun. -/
def exitsApart (n : ℕ) (s : State) (e : CallId) : Bool :=
  let stands (f : ReceiveState → Option Addr) (l : Addr) : Bool :=
    (List.range n).any fun d =>
      match s.thread d with
      | .receive _ p => f p == some l
      | _ => false
  match s.thread e with
  | .receive _ (.lockRcu l) | .receive _ (.lockNew l _) =>
    s.mem.ready l || !stands ReceiveState.tries l
  | .receive _ (.leaveLevel l _) => s.mem.ready l || !stands ReceiveState.arrives l
  | _ => true

theorem exitsApart_of_test {n : ℕ} (s : State) (e : CallId)
    (hidle : ∀ d, n ≤ d → (s.thread d).idle = true) (h : exitsApart n s e = true) :
    ExitsApart s e := by
  -- who stands anywhere has begun
  have stands : ∀ {f : ReceiveState → Option Addr} {d a p l}, f .start = none →
      s.thread d = .receive a p → f p = some l →
      ((List.range n).any fun d =>
        match s.thread d with
        | .receive _ p => f p == some l
        | _ => false) = true := by
    intro f d a p l hf hd hp
    rw [List.any_eq_true]
    refine ⟨d, List.mem_range.2 ?_, by simp [hd, hp]⟩
    by_contra hlt
    have hd' := hidle d (not_lt.1 hlt)
    rw [hd] at hd'
    cases p <;> first | (cases hd'; done) | (rw [hf] at hp; cases hp)
  constructor
  · intro a p l hp hlocks c a' p' hc htry
    have hstands := stands (f := ReceiveState.tries) rfl hc htry
    cases p <;> cases hlocks <;>
    · simp only [exitsApart, hp, hstands, Bool.not_true, Bool.or_false] at h
      exact .inl h
  · intro a l r hp _ d a' p hd harr
    have hstands := stands (f := ReceiveState.arrives) rfl hd harr
    simp only [exitsApart, hp, hstands, Bool.not_true, Bool.or_false] at h
    exact .inl h

/-- Receiver 0 sleeps and receiver 2 is about to acquire its `rcu_lock`.  A send sets `ready`;
receiver 0 takes the message and begins its exit loop, and receiver 2 acquires the lock. -/
def joined : State :=
  (State.start exchange).after (goes 0 15 ++ goes 2 6 ++ goes 1 18 ++ goes 0 11 ++ goes 2 1)

/-- In the second the newcomer has arrived while receiver 0 is on its way out, and the exit is free:
the newcomer finds `ready` set and goes on to its own exit. -/
theorem exit_is_free_newcomer :
    joined.thread 0 = .receive ⟨0, true, 2, 0⟩ (.tryLock 0 (.message [7, 8])) ∧
      (joined.mem.sem (.rcu 0)).Holds 2 .read ∧ ExitFree joined :=
  ⟨by decide +kernel, by decide +kernel, exit_is_free (State.init_start exchange_idle)
    (State.runUnder_after_of_idle (n := 3) exitsApart_of_test (fun _ _ => exchange_idle _)
      (by decide +kernel) (by decide +kernel))⟩

end TagAos
