import TagAos.Tag.AwakeAll

/-!
# An interrupted `TAG_AWAKE_ALL`

The command sets `tag_entry->ready` and then takes two locks at each of the levels.  Each of these
acquisitions can be interrupted; the command then returns at once, and does not clear the flag that
it has set.  The receivers of the levels it has not come to sleep on, and the next command finds
the flag set and does nothing.

* `notified_of_ready` — a receiver asleep on an instance with a message has a sender coming to wake
  it up.
* `Due` — a command is still on its way to a level.
* `usable` — when a command is only interrupted after the flag has been cleared again, it leaves
  the tag usable.
* `unusable` — otherwise it need not.
-/

set_option autoImplicit false

namespace TagAos

open Conc

/-! ## Senders that are coming to wake

A receiver that sleeps although there is a message is not lost: the sender that has left the message
has yet to come to the wait queue. -/

/-- The instance whose receivers the sender is going to wake up. -/
def SendState.wakes : SendState → Option Addr
  | unlockMutex l rc => if rc = 1 then some l else none
  | wake l => some l
  | _ => none

/-- A sender has left a message in the instance and is coming to wake up its receivers. -/
def Notified (s : State) (l : Addr) : Prop :=
  ∃ d b q, s.thread d = .send b q ∧ q.wakes = some l

section Step

variable {s s' : State} {c d : CallId} {l : Addr}

theorem SendState.wakes_succ {m m' : Mem} {b : SendArgs} {q q' : SendState}
    (hx : Exec d m (sendCode b q) m' q') (hq : q.wakes = some l) :
    q'.wakes = some l ∨ m'.localWq l = ∅ := by
  cases q
  case unlockMutex x rc =>
    simp only [wakes, Option.ite_none_right_eq_some, Option.some.injEq] at hq
    obtain ⟨rfl, rfl⟩ := hq
    cases hx
    exact .inl rfl
  case wake x =>
    cases hq
    cases hx
    exact .inr (Function.update_self ..)
  all_goals cases hq

/-- A sender that has come to somebody's wait queue leaves it empty. -/
theorem Notified.step (hs : Step s d s') (hc : c ∈ s'.mem.localWq l) (h : Notified s l) :
    Notified s' l := by
  obtain ⟨e, b, q, he, hq⟩ := h
  by_cases hed : e = d
  · subst hed
    obtain ⟨m, q', hx, rfl⟩ := hs.send he
    rcases SendState.wakes_succ hx hq with hq' | hempty
    · exact ⟨e, b, q', Config.set_thread_self .., hq'⟩
    · rw [Config.set_mem, hempty] at hc
      exact absurd hc (Finset.notMem_empty c)
  · exact ⟨e, b, q, by rwa [hs.thread_of_ne hed], hq⟩

/-- **Whoever dozes on an instance with a message is going to be woken up.** -/
theorem notified_of_dozes (hr : Reachable s) {a : ReceiveArgs} {p : ReceiveState}
    (hc : s.thread c = .receive a p) (hp : p.dozes = some l) (hq : c ∈ s.mem.localWq l)
    (hready : s.mem.ready l = true) : Notified s l := by
  obtain ⟨s₀, h0, hrun⟩ := hr
  refine hrun.invariant_run (P := fun s => ∀ c a p l, s.thread c = .receive a p →
    p.dozes = some l → c ∈ s.mem.localWq l → s.mem.ready l = true → Notified s l)
    ?_ ?_ c a p l hc hp hq hready
  · intro c a p l hc hp
    obtain rfl := h0.receive hc
    cases hp
  · intro u d v hu ih _ hs c a p l hc hp hq hready
    have hr : Reachable u := ⟨s₀, h0, hu⟩
    rcases hs.setReady hready with hready' | ⟨b, hb⟩
    · by_cases hcd : c = d
      · subst hcd
        obtain ⟨q, ht, hx⟩ := hs.of_receive hc
        obtain ⟨hp', heq⟩ := (ReceiveState.dozes_succ hx hp).2 hready'
        rw [heq] at hq
        exact (ih c a q l ht hp' hq hready').step hs (c := c) (by rw [heq]; exact hq)
      · rw [hs.thread_of_ne hcd] at hc
        obtain ⟨m, t, hx, heq⟩ := hs.exec
        have hq' : c ∈ u.mem.localWq l := hx.localWq hcd (by rw [heq] at hq; exact hq)
        exact (ih c a p l hc hp hq' hready').step hs hq
    · obtain ⟨m, q', hx, rfl⟩ := hs.send hb
      cases hx
      exact ⟨d, b, _, Config.set_thread_self .., rfl⟩

theorem notified_of_ready (hr : Reachable s) (hc : Asleep s c l) (hready : s.mem.ready l = true) :
    Notified s l := by
  obtain ⟨⟨a, ha⟩, hq⟩ := hc
  exact notified_of_dozes hr ha rfl hq hready

end Step

/-! ## Commands on their way

A command goes from level to level and takes two locks at each.  It owes a level until it has been
at the wait queue of the instance there. -/

namespace AwakeState

/-- The command is acquiring a lock on its way through the levels. -/
def acquires : AwakeState → Bool
  | lockLevel _ | lockRcu _ _ => true
  | _ => false

/-- The command has not yet come to the wait queue of the level. -/
def Owes (i : ℕ) : AwakeState → Prop
  | lockLevel j | loadLevel j | lockRcu j _ | testWaiting j _ | wake j _ => j ≤ i
  | unlockRcu j _ | unlockLevel j => j < i
  | _ => False

/-- The points of a command that has set the flag and has not been interrupted. -/
def Walks : AwakeState → Prop
  | lockLevel _ | loadLevel _ | lockRcu _ _ | testWaiting _ _ | wake _ _ | unlockRcu _ _
  | unlockLevel _ => True
  | unlockTag rc | done rc => rc = 1
  | _ => False

/-- The instance of a level that the command has loaded, until it has come to its wait queue. -/
def visits : AwakeState → Option (ℕ × Addr)
  | lockRcu i l | testWaiting i l | wake i l => some (i, l)
  | _ => none

theorem ann_of_visits {p : AwakeState} {i : ℕ} {l : Addr} (h : p.visits = some (i, l)) :
    (Sem.level i, Mode.read) ∈ p.ann.held := by
  cases p <;> cases h <;> simp [ann]

theorem inFlight_of_owes (e : ℕ) {p : AwakeState} {i : ℕ} (h : p.Owes i) :
    (Thread.awake e p).inFlight = true := by
  cases p <;> first | rfl | exact h.elim

section Step

variable {c : CallId} {m m' : Mem} {e i : ℕ} {q q' : AwakeState} {l : Addr} {o : Outcome}

theorem visits_succ (hx : Exec c m (awakeCode e q) m' q') (hq : q'.visits = some (i, l)) :
    (q.visits = some (i, l) ∨ m.tagLevel i = some l) ∧ m'.tagLevel = m.tagLevel := by
  cases q
  case testTagWaiting =>
    cases hx
    beta_reduce at hq
    split at hq <;> cases hq
  case loadLevel j =>
    cases hx with
    | loadLevelNull => cases hq
    | loadLevel h => cases hq; exact ⟨.inr h, rfl⟩
  case lockRcu j x =>
    cases hx
    · exact ⟨.inl hq, rfl⟩
    · cases hq
  case testWaiting j x =>
    cases hx
    beta_reduce at hq
    split at hq
    · exact ⟨.inl hq, rfl⟩
    · cases hq
  case unlockLevel j =>
    cases hx
    split at hq <;> cases hq
  all_goals cases hx <;> cases hq

/-- An acquisition that is not interrupted succeeds. -/
theorem exec_downRead {π : Type} {x : Sem} {p ok intr : π} (ho : o ≠ .signal)
    (hx : exec c m (.downRead x ok intr) o = some (m', p)) : p = ok := by
  cases o
  case go =>
    obtain ⟨y, -, hy⟩ := Option.map_eq_some_iff.1 hx
    exact (congrArg Prod.snd hy).symm
  case signal => exact absurd rfl ho
  all_goals cases hx

/-- A command that is not interrupted comes to the wait queue of every level. -/
theorem owes_succ (hx : exec c m (awakeCode e q) o = some (m', q')) (hi : i < levels)
    (ht : ∀ j, j < levels → m.tagLevel j ≠ none) (hq : q.Owes i) :
    q'.Owes i ∨ (o = .signal ∧ q.acquires = true) ∨
      (∃ l, q = testWaiting i l ∧ ¬ 0 < m.waiting l) ∨
      ∃ l, q = wake i l ∧ m'.localWq l = ∅ := by
  by_cases ho : o = .signal ∧ q.acquires = true
  · exact .inr (.inl ho)
  cases q
  case lockLevel j =>
    obtain rfl := exec_downRead (fun h => ho ⟨h, rfl⟩) hx
    exact .inl hq
  case lockRcu j x =>
    obtain rfl := exec_downRead (fun h => ho ⟨h, rfl⟩) hx
    exact .inl hq
  case loadLevel j =>
    cases Exec.of_exec hx with
    | loadLevelNull h => exact absurd h (ht j (lt_of_le_of_lt hq hi))
    | loadLevel => exact .inl hq
  case testWaiting j x =>
    cases Exec.of_exec hx
    beta_reduce
    by_cases hpos : 0 < m.waiting x
    · rw [if_pos hpos]
      exact .inl hq
    · rw [if_neg hpos]
      rcases lt_or_eq_of_le hq with hlt | rfl
      · exact .inl hlt
      · exact .inr (.inr (.inl ⟨x, rfl, hpos⟩))
  case wake j x =>
    cases Exec.of_exec hx
    rcases lt_or_eq_of_le hq with hlt | rfl
    · exact .inl hlt
    · exact .inr (.inr (.inr ⟨x, rfl, Function.update_self ..⟩))
  case unlockRcu j x => cases Exec.of_exec hx; exact .inl hq
  case unlockLevel j =>
    cases Exec.of_exec hx
    have hmore : j + 1 < levels := lt_of_le_of_lt hq hi
    rw [if_pos hmore]
    exact .inl hq
  all_goals exact hq.elim

theorem walks_succ (hx : exec c m (awakeCode e q) o = some (m', q'))
    (ho : ¬ (o = .signal ∧ q.acquires = true)) (hq : q.Walks) : q'.Walks := by
  cases q
  case lockLevel j =>
    obtain rfl := exec_downRead (fun h => ho ⟨h, rfl⟩) hx
    trivial
  case lockRcu j x =>
    obtain rfl := exec_downRead (fun h => ho ⟨h, rfl⟩) hx
    trivial
  case testWaiting j x =>
    cases Exec.of_exec hx
    beta_reduce
    split <;> trivial
  case unlockLevel j =>
    cases Exec.of_exec hx
    split
    · trivial
    · exact rfl
  case unlockTag rc => cases Exec.of_exec hx; exact hq
  case done rc => cases Exec.of_exec hx
  all_goals first | exact hq.elim | (cases Exec.of_exec hx <;> trivial)

end Step

end AwakeState

variable {s s' : State} {c d : CallId} {l : Addr}

/-- While a command has the `level_lock` it finds the instance that the level points to. -/
theorem linked_of_visits (hr : Reachable s) {e i : ℕ} {p : AwakeState}
    (hd : s.thread d = .awake e p) (hp : p.visits = some (i, l)) : s.mem.tagLevel i = some l := by
  obtain ⟨s₀, h0, hrun⟩ := hr
  refine hrun.invariant_run (P := fun s => ∀ d e p i l, s.thread d = .awake e p →
    p.visits = some (i, l) → s.mem.tagLevel i = some l) ?_ ?_ d e p i l hd hp
  · intro d e p i l hd hp
    obtain rfl := h0.awake hd
    cases hp
  · intro u f v hu ih _ hs d e p i l hd hp
    have hr : Reachable u := ⟨s₀, h0, hu⟩
    by_cases hdf : d = f
    · subst hdf
      cases ht : u.thread d with
      | awake e' q =>
        obtain ⟨m, q', hx, rfl⟩ := hs.awake ht
        rw [Config.set_thread_self] at hd
        cases hd
        obtain ⟨hq, heq⟩ := AwakeState.visits_succ hx hp
        rw [Config.set_mem, heq]
        exact hq.elim (ih d e q i l ht) id
      | receive a q =>
        obtain ⟨m, q', hx, rfl⟩ := hs.receive ht
        rw [Config.set_thread_self] at hd
        cases hd
      | send b q =>
        obtain ⟨m, q', hx, rfl⟩ := hs.send ht
        rw [Config.set_thread_self] at hd
        cases hd
    · rw [hs.thread_of_ne hdf] at hd
      have hlink := ih d e p i l hd hp
      have hread : (Sem.level i, Mode.read) ∈ (u.anns d).held := by
        rw [State.anns_of_awake hd]
        exact AwakeState.ann_of_visits hp
      have hc := hs.change
      revert hc
      generalize v.mem = m'
      intro hc
      cases hc
      case linked j x lock hx keep =>
        by_cases hij : i = j
        · subst hij
          exact absurd hread (hr.inv.no_reader lock)
        · exact (Function.update_of_ne hij ..).trans hlink
      all_goals exact hlink

/-! ## The receivers of the levels a command has yet to come to

While the flag is set a receiver that looks at it does not go to sleep.  Those that were asleep
before wait for the command, on the levels that it owes. -/

/-- A command is on its way to the level. -/
def Due (s : State) (i : ℕ) : Prop := ∃ d e p, s.thread d = .awake e p ∧ p.Owes i

/-- What the environment may do: it interrupts a command that has set the flag only after the flag
has been cleared again.  Whose flag it is, the command's own or that of one that has set it since,
is not asked: the flag does not say. -/
def SparesSet (s : State) (c : CallId) (o : Outcome) : Prop :=
  o = .signal → ∀ e p, s.thread c = .awake e p → p.acquires = true → s.mem.tagReady = false

/-- Receivers without a message are not forgotten while the flag is set. -/
def Remembered (s : State) : Prop :=
  s.mem.tagReady = true → ∀ c a l, s.thread c = .receive a (.sleep l) → c ∈ s.mem.localWq l →
    s.mem.ready l = false → Due s a.lvl

/-- A receiver goes to sleep only after it has found the flag clear. -/
theorem ReceiveState.sleep_succ {m m' : Mem} {a : ReceiveArgs} {q : ReceiveState}
    (hx : Exec c m (receiveCode a q) m' (.sleep l)) : m'.tagReady = false := by
  cases ReceiveState.wait_step hx rfl with
  | sleep h hm => exact hm ▸ h

/-- Nobody loses the message that is in the instance he sleeps on. -/
theorem ready_of_asleep (hr : Reachable s) (hs : Step s d s') (hc : Asleep s c l)
    (hready : s.mem.ready l = true) : s'.mem.ready l = true := by
  obtain ⟨⟨a, ha⟩, -⟩ := hc
  have hann := State.anns_of_receive ha
  exact (hr.inv.frozen hs.change s.anns_wf (d := c) (by rw [hann]; simp [ReceiveState.ann])
    hready).1

theorem step_awake {o : Outcome} {e : ℕ} {q : AwakeState} (hs : step s d o = some s')
    (hd : s.thread d = .awake e q) :
    ∃ m q', exec d s.mem (awakeCode e q) o = some (m, q') ∧ s' = s.set d m (.awake e q') := by
  simp only [TagAos.step, hd, Thread.code, exec_map, Option.map_map, Option.map_eq_some_iff] at hs
  obtain ⟨⟨m, q'⟩, hx, rfl⟩ := hs
  exact ⟨m, q', hx, rfl⟩

theorem Remembered.step {o : Outcome} (hr : Reachable s) (ho : SparesSet s d o)
    (hs : step s d o = some s') (h : Remembered s) : Remembered s' := by
  have hstep : Step s d s' := ⟨o, hs⟩
  intro hflag c a l hc hq hready
  by_cases hcd : c = d
  · subst hcd
    obtain ⟨q, -, hx⟩ := hstep.of_receive hc
    rw [ReceiveState.sleep_succ hx] at hflag
    cases hflag
  rw [hstep.thread_of_ne hcd] at hc
  have hq' : c ∈ s.mem.localWq l := by
    obtain ⟨m, p, hx, rfl⟩ := hstep.exec
    exact hx.localWq hcd hq
  have hready' : s.mem.ready l = false := by
    by_contra hne
    rw [ready_of_asleep hr hstep ⟨⟨a, hc⟩, hq'⟩ (by simpa using hne)] at hready
    cases hready
  rcases hstep.tagReady hflag with hflag' | ⟨u, hu⟩
  · obtain ⟨e, u, p, he, hp⟩ := h hflag' c a l hc hq' hready'
    by_cases hed : e = d
    · subst hed
      obtain ⟨m, p', hx, rfl⟩ := step_awake hs he
      have hv : a.valid = true := by
        have hv := hr.checked c
        rwa [hc] at hv
      have hlinked : s.mem.tagLevel a.lvl = some l := tagLevel_of_waitsOn hr hc rfl hready'
      rcases AwakeState.owes_succ hx (ReceiveArgs.lvl_lt hv) (fun j => hr.tagLevel) hp with
        hp' | ⟨hsignal, hacq⟩ | ⟨x, rfl, hzero⟩ | ⟨x, rfl, hempty⟩
      · exact ⟨e, u, p', Config.set_thread_self .., hp'⟩
      · rw [ho hsignal u p he hacq] at hflag'
        cases hflag'
      · have hx' := linked_of_visits hr he rfl
        rw [hlinked, Option.some.injEq] at hx'
        subst hx'
        have hann := State.anns_of_receive hc
        exact absurd ((hr.inv.reg l).pos (c := c) (by rw [hann]; rfl)) hzero
      · have hx' := linked_of_visits hr he rfl
        rw [hlinked, Option.some.injEq] at hx'
        subst hx'
        rw [Config.set_mem, hempty] at hq
        exact absurd hq (Finset.notMem_empty c)
    · exact ⟨e, u, p, by rwa [hstep.thread_of_ne hed], hp⟩
  · obtain ⟨m, p', hx, rfl⟩ := hstep.awake hu
    cases hx
    exact ⟨d, u, .lockLevel 0, Config.set_thread_self .., Nat.zero_le _⟩

theorem remembered_of_run {s₀ : State} (h0 : Init s₀) (h : Run (MovesWithin SparesSet step) s₀ s) :
    Remembered s := by
  refine h.invariant_run ?_ ?_
  · obtain ⟨pm, e, hm⟩ := h0.mem
    intro hflag
    rw [hm] at hflag
    cases hflag
  · rintro u d v hu ih - ⟨o, ho, hs⟩
    exact ih.step ⟨_, h0, run_of_within hu⟩ ho hs

/-! ## The tag stays usable

The condition is that of a run: whoever is interrupted after it has set the flag is so after
somebody has cleared it.  It does not ask whether the flag that is set is still the one this command
has set. -/

/-- What the runs of `R` from `s₀` to `s` leave behind. -/
structure Usable (R : State → CallId → State → Prop) (s₀ s : State) : Prop where
  /-- When a command that has set the flag returns `-EINTR`, the flag has been cleared since. -/
  interrupted : ∀ u v c e, Run R s₀ u → u.thread c = .awake e .setTagReady → R u c v →
    RunUnder R (fun t _ => t.mem.tagReady = true) v s →
    s.thread c = .awake e (.done (-EINTR)) → s.mem.tagReady = false
  /-- While no command is in flight and the flag is set, nobody is asleep, but for those that a
  sender is coming to wake up. -/
  awake : (∀ c e p, s.thread c = .awake e p → (s.thread c).inFlight = false) →
    s.mem.tagReady = true → ∀ c l, Asleep s c l → Notified s l

theorem walks_step {e : ℕ} {p : AwakeState} (hs : MovesWithin SparesSet step s d s')
    (hflag : s.mem.tagReady = true) (hc : s.thread c = .awake e p) (hp : p.Walks) :
    ∃ p, s'.thread c = .awake e p ∧ p.Walks := by
  by_cases hcd : c = d
  · subst hcd
    obtain ⟨o, ho, hstep⟩ := hs
    obtain ⟨m, p', hx, rfl⟩ := step_awake hstep hc
    refine ⟨p', Config.set_thread_self .., AwakeState.walks_succ hx ?_ hp⟩
    rintro ⟨hsignal, hacq⟩
    rw [ho hsignal e p hc hacq] at hflag
    cases hflag
  · exact ⟨p, by rwa [Step.thread_of_ne hs.moves hcd], hp⟩

/-- **A failed `AWAKE_ALL` leaves the tag usable**, in every run in which a command that has set
the flag is only interrupted after the flag has been cleared again. -/
theorem usable {s₀ : State} (h0 : Init s₀) (h : Run (MovesWithin SparesSet step) s₀ s) :
    Usable (MovesWithin SparesSet step) s₀ s where
  interrupted := by
    intro u v c e hu hc huv hvs hs
    exfalso
    -- while the flag stays set the command is not interrupted
    obtain ⟨p, hp, hwalks⟩ := hvs.invariant
      (P := fun t => ∃ p, t.thread c = .awake e p ∧ p.Walks) (by
        obtain ⟨m, p', hx, rfl⟩ := Step.awake huv.moves hc
        cases hx
        exact ⟨.lockLevel 0, Config.set_thread_self .., trivial⟩)
      (by
        rintro t d t' ⟨p, hp, hwalks⟩ hflag hstep
        exact walks_step hstep hflag hp hwalks)
    rw [hs] at hp
    cases hp
    exact absurd (show -EINTR = 1 from hwalks) (by decide)
  awake := by
    intro hidle hflag c l hc
    have hr : Reachable s := ⟨s₀, h0, run_of_within h⟩
    by_cases hready : s.mem.ready l = true
    · exact notified_of_ready hr hc hready
    · obtain ⟨⟨a, ha⟩, hq⟩ := hc
      obtain ⟨d, e, p, hd, hp⟩ := remembered_of_run h0 h hflag c a l ha hq (by simpa using hready)
      have hnot := hidle d e p hd
      rw [hd, AwakeState.inFlight_of_owes e hp] at hnot
      cases hnot

/-- The command is interrupted at its first lock, while the receiver sleeps. -/
def interruptedSet : List (CallId × Outcome) := goes 0 15 ++ goes 1 6 ++ [(1, .signal), (1, .go)]

/-- A command that has returned, or a receive. -/
def Thread.settled : Thread → Bool
  | receive _ _ => true
  | send _ _ => false
  | awake e p => !(awake e p).inFlight

theorem interruptedSet_settled (c : CallId) :
    (((State.start awakening).after interruptedSet).thread c).settled = true := by
  by_cases hlt : c < 2
  · have hnamed : ∀ c, c < 2 →
        (((State.start awakening).after interruptedSet).thread c).settled = true := by
      decide +kernel
    exact hnamed c hlt
  · rw [State.thread_after (n := 2) (by decide) _ (not_lt.1 hlt)]
    obtain ⟨k, rfl⟩ := Nat.exists_eq_add_of_le' (not_lt.1 hlt)
    rfl

/-- The flag stays set, and the receiver sleeps on. -/
theorem unusable : ¬ ∀ s₀ s, Init s₀ → Run Step s₀ s → Usable Step s₀ s := by
  intro h
  have huse := h _ _ (State.init_start awakening_idle) (State.run_after _ interruptedSet)
  have hidle : ∀ c e p, ((State.start awakening).after interruptedSet).thread c = .awake e p →
      (((State.start awakening).after interruptedSet).thread c).inFlight = false := by
    intro c e p hc
    have hsettled := interruptedSet_settled c
    rw [hc] at hsettled ⊢
    simpa [Thread.settled] using hsettled
  obtain ⟨d, b, q, hd, -⟩ := huse.awake hidle (by decide +kernel) 0 0
    ⟨⟨⟨0, true, 2, 0⟩, by decide +kernel⟩, by decide +kernel⟩
  have hsettled := interruptedSet_settled d
  rw [hd] at hsettled
  cases hsettled

/-- A schedule in which nobody is interrupted. -/
theorem sparesSet_of_ne (s : State) (c : CallId) (o : Outcome) (h : (o != .signal) = true) :
    SparesSet s c o := by
  intro ho
  subst ho
  cases h

theorem usable_wholeSet :
    ((State.start awakening).after (goes 0 15 ++ goes 1 200)).mem.tagReady = true ∧
      Usable (MovesWithin SparesSet step) (State.start awakening)
        ((State.start awakening).after (goes 0 15 ++ goes 1 200)) :=
  ⟨by decide +kernel, usable (State.init_start awakening_idle)
    (within_after sparesSet_of_ne (by decide +kernel))⟩

end TagAos
