import TagAos.Tag.Delivery

/-!
# The flag of `TAG_AWAKE_ALL`

`tag_entry->ready` is set by the command and cleared by whichever receiver brings
`tag_entry->waiting` to zero.  The test and the set are two steps of the command, the decrement and
the clear are two steps of the receiver, and both pairs can be torn apart:

* the receivers the command has seen leave between its test and its set, and the flag stays set on
  an idle tag (`flag_can_outlive`);
* a receiver that has brought the counter to zero clears the flag after a command has set it for
  receivers that came later (`awakeAll_can_lose`).

Both theorems about runs that avoid these two orders, `flag_cleared` and `awakeAll_loses_nobody`,
go by an invariant on the calls counted in `tag_entry->waiting`.
-/

set_option autoImplicit false

namespace TagAos

open Conc

/-! ## The points of a receiver

Where a receiver stands with respect to `tag_entry->waiting` and to the flag: whether it is going to
leave the counter, whether its wait may still be before it, and whether it is over. -/

namespace ReceiveState

/-- The receiver is certain to leave `tag_entry->waiting`, or to clear the flag, at some later
point: it has acquired its `level_lock` and has not yet left. -/
def attends : ReceiveState → Bool
  | .loadLevel | .enter _ => true
  | p => (p.ann 0).counted || (p.ann 0).clearing

/-- The receiver is counted in `tag_entry->waiting` and its wait is still before it or not over. -/
def pending : ReceiveState → Bool
  | lockRcu _ | unlockLevel _ | testReady _ | lockLevelWrite _ | reloadLevel _ | retestReady _ _
  | readEpoch _ _ | create _ _ _ | install _ _ _ | unlockOld _ _ _ | lockNew _ _
  | unlockLevelWrite _ | register _ | waitReady _ | waitTagReady _ | prepare _ | condReady _ _
  | condTagReady _ _ | sleep _ => true
  | _ => false

/-- The receiver will not wait any more. -/
def waitOver : ReceiveState → Bool
  | start | loadTag | checkPerm | lockLevel | loadLevel | enter _ => false
  | p => !p.pending

/-- A receive that is counted has its wait before it, or behind it. -/
theorem waitOver_or_pending {p : ReceiveState} {i : ℕ} (h : (p.ann i).counted = true) :
    p.waitOver = true ∨ p.pending = true := by
  cases p <;> first | exact .inl rfl | exact .inr rfl | cases h

theorem counted_of_pending {p : ReceiveState} (i : ℕ) (h : p.pending = true) :
    (p.ann i).counted = true := by
  cases p <;> first | rfl | cases h

theorem inFlight_of_attends (a : ReceiveArgs) {p : ReceiveState} (h : p.attends = true) :
    (Thread.receive a p).inFlight = true := by
  cases p <;> first | rfl | cases h

theorem waitOver_of_result {p : ReceiveState} {r : Result} (h : p.result = some r) :
    p.waitOver = true := by
  cases p <;> first | rfl | cases h

section Step

variable {c : CallId} {m m' : Mem} {a : ReceiveArgs} {q q' : ReceiveState}

/-- A wait that is over stays over. -/
theorem waitOver_succ (hx : Exec c m (receiveCode a q) m' q') (hq : q.waitOver = true) :
    q'.waitOver = true := by
  cases q
  case start => cases hq
  case readSize l => cases hx; rw [afterSize]; split <;> rfl
  case leave rel r => cases hx <;> cases rel <;> rfl
  case clear rel r => cases hx; cases rel <;> rfl
  case release rel r => cases rel <;> cases hx <;> rfl
  all_goals first | (cases hx <;> rfl) | cases hq

/-- A wait that is pending is pending still, or over. -/
theorem pending_succ (hx : Exec c m (receiveCode a q) m' q') (hq : q.pending = true) :
    q'.pending = true ∨ q'.waitOver = true := by
  cases q
  case condTagReady l p => cases hx <;> cases p <;> first | exact .inl rfl | exact .inr rfl
  all_goals first | (cases hx <;> first | exact .inl rfl | exact .inr rfl) | cases hq

/-- A receiver becomes certain to leave by acquiring its `level_lock`, and stays so until it is
counted. -/
theorem attends_succ (hx : Exec c m (receiveCode a q) m' q') (ht : m.tagLevel a.lvl ≠ none)
    (hq : q.attends = true) :
    ((q.ann a.lvl).counted = true ∨ (q.ann a.lvl).clearing = true) ∨ q'.attends = true := by
  cases q
  case loadLevel =>
    cases hx with
    | loadLevelNull h => exact absurd h ht
    | loadLevel => exact .inr rfl
  case enter l => cases hx; exact .inr rfl
  all_goals first | exact .inl (.inl rfl) | exact .inl (.inr rfl) | cases hq

end Step

end ReceiveState

theorem Thread.ann_not_counted_send (b : SendArgs) (q : SendState) :
    (Thread.send b q).ann.counted = false ∧ (Thread.send b q).ann.clearing = false := by
  cases q <;> exact ⟨rfl, rfl⟩

theorem Thread.ann_not_counted_awake (e : ℕ) (q : AwakeState) :
    (Thread.awake e q).ann.counted = false ∧ (Thread.awake e q).ann.clearing = false := by
  cases q <;> exact ⟨rfl, rfl⟩

/-- Only receivers are counted, or clear the flag. -/
theorem receive_of_counted {s : State} {c : CallId}
    (h : (s.anns c).counted = true ∨ (s.anns c).clearing = true) :
    ∃ a p, s.thread c = .receive a p ∧
      ((p.ann a.lvl).counted = true ∨ (p.ann a.lvl).clearing = true) := by
  cases ht : s.thread c with
  | receive a p =>
    rw [State.anns_of_receive ht] at h
    exact ⟨a, p, rfl, h⟩
  | send b q =>
    have := Thread.ann_not_counted_send b q
    simp [State.anns, ht, this] at h
  | awake e q =>
    have := Thread.ann_not_counted_awake e q
    simp [State.anns, ht, this] at h

/-- Only the command sets the flag. -/
theorem Step.tagReady {s s' : State} {e : CallId} (hs : Step s e s')
    (hr : s'.mem.tagReady = true) :
    s.mem.tagReady = true ∨ ∃ u, s.thread e = .awake u .setTagReady := by
  cases ht : s.thread e with
  | receive a q =>
    obtain ⟨m, q', hx, rfl⟩ := hs.receive ht
    refine (hx.tagReady hr).imp_right fun hi => ?_
    cases q
    case start =>
      rw [receiveCode] at hi
      split at hi <;> cases hi
    case release rel r => cases rel <;> cases hi
    all_goals cases hi
  | send b q =>
    obtain ⟨m, q', hx, rfl⟩ := hs.send ht
    refine (hx.tagReady hr).imp_right fun hi => ?_
    cases q
    case start =>
      rw [sendCode] at hi
      split at hi <;> cases hi
    all_goals cases hi
  | awake u q =>
    obtain ⟨m, q', hx, rfl⟩ := hs.awake ht
    refine (hx.tagReady hr).imp_right fun hi => ?_
    cases q
    case setTagReady => exact ⟨u, rfl⟩
    all_goals cases hi

/-! ## The flag on an idle tag

The command sets the flag because it has seen somebody counted.  By the time it does, they may all
have left; then nobody is going to clear the flag, and the next receivers return at once with
nothing. -/

/-- Some receive is certain to leave `tag_entry->waiting`, or to clear the flag, later. -/
def Attended (s : State) : Prop :=
  ∃ d a p, s.thread d = .receive a p ∧ p.attends = true

/-- The condition on a step: when a command sets the flag, some receiver is going to clear it. -/
def SetsWhileAttended (s : State) (e : CallId) : Prop :=
  ∀ u, s.thread e = .awake u .setTagReady → Attended s

/-- Whoever is counted, or is clearing, attends to the flag. -/
theorem Attended.of_counted {s : State} {c : CallId}
    (h : (s.anns c).counted = true ∨ (s.anns c).clearing = true) : Attended s := by
  obtain ⟨a, p, hc, hp⟩ := receive_of_counted h
  refine ⟨c, a, p, hc, ?_⟩
  cases p <;> first | rfl | simp [ReceiveState.ann] at hp

/-- While a call is counted or about to clear the flag, and the flag stays set, some call is. -/
theorem Inv.counted_change {m m' : Mem} {A A' : CallId → Ann} {c d : CallId} (h : Inv m A)
    (h' : Inv m' A') (hc : Change c m (A c) (A' c) m') (ho : ∀ d, d ≠ c → A' d = A d)
    (hd : (A d).counted = true ∨ (A d).clearing = true) (hr : m'.tagReady = true) :
    ∃ d, (A' d).counted = true ∨ (A' d).clearing = true := by
  by_cases hdc : d = c
  · subst hdc
    cases hc
    case tagCleared hcl keep => cases hr
    case leftLast hco hcl hz keep => exact ⟨d, .inr (by simp [keep.clearing])⟩
    case left hco hcl hnz keep =>
      -- somebody else is still counted
      have hpos : 0 < m.tagWaiting - 1 := lt_of_le_of_ne h'.counted.nonneg (Ne.symm hnz)
      obtain ⟨f, hf⟩ := h'.counted.exists_of_pos hpos
      exact ⟨f, .inl hf⟩
    case entered hn keep => exact ⟨d, .inl (by simp [keep.counted])⟩
    case' interrupted y hy keep => have keep := keep (h.fresh_ne hy)
    all_goals
      rename_i keep
      exact ⟨d, by rw [keep.counted, keep.clearing]; exact hd⟩
  · exact ⟨d, by rw [ho d hdc]; exact hd⟩

/-- As long as the flag stays set, somebody goes on to attend to it: the last to be counted clears
it. -/
theorem attended_step {s s' : State} {e : CallId} (hr : Reachable s) (hs : Step s e s')
    (h : Attended s) (hready : s'.mem.tagReady = true) : Attended s' := by
  obtain ⟨d, a, p, hd, hp⟩ := h
  by_cases hco : (s.anns d).counted = true ∨ (s.anns d).clearing = true
  · obtain ⟨f, hf⟩ := hr.inv.counted_change (hr.step hs).inv hs.change hs.anns_of_ne hco hready
    exact Attended.of_counted hf
  · by_cases hde : d = e
    · subst hde
      obtain ⟨m, p', hx, rfl⟩ := hs.receive hd
      have hv : a.valid = true := by
        have hv := hr.checked d
        rw [hd] at hv
        cases p <;> first | exact hv | cases hp
      rcases ReceiveState.attends_succ hx (hr.tagLevel (ReceiveArgs.lvl_lt hv)) hp with h | h
      · rw [State.anns_of_receive hd] at hco
        exact absurd h hco
      · exact ⟨d, a, p', Config.set_thread_self .., h⟩
    · exact ⟨d, a, p, by rw [hs.thread_of_ne hde]; exact hd, hp⟩

/-- In a run in which every command sets the flag while some receiver is going to clear it, the
flag is set only while some receiver is going to clear it. -/
theorem attended_of_tagReady {s₀ s : State} (h0 : Init s₀)
    (h : RunUnder Step SetsWhileAttended s₀ s) (hr : s.mem.tagReady = true) : Attended s := by
  refine h.invariant_run (P := fun s => s.mem.tagReady = true → Attended s) ?_ ?_ hr
  · obtain ⟨pm, e, hm⟩ := h0.mem
    intro hr
    rw [hm] at hr
    cases hr
  · intro s e s' hrun hi hg hs hr'
    have hreach : Reachable s := ⟨s₀, h0, hrun.run⟩
    rcases hs.tagReady hr' with hr | ⟨u, hu⟩
    · exact attended_step hreach hs (hi hr) hr'
    · exact attended_step hreach hs (hg u hu) hr'

/-- **The flag does not outlive its receivers**, in every run in which each `AWAKE_ALL` command
sets it while some receiver holds its `level_lock` before it is counted, is counted, or is about
to clear the flag: when no call is in flight the flag is clear. -/
theorem flag_cleared {s₀ s : State} (h0 : Init s₀) (h : RunUnder Step SetsWhileAttended s₀ s)
    (hidle : ∀ c, (s.thread c).inFlight = false) : s.mem.tagReady = false := by
  by_contra hr
  obtain ⟨d, a, p, hd, hp⟩ := attended_of_tagReady h0 h (by simpa using hr)
  have hd' := hidle d
  rw [hd, ReceiveState.inFlight_of_attends a hp] at hd'
  cases hd'

/-- Two receivers on level 0 and an `AWAKE_ALL` command, call 1. -/
def awakening : CallId → Thread
  | 1 => .awake 0 .start
  | _ => .receive ⟨0, true, 2, 0⟩ .start

theorem awakening_idle (c : CallId) : (awakening c).idle = true := by
  unfold awakening
  split <;> rfl

/-- The command tests `waiting` while a receiver sleeps, the receiver is interrupted and leaves,
and then the command sets the flag. -/
def tornSet : List (CallId × Outcome) :=
  goes 0 15 ++ goes 1 5 ++ signalled 0 ++ goes 0 15 ++ goes 1 194

/-- At the end of `tornSet` no call is in flight and the flag is set. -/
theorem flag_can_outlive : ¬ ∀ s, Reachable s → (∀ c, (s.thread c).inFlight = false) →
    s.mem.tagReady = false := by
  intro h
  have hidle := State.idle_after (n := 2) awakening_idle (l := tornSet) (by decide +kernel)
    (by decide +kernel)
  have hready := h _ (State.reachable_start awakening_idle tornSet) hidle
  revert hready
  decide +kernel

/-- The command sets the flag while the receiver sleeps, and the receiver clears it. -/
def wholeSet : List (CallId × Outcome) := goes 0 15 ++ goes 1 200 ++ goes 0 19

/-- Enough for `SetsWhileAttended`: if a command is about to set the flag then call 0 attends. -/
def setsWhileAttended (s : State) (c : CallId) : Bool :=
  match s.thread c, s.thread 0 with
  | .awake _ .setTagReady, .receive _ p => p.attends
  | .awake _ .setTagReady, _ => false
  | _, _ => true

theorem setsWhileAttended_sound (s : State) (c : CallId) (h : setsWhileAttended s c = true) :
    SetsWhileAttended s c := by
  intro u hu
  rw [setsWhileAttended, hu] at h
  cases h0 : s.thread 0 with
  | receive a p =>
    rw [h0] at h
    exact ⟨0, a, p, h0, h⟩
  | send b p => rw [h0] at h; cases h
  | awake e p => rw [h0] at h; cases h

/-- In the run `wholeSet` the command sets the flag while a receiver sleeps, and the receiver clears
it. -/
theorem flag_cleared_wholeSet :
    ((State.start awakening).after wholeSet).thread 1 = .awake 0 (.done 1) ∧
      ((State.start awakening).after wholeSet).mem.tagReady = false :=
  ⟨by decide +kernel, flag_cleared (State.init_start awakening_idle)
    (State.runUnder_after setsWhileAttended_sound (by decide +kernel))
    (State.idle_after (n := 2) awakening_idle (by decide +kernel) (by decide +kernel))⟩

/-! ## The receivers a command is for

The other tear is on the side of the receiver: between the decrement to zero and the clear a command
may set the flag for receivers that have come since, and the clear takes it away from them. -/

/-- The condition on a step: a command sets the flag while no receiver is about to clear it, or
while nobody counted can still go to sleep on an instance without a message. -/
def SetsApart (s : State) (e : CallId) : Prop :=
  ∀ u, s.thread e = .awake u .setTagReady →
    ∀ r, (s.anns r).clearing = true → ∀ c a p, s.thread c = .receive a p → p.pending = true →
      ∃ l, p.on = some l ∧ s.mem.ready l = true

/-- What a command that is going to return 1 promises, in runs from `s₀` that meet `Good`: no
receive that was counted in `tag_entry->waiting` when it set the flag is later asleep with its
condition false. -/
def AwakeLosesNobody (Good : State → CallId → Prop) (s₀ : State) : Prop :=
  ∀ s₁ s₂ s s' e u c a p l, RunUnder Step Good s₀ s₁ →
    s₁.thread e = .awake u .setTagReady → Good s₁ e → Step s₁ e s₂ →
    s₁.thread c = .receive a p → (p.ann a.lvl).counted = true →
    RunUnder Step Good s₂ s → RunUnder Step Good s s' → s'.thread e = .awake u (.done 1) →
    ¬ (Asleep s c l ∧ s.mem.ready l = false ∧ s.mem.tagReady = false)

/-- The flag is set and nobody is about to clear it. -/
def Armed (s : State) : Prop := s.mem.tagReady = true ∧ ∀ r, (s.anns r).clearing = false

/-- How a receive `c` that a command has seen can go on: it will not wait any more, or it is on an
instance with a message, or the flag stays set until it leaves. -/
structure Awoken (c : CallId) (a : ReceiveArgs) (s : State) : Prop where
  point : ∃ p, s.thread c = .receive a p ∧
    (p.waitOver = true ∨ (∃ l, p.on = some l ∧ s.mem.ready l = true) ∨
      (p.pending = true ∧ Armed s))

/-- While somebody is counted nobody begins to clear the flag, so a flag that is set stays set. -/
theorem Inv.armed_change {m m' : Mem} {A A' : CallId → Ann} {c d : CallId} (h : Inv m A)
    (h' : Inv m' A') (hc : Change c m (A c) (A' c) m') (ho : ∀ d, d ≠ c → A' d = A d)
    (hd : (A' d).counted = true) (hr : m.tagReady = true) (hn : ∀ r, (A r).clearing = false) :
    m'.tagReady = true ∧ ∀ r, (A' r).clearing = false := by
  have hframe : ∀ {b : Bool}, (A' c).clearing = b → b = false →
      ∀ r, (A' r).clearing = false := by
    intro b hb hf r
    by_cases hrc : r = c
    · subst hrc; rw [hb, hf]
    · rw [ho r hrc]; exact hn r
  cases hc
  case leftLast hco hcl hz keep =>
    -- the counter is zero now, but `d` is counted
    have hcensus := h'.counted
    simp only [hz] at hcensus
    exact absurd hd (hcensus.not_of_zero d)
  case tagCleared hcl keep =>
    rw [hn c] at hcl
    cases hcl
  case tagArmed hcl keep => exact ⟨rfl, hframe keep.clearing (hn c)⟩
  case' interrupted y hy keep => have keep := keep (h.fresh_ne hy)
  all_goals
    rename_i keep
    exact ⟨hr, hframe keep.clearing (hn c)⟩

section Step

variable {s₁ s₂ s s' : State} {c e : CallId} {a : ReceiveArgs}

theorem Armed.step {d : CallId} (h : Armed s) (hr : Reachable s) (hs : Step s e s')
    (hd : (s'.anns d).counted = true) : Armed s' :=
  hr.inv.armed_change (hr.step hs).inv hs.change hs.anns_of_ne hd h.1 h.2

/-- A step keeps this, whoever makes it. -/
theorem awoken_step (hr : Reachable s) (hs : Step s e s') (h : Awoken c a s) :
    Awoken c a s' := by
  obtain ⟨p, hc, hp⟩ := h.point
  have hready : ∀ l, p.on = some l → s.mem.ready l = true → s'.mem.ready l = true := by
    intro l hl hl'
    have hann := (State.anns_of_receive hc).trans (p.ann_of_on a.lvl hl)
    exact (hr.inv.frozen hs.change s.anns_wf (d := c) (by simp [hann]) hl').1
  by_cases hce : c = e
  · subst hce
    obtain ⟨m, p', hx, rfl⟩ := hs.receive hc
    refine ⟨p', Config.set_thread_self .., ?_⟩
    rcases hp with hover | ⟨l, hl, hl'⟩ | ⟨hpend, harmed⟩
    · exact .inl (ReceiveState.waitOver_succ hx hover)
    · rcases ReceiveState.on_succ hx hl with hon | ⟨r, hres, -⟩
      · exact .inr (.inl ⟨l, hon, hready l hl hl'⟩)
      · exact .inl (ReceiveState.waitOver_of_result hres)
    · rcases ReceiveState.pending_succ hx hpend with hpend' | hover
      · refine .inr (.inr ⟨hpend', harmed.step hr hs (d := c) ?_⟩)
        rw [State.anns_of_receive (Config.set_thread_self ..)]
        exact ReceiveState.counted_of_pending _ hpend'
      · exact .inl hover
  · refine ⟨p, by rw [hs.thread_of_ne hce]; exact hc, ?_⟩
    rcases hp with hover | ⟨l, hl, hl'⟩ | ⟨hpend, harmed⟩
    · exact .inl hover
    · exact .inr (.inl ⟨l, hl, hready l hl hl'⟩)
    · refine .inr (.inr ⟨hpend, harmed.step hr hs (d := c) ?_⟩)
      rw [hs.anns_of_ne c hce, State.anns_of_receive hc]
      exact ReceiveState.counted_of_pending _ hpend

/-- The state right after the step that sets the flag. -/
theorem awoken_of_set {u : ℕ} {p : ReceiveState}
    (he : s₁.thread e = .awake u .setTagReady) (hg : SetsApart s₁ e) (hs : Step s₁ e s₂)
    (hc : s₁.thread c = .receive a p) (hp : (p.ann a.lvl).counted = true) : Awoken c a s₂ := by
  have hne : c ≠ e := by
    rintro rfl
    rw [he] at hc; cases hc
  obtain ⟨m, q', hx, rfl⟩ := hs.awake he
  cases hx
  refine ⟨p, by rw [Config.set_thread_of_ne _ _ _ _ hne]; exact hc, ?_⟩
  rcases ReceiveState.waitOver_or_pending hp with hover | hpend
  · exact .inl hover
  · by_cases hcl : ∃ r, (s₁.anns r).clearing = true
    · obtain ⟨r, hcl⟩ := hcl
      exact .inr (.inl (hg u he r hcl c a p hc hpend))
    · refine .inr (.inr ⟨hpend, rfl, fun r => ?_⟩)
      by_cases hre : r = e
      · subst hre
        rw [State.anns, Config.set_thread_self]
        exact (Thread.ann_not_counted_awake u _).2
      · rw [hs.anns_of_ne r hre]
        simpa using fun h => hcl ⟨r, h⟩

end Step

/-- **`AWAKE_ALL` loses no receiver**, in every run in which no command sets the flag between the
decrement to zero and the clear of one receiver while another one, already counted, can still go
to sleep. -/
theorem awakeAll_loses_nobody {s₀ : State} (h0 : Init s₀) : AwakeLosesNobody SetsApart s₀ := by
  intro s₁ s₂ s s' e u c a p l h1 he hg h2 hc hp h3 _ _
  rintro ⟨⟨⟨a', hasleep⟩, -⟩, hready, htag⟩
  have hr₁ : Reachable s₁ := ⟨s₀, h0, h1.run⟩
  have haw : Awoken c a s := by
    refine h3.invariant_run (awoken_of_set he hg h2 hc hp) fun v d w hv hi _ hs => ?_
    exact awoken_step ((hr₁.step h2).run hv.run) hs hi
  obtain ⟨q, hq, hq'⟩ := haw.point
  rw [hasleep] at hq
  cases hq
  rcases hq' with hover | ⟨l', hl', hready'⟩ | ⟨-, htag', -⟩
  · cases hover
  · cases hl'
    rw [hready] at hready'; cases hready'
  · rw [htag] at htag'; cases htag'

/-- Receiver 0 has been interrupted and has brought `waiting` to zero, receiver 2 has entered and
gone to sleep, and the command has tested both fields. -/
def beforeTornClear : State :=
  (State.start awakening).after (goes 0 15 ++ signalled 0 ++ goes 0 13 ++ goes 2 15 ++ goes 1 5)

/-- The command sets the flag, receiver 0 clears it, the command wakes receiver 2 and returns 1,
and receiver 2 goes back to sleep. -/
theorem awakeAll_can_lose : ¬ ∀ s₀, Init s₀ → AwakeLosesNobody anyStep s₀ := by
  intro h
  refine h (State.start awakening) (State.init_start awakening_idle) beforeTornClear
    (beforeTornClear.after [(1, .go)]) _ _ 1 0 2 ⟨0, true, 2, 0⟩ (.sleep 0) 0 (State.run_after _ _)
    (by decide +kernel) trivial (State.step_after (by decide +kernel)) (by decide +kernel) rfl
    (State.run_after _ (goes 0 1 ++ goes 1 194 ++ goes 2 4)) (RunUnder.refl _)
    (by decide +kernel) ⟨⟨⟨⟨0, true, 2, 0⟩, by decide +kernel⟩, by decide +kernel⟩, ?_, ?_⟩
  · decide +kernel
  · decide +kernel

/-- Enough for `SetsApart`: no command is about to set the flag. -/
def setsNothing (s : State) (c : CallId) : Bool :=
  match s.thread c with
  | .awake _ .setTagReady => false
  | _ => true

theorem setsNothing_sound (s : State) (c : CallId) (h : setsNothing s c = true) :
    SetsApart s c := by
  intro u hu
  rw [setsNothing, hu] at h
  cases h

/-- A receiver is asleep and the command is about to set the flag. -/
def beforeWholeSet : State := (State.start awakening).after (goes 0 15 ++ goes 1 5)

theorem beforeWholeSet_apart : SetsApart beforeWholeSet 1 := by
  intro u _ r hr
  -- nobody is about to clear the flag
  refine absurd hr ?_
  match r with
  | 0 => decide +kernel
  | 1 => decide +kernel
  | r + 2 =>
    have hidle : (beforeWholeSet.thread (r + 2)).idle = true := by
      rw [beforeWholeSet, State.thread_after (n := 2) (by decide +kernel) _ (by omega)]
      exact awakening_idle (r + 2)
    simp [State.anns, Thread.ann_of_idle hidle]

/-- A run of that kind: at its end the receiver does not sleep with both flags clear. -/
theorem awakeAll_loses_nobody_wholeSet :
    ¬ (Asleep ((beforeWholeSet.after [(1, .go)]).after (goes 1 194)) 0 0 ∧
      ((beforeWholeSet.after [(1, .go)]).after (goes 1 194)).mem.ready 0 = false ∧
      ((beforeWholeSet.after [(1, .go)]).after (goes 1 194)).mem.tagReady = false) :=
  awakeAll_loses_nobody (State.init_start awakening_idle) beforeWholeSet _ _ _ 1 0 0
    ⟨0, true, 2, 0⟩ (.sleep 0) 0
    (State.runUnder_after setsNothing_sound (by decide +kernel)) (by decide +kernel)
    beforeWholeSet_apart (State.step_after (by decide +kernel)) (by decide +kernel) rfl
    (State.runUnder_after setsNothing_sound (by decide +kernel)) (RunUnder.refl _)
    (by decide +kernel)

end TagAos
