import TagAos.Tag.Reuse

/-!
# What a recycled level keeps

The last receiver of an instance that stays linked makes it new again: it resets `ready` and `size`
and wipes the buffer.  It reads the length of the `memset` from `size` after the reset, so that
nothing is wiped, and the bytes of old messages stay.

* `wipesNothing` — the `memset` has length 0 in every reachable state.
* `Residue` — there are bytes in the buffer.  They are never without somebody who is going to come
  to the `memset`, or to find the instance replaced.
* `recycled_clean` — when the last receivers find nothing to wipe, an idle level is as new.
-/

set_option autoImplicit false

namespace TagAos

open Conc

/-- The buffer that `create_level` leaves. -/
def zeroBuffer : List UInt8 := List.replicate bufferSize 0

/-! ## The length of the `memset`

The source resets `size` and then wipes `size` bytes.  That nobody sets `size` in between is why the
number is 0 in every run. -/

section Step

variable {c : CallId} {m m' : Mem} {a : ReceiveArgs} {b : SendArgs} {l : Addr}

/-- Nothing is left to wipe, at the points after the reset of the size. -/
def ReceiveState.WipesNothing (m : Mem) : ReceiveState → Prop
  | wipeSize l _ => m.size l = 0
  | wipe _ n _ => n = 0
  | _ => True

theorem receive_wipesNothing {q q' : ReceiveState} (hx : Exec c m (receiveCode a q) m' q')
    (hq : q.WipesNothing m) : q'.WipesNothing m' := by
  cases q
  case start | leave | clear | release => cases ReceiveState.ends_succ hx rfl <;> trivial
  case condTagReady | readSize => cases ReceiveState.turns_succ hx rfl <;> trivial
  case resetSize x r =>
    cases hx
    exact Function.update_self ..
  case wipeSize x r => cases hx; exact hq
  all_goals cases hx <;> trivial

end Step

variable {s s' : State} {c : CallId} {l : Addr}

/-- Between the reset of the size and the release of the `rcu_lock` no sender sets the size. -/
theorem size_of_wipeSize (hi : Inv s.mem s.anns) (hs : Step s c s') {d : CallId}
    {a : ReceiveArgs} {r : Result} (hd : s.thread d = .receive a (.wipeSize l r))
    (hsize : s.mem.size l = 0) : s'.mem.size l = 0 := by
  by_contra hne
  cases ht : s.thread c with
  | receive a' q =>
    obtain ⟨m, q', hx, rfl⟩ := hs.receive ht
    exact receive_size hx hne hsize
  | send b q =>
    obtain ⟨m, q', hx, rfl⟩ := hs.send ht
    rcases send_size hx hne with hne | hq
    · exact hne hsize
    · have hread : (Sem.rcu l, Mode.read) ∈ (s.anns c).held := by
        rw [State.anns_of_send ht]
        exact q.ann_of_fills b.lvl hq
      have hann := State.anns_of_receive hd
      exact hi.no_reader (c := d) (by rw [hann]; simp [ReceiveState.ann]) hread
  | awake e q =>
    obtain ⟨m, q', hx, rfl⟩ := hs.awake ht
    rw [Config.set_mem, awake_size hx] at hne
    exact hne hsize

/-- **The wipe of a recycled level wipes nothing.** -/
theorem wipesNothing (hr : Reachable s) {a : ReceiveArgs} {p : ReceiveState}
    (hc : s.thread c = .receive a p) : p.WipesNothing s.mem := by
  obtain ⟨s₀, h0, hrun⟩ := hr
  refine hrun.invariant_run
    (P := fun s => ∀ c a p, s.thread c = .receive a p → p.WipesNothing s.mem) ?_ ?_ c a p hc
  · intro c a p hc
    obtain rfl := h0.receive hc
    trivial
  · intro u e v hu ih _ hs d a p hd
    have hr : Reachable u := ⟨s₀, h0, hu⟩
    by_cases hde : d = e
    · subst hde
      obtain ⟨q, ht, hx⟩ := hs.of_receive hd
      exact receive_wipesNothing hx (ih d a q ht)
    · rw [hs.thread_of_ne hde] at hd
      have hp := ih d a p hd
      cases p with
      | wipeSize l r => exact size_of_wipeSize hr.inv hs hd hp
      | _ => exact hp

/-! ## Bytes left behind

Which instances have bytes of a message in their buffer, and who could still be expected to wipe
them. -/

/-- There are bytes in the buffer of the instance. -/
def Residue (s : State) (l : Addr) : Prop := s.mem.buffer l ≠ zeroBuffer

/-- The instance that the last receiver has yet to wipe, or to find replaced. -/
def ReceiveState.recycles : ReceiveState → Option Addr
  | wipeSize l _ | wipe l _ _ => some l
  | p => p.resets

/-- Somebody is going to wipe the instance, or nobody will use it again. -/
def Owed (s : State) (l : Addr) : Prop :=
  (∃ c, (s.anns c).reg = some l) ∨
    (∃ c a p, s.thread c = .receive a p ∧ p.recycles = some l) ∨ Gone s.mem s.anns l

/-- The last receiver finds nothing to wipe. -/
def NothingToWipe (s : State) (c : CallId) : Prop :=
  ∀ a l n r, s.thread c = .receive a (.wipe l n r) → s.mem.buffer l = zeroBuffer

theorem ReceiveState.recycles_of_resets {p : ReceiveState} (h : p.resets = some l) :
    p.recycles = some l := by
  cases p <;> first | exact h | cases h

theorem ReceiveState.recycles_cases {p : ReceiveState} (h : p.recycles = some l) :
    p.resets = some l ∨ (∃ r, p = wipeSize l r) ∨ ∃ n r, p = wipe l n r := by
  cases p
  case wipeSize x r => cases h; exact .inr (.inl ⟨r, rfl⟩)
  case wipe x n r => cases h; exact .inr (.inr ⟨n, r, rfl⟩)
  all_goals exact .inl h

theorem Claimed.owed (h : Claimed s l) : Owed s l := by
  rcases h with h | ⟨c, a, p, hc, hp⟩ | h
  · exact .inl h
  · exact .inr (.inl ⟨c, a, p, hc, ReceiveState.recycles_of_resets hp⟩)
  · exact .inr (.inr h)

/-! ## Who leaves bytes

Only a send that finds a receiver registered writes to a buffer. -/

/-- An instruction leaves the bytes of an instance alone, or makes a new one, or writes to the
buffer. -/
theorem Exec.buffer {π : Type} {m m' : Mem} {i : Instr π} {p : π} (h : Exec c m i m' p) :
    m'.buffer l = m.buffer l ∨
      (∃ k e failed ok, i = .createLevel k e failed ok ∧ m'.buffer l = zeroBuffer) ∨
      (∃ n, i = .memset l n p ∧
        m'.buffer l = overwrite (m.buffer l) (List.replicate n 0)) ∨
      ∃ data n ok fault, i = .copyFromUser l data n ok fault := by
  cases h
  case createLevel k e failed ok =>
    by_cases hlb : l = m.brk
    · subst hlb
      exact .inr (.inl ⟨k, e, failed, ok, rfl, Function.update_self ..⟩)
    · exact .inl (Function.update_of_ne hlb ..)
  case memset x n =>
    by_cases hlx : l = x
    · subst hlx
      exact .inr (.inr (.inl ⟨n, rfl, Function.update_self ..⟩))
    · exact .inl (Function.update_of_ne hlx ..)
  case copyFromUser x data n fault _ =>
    by_cases hlx : l = x
    · subst hlx
      exact .inr (.inr (.inr ⟨data, n, _, fault, rfl⟩))
    · exact .inl (Function.update_of_ne hlx ..)
  case copyFromUserFault x data n k ok _ =>
    by_cases hlx : l = x
    · subst hlx
      exact .inr (.inr (.inr ⟨data, n, ok, _, rfl⟩))
    · exact .inl (Function.update_of_ne hlx ..)
  all_goals exact .inl rfl

theorem awake_buffer {m m' : Mem} {e : ℕ} {q q' : AwakeState}
    (hx : Exec c m (awakeCode e q) m' q') : m'.buffer = m.buffer := by
  funext l
  rcases hx.buffer (l := l) with h | ⟨_, _, _, _, h, -⟩ | ⟨_, h, -⟩ | ⟨_, _, _, _, h⟩
  · exact h
  all_goals cases q <;> cases h

theorem send_buffer {m m' : Mem} {b : SendArgs} {q q' : SendState}
    (hx : Exec c m (sendCode b q) m' q') (hl : m'.buffer l ≠ m.buffer l) : q = .copy l := by
  rcases hx.buffer (l := l) with h | ⟨_, _, _, _, h, -⟩ | ⟨_, h, -⟩ | ⟨_, _, _, _, h⟩
  · exact absurd h hl
  all_goals
    cases q
    case start =>
      rw [sendCode] at h
      split at h <;> cases h
    all_goals cases h
  rfl

/-- A receiver leaves the bytes of an instance alone, or makes a new one. -/
theorem receive_buffer {m m' : Mem} {a : ReceiveArgs} {q q' : ReceiveState}
    (hx : Exec c m (receiveCode a q) m' q') (hq : q.WipesNothing m) :
    m'.buffer l = m.buffer l ∨ m'.buffer l = zeroBuffer := by
  rcases hx.buffer (l := l) with h | ⟨_, _, _, _, -, h⟩ | ⟨n, h, hwipe⟩ | ⟨_, _, _, _, h⟩
  · exact .inl h
  · exact .inr h
  all_goals
    cases q
    case start =>
      rw [receiveCode] at h
      split at h <;> cases h
    case release rel r => cases rel <;> cases h
    all_goals cases h
  -- the length was read after the reset of the size
  obtain rfl : n = 0 := hq
  exact .inl hwipe

/-- **Who leaves bytes**: a sender that has found a receiver registered. -/
theorem Residue.of_step (hr : Reachable s) (hs : Step s c s') (h : Residue s' l) :
    Residue s l ∨ Marked s l := by
  cases ht : s.thread c with
  | receive a q =>
    obtain ⟨m, q', hx, rfl⟩ := hs.receive ht
    rcases receive_buffer hx (wipesNothing hr ht) with heq | hzero
    · exact .inl (by rwa [Residue, ← heq])
    · exact absurd hzero h
  | send b q =>
    obtain ⟨m, q', hx, rfl⟩ := hs.send ht
    by_cases heq : m.buffer l = s.mem.buffer l
    · exact .inl (by rwa [Residue, ← heq])
    · exact .inr (.inr (.inr ⟨c, b, q, ht, by rw [send_buffer hx heq]; rfl⟩))
  | awake e q =>
    obtain ⟨m, q', hx, rfl⟩ := hs.awake ht
    exact .inl (by rwa [Residue, ← awake_buffer hx])

/-! ## Who is going to come to the wipe

As long as there are bytes, a receiver is registered, or the last one is on its way to the wipe, or
the instance has been replaced. -/

/-- A last receiver goes on until it has found its instance replaced, or has nothing to wipe. -/
theorem receive_recycles {m : Mem} {a : ReceiveArgs} {q q' : ReceiveState}
    (hl : q.recycles = some l) (ht : s.mem.tagLevel a.lvl ≠ none) (hq : q.Epoch s.mem s.anns)
    (hx : Exec c s.mem (receiveCode a q) m q') :
    q'.recycles = some l ∨ Gone s.mem s.anns l ∨ ∃ n r, q = .wipe l n r := by
  rcases ReceiveState.recycles_cases hl with hres | ⟨r, rfl⟩ | ⟨n, r, rfl⟩
  · rcases receive_resets hres ht hq hx with h | h | ⟨-, r, rfl⟩
    · exact .inl (ReceiveState.recycles_of_resets h)
    · exact .inr (.inl h)
    · exact .inl rfl
  · cases hx
    exact .inl rfl
  · exact .inr (.inr ⟨n, r, rfl⟩)

/-- **Somebody is owed as long as there are bytes**, when the last receivers find none. -/
theorem Owed.step (hr : Reachable s) (hg : NothingToWipe s c) (hs : Step s c s') (h : Owed s l) :
    Owed s' l ∨ ¬ Residue s' l := by
  have hgone : Gone s.mem s.anns l → Owed s' l := fun h =>
    .inr (.inr (h.step hr.inv hs.change hs.anns_of_ne))
  rcases h with ⟨d, hd⟩ | ⟨d, a, p, hd, hp⟩ | h
  · rcases registered_step hr hs hd with hreg | hresets
    · exact .inl (.inl hreg)
    · obtain ⟨e, a, p, he, hp⟩ := hresets
      exact .inl (.inr (.inl ⟨e, a, p, he, ReceiveState.recycles_of_resets hp⟩))
  · by_cases hdc : d = c
    · subst hdc
      obtain ⟨m, q', hx, rfl⟩ := hs.receive hd
      have hv : a.valid = true := by
        have hv := hr.checked d
        rw [hd] at hv
        cases p <;> first | exact hv | cases hp
      rcases receive_recycles hp (hr.tagLevel (ReceiveArgs.lvl_lt hv))
          (hr.epoch.receive d a p hd) hx with hrecycles | h | ⟨n, r, rfl⟩
      · exact .inl (.inr (.inl ⟨d, a, q', Config.set_thread_self .., hrecycles⟩))
      · exact .inl (hgone h)
      · cases hp
        refine .inr (not_not.2 ?_)
        rcases receive_buffer (l := l) hx (wipesNothing hr hd) with heq | hzero
        · exact heq.trans (hg a l n r hd)
        · exact hzero
    · exact .inl (.inr (.inl ⟨d, a, p, by rwa [hs.thread_of_ne hdc], hp⟩))
  · exact .inl (hgone h)

/-- **Bytes are never without somebody who is going to come to the wipe.** -/
theorem owed_of_residue {s₀ : State} (h0 : Init s₀) (h : RunUnder Step NothingToWipe s₀ s)
    (l : Addr) (hl : Residue s l) : Owed s l := by
  have key : Reachable s ∧ ∀ l, Residue s l → Owed s l := by
    refine h.invariant (P := fun s => Reachable s ∧ ∀ l, Residue s l → Owed s l)
      ⟨Reachable.init h0, fun l hl => ?_⟩ ?_
    · obtain ⟨pm, e, hm⟩ := h0.mem
      exact absurd (by rw [hm]; rfl) hl
    · rintro u d v ⟨hr, ih⟩ hg hs
      refine ⟨hr.step hs, fun l hl => ?_⟩
      have howed : Owed u l :=
        (hl.of_step hr hs).elim (ih l) fun hm => (claimed_of_marked hr l hm).owed
      exact (howed.step hr hg hs).resolve_right (not_not.2 hl)
  exact key.2 l hl

/-! ## No call in flight

Then there is nobody left to come to a wipe, so there are no bytes on an instance that a level
points to, when each last receiver has found none. -/

/-- When no call is in flight, the instance of every level is as new, but for its epoch. -/
def AsNew (s : State) : Prop :=
  (∀ c, (s.thread c).inFlight = false) → ∀ i, i < levels →
    ∃ l, s.mem.tagLevel i = some l ∧ s.mem.buffer l = zeroBuffer ∧ s.mem.size l = 0 ∧
      s.mem.ready l = false ∧ s.mem.waiting l = 0 ∧ s.mem.wMutex l = none ∧
      s.mem.sem (.rcu l) = .free

/-- **A recycled level keeps nothing of old messages**, when there was nothing to wipe. -/
theorem recycled_clean {s₀ : State} (h0 : Init s₀) (h : RunUnder Step NothingToWipe s₀ s) :
    AsNew s := by
  intro hidle i hi
  have hr : Reachable s := ⟨s₀, h0, h.run⟩
  obtain ⟨l, hl, hwaiting, hready, hsize, hmutex, hsem⟩ := level_clean hr hidle hi
  refine ⟨l, hl, ?_, hsize, hready, hwaiting, hmutex, hsem⟩
  by_contra hbuffer
  rcases owed_of_residue h0 h l hbuffer with ⟨c, hc⟩ | ⟨c, a, p, hc, hp⟩ | hg
  · rw [show s.anns c = {} from Thread.ann_of_not_inFlight (hidle c)] at hc
    cases hc
  · have hnot := hidle c
    rw [hc] at hnot
    cases p <;> cases hp <;> cases hnot
  · exact hg.unlinked ⟨i, hl⟩

/-- A test for `NothingToWipe`. -/
def nothingToWipe (s : State) (c : CallId) : Bool :=
  match s.thread c with
  | .receive _ (.wipe l _ _) => s.mem.buffer l = zeroBuffer
  | _ => true

theorem nothingToWipe_sound (s : State) (c : CallId) (h : nothingToWipe s c = true) :
    NothingToWipe s c := by
  intro a l n r hc
  simpa [nothingToWipe, hc] using h

set_option maxRecDepth 20000 in
/-- The bytes that receiver 0 has got went away with its instance, which was freed; receiver 3 has
been interrupted and has recycled the instance that replaced it. -/
theorem recycled_clean_freedBehind :
    freedBehind.mem.tagLevel 0 = some 32 ∧ (freedBehind.mem.buffer 0).head? = some 7 ∧
      AsNew freedBehind :=
  ⟨by decide +kernel, by decide +kernel, recycled_clean (State.init_start busyLevel_idle)
    (State.runUnder_after nothingToWipe_sound (by decide +kernel))⟩

/-- A message of two bytes has been handed over, and the bytes are still there. -/
theorem recycled_dirty : ¬ ∀ s₀ s, Init s₀ → Run Step s₀ s → AsNew s := by
  intro h
  obtain ⟨s₀, h0, hrun⟩ := exchanged_reachable
  obtain ⟨l, hl, hbuffer, -⟩ := h s₀ exchanged h0 hrun exchanged_inFlight 0 (by decide)
  have h0 : exchanged.mem.tagLevel 0 = some 0 := by decide +kernel
  rw [h0, Option.some.injEq] at hl
  subst hl
  exact absurd (congrArg List.head? hbuffer) (by decide +kernel)

end TagAos
