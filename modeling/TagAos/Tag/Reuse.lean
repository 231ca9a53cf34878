import TagAos.Tag.Leak
import TagAos.Tag.Message

/-!
# An idle level is ready for reuse

A sender marks an instance (it sets `size`, then `ready`) on the strength of a receiver that it has
found registered.  That receiver may be leaving.  The instance is clean again once nobody is left
because the marks are never without somebody who is going to reset them:

* `Marked` — `ready` is set, `size` is not zero, or a sender is past its test of `waiting`.
* `Claimed` — a receiver is registered, or a last receiver has not reset the instance yet, or the
  instance has been replaced for good.
* `claimed_of_marked` — in every reachable state a marked instance is claimed.
* `level_clean` — when no call is in flight, the instance of every level is as new.
-/

set_option autoImplicit false

namespace TagAos

open Conc

/-! ## Marks and claims

A mark is what a message leaves on an instance until it is reset, and a claim is somebody who is
going to reset it.  The invariant is that there is no mark without a claim. -/

/-- The instance that the sender is going to mark. -/
def SendState.fills : SendState → Option Addr
  | copy l | setSize l | setReady l => some l
  | _ => none

/-- The instance that the last receiver still has to reset, or finds replaced. -/
def ReceiveState.resets : ReceiveState → Option Addr
  | tryLock l _ | loadNew l _ | cmpEpoch l _ _ | resetReady l _ | resetSize l _ => some l
  | _ => none

/-- The instance is marked, or about to be. -/
def Marked (s : State) (l : Addr) : Prop :=
  s.mem.ready l = true ∨ s.mem.size l ≠ 0 ∨
    ∃ c b p, s.thread c = .send b p ∧ p.fills = some l

/-- Somebody is going to reset the instance, or nobody will use it again. -/
def Claimed (s : State) (l : Addr) : Prop :=
  (∃ c, (s.anns c).reg = some l) ∨
    (∃ c a p, s.thread c = .receive a p ∧ p.resets = some l) ∨ Gone s.mem s.anns l

theorem SendState.ann_of_fills {p : SendState} {l : Addr} (i : ℕ) (h : p.fills = some l) :
    (Sem.rcu l, Mode.read) ∈ (p.ann i).held := by
  cases p <;> cases h <;> simp [SendState.ann]

/-! ## Who marks

A sender marks an instance some operations after it has tested `waiting`, so the test has to be
remembered: a sender past it counts as a mark. -/

section Step

variable {c : CallId} {m m' : Mem} {a : ReceiveArgs} {b : SendArgs} {l : Addr}

theorem receive_size {q q' : ReceiveState} (hx : Exec c m (receiveCode a q) m' q')
    (hl : m'.size l ≠ 0) : m.size l ≠ 0 := by
  refine (hx.size hl).resolve_right ?_
  rintro ⟨n, hn, hi⟩
  cases q
  case start =>
    rw [receiveCode] at hi
    split at hi <;> cases hi
  case release rel r => cases rel <;> cases hi
  case resetSize x r =>
    cases hi
    exact hn rfl
  all_goals cases hi

theorem send_size {q q' : SendState} (hx : Exec c m (sendCode b q) m' q') (hl : m'.size l ≠ 0) :
    m.size l ≠ 0 ∨ q.fills = some l := by
  refine (hx.size hl).imp_right ?_
  rintro ⟨n, -, hi⟩
  cases q
  case start =>
    rw [sendCode] at hi
    split at hi <;> cases hi
  case setSize x => cases hi; rfl
  all_goals cases hi

theorem awake_size {e : ℕ} {q q' : AwakeState} (hx : Exec c m (awakeCode e q) m' q') :
    m'.size = m.size := by
  cases q <;> cases hx <;> rfl

/-- A sender gets past its test only by finding somebody registered. -/
theorem SendState.fills_succ {q q' : SendState} (hx : Exec c m (sendCode b q) m' q')
    (hq : q'.fills = some l) : q.fills = some l ∨ m.waiting l ≠ 0 := by
  cases q
  case start =>
    rw [sendCode] at hx
    split at hx <;> cases hx <;> cases hq
  case testTagWaiting =>
    cases hx
    beta_reduce at hq
    split at hq <;> cases hq
  case testWaiting x =>
    cases hx
    beta_reduce at hq
    split_ifs at hq with hzero
    · cases hq
    · cases hq; exact .inr hzero
    · cases hq; exact .inr hzero
  case unlockMutex x rc =>
    cases hx
    split at hq <;> cases hq
  all_goals cases hx <;> first | exact .inl hq | cases hq

end Step

variable {s s' : State} {c : CallId} {l : Addr}

/-- **Who marks**: a sender that has found a receiver registered. -/
theorem Marked.of_step (hi : Inv s.mem s.anns) (hs : Step s c s') (h : Marked s' l) :
    Marked s l ∨ ∃ d, (s.anns d).reg = some l := by
  rcases h with hready | hsize | ⟨d, b, p, hd, hp⟩
  · rcases hs.setReady hready with hready | ⟨b, hb⟩
    · exact .inl (.inl hready)
    · exact .inl (.inr (.inr ⟨c, b, .setReady l, hb, rfl⟩))
  · cases ht : s.thread c with
    | receive a q =>
      obtain ⟨m, q', hx, rfl⟩ := hs.receive ht
      exact .inl (.inr (.inl (receive_size hx hsize)))
    | send b q =>
      obtain ⟨m, q', hx, rfl⟩ := hs.send ht
      rcases send_size hx hsize with hsize | hq
      · exact .inl (.inr (.inl hsize))
      · exact .inl (.inr (.inr ⟨c, b, q, ht, hq⟩))
    | awake e q =>
      obtain ⟨m, q', hx, rfl⟩ := hs.awake ht
      rw [Config.set_mem, awake_size hx] at hsize
      exact .inl (.inr (.inl hsize))
  · by_cases hdc : d = c
    · subst hdc
      obtain ⟨q, ht, hx⟩ := hs.of_send hd
      rcases SendState.fills_succ hx hp with hq | hwaiting
      · exact .inl (.inr (.inr ⟨d, b, q, ht, hq⟩))
      · have hpos : 0 < s.mem.waiting l :=
          lt_of_le_of_ne (hi.reg l).nonneg (Ne.symm hwaiting)
        exact .inr ((hi.reg l).exists_of_pos hpos)
    · rw [hs.thread_of_ne hdc] at hd
      exact .inl (.inr (.inr ⟨d, b, p, hd, hp⟩))

/-! ## Who resets

The last receiver, unless it finds that the instance has been replaced; then nobody will use the
instance again. -/

/-- A receiver that leaves an instance leaves somebody registered, or goes on to reset it. -/
theorem receive_reg {m : Mem} {a : ReceiveArgs} {q q' : ReceiveState}
    (hl : (q.ann a.lvl).reg = some l)
    (hx : Exec c s.mem (receiveCode a q) m q') :
    (q'.ann a.lvl).reg = some l ∨ q'.resets = some l ∨ m.waiting l ≠ 0 := by
  cases q
  case leaveLevel x r =>
    cases hl
    cases hx with
    | decWaitingZero hzero => exact .inr (.inl rfl)
    | decWaiting hne => exact .inr (.inr (by simpa using hne))
  case condTagReady | readSize =>
    cases hl
    cases ReceiveState.turns_succ hx rfl <;> exact .inl rfl
  all_goals cases hl
  all_goals cases hx <;> exact .inl rfl

/-- A last receiver goes on until it has found its instance replaced, or has reset it. -/
theorem receive_resets {m : Mem} {a : ReceiveArgs} {q q' : ReceiveState} (hl : q.resets = some l)
    (ht : s.mem.tagLevel a.lvl ≠ none) (hq : q.Epoch s.mem s.anns)
    (hx : Exec c s.mem (receiveCode a q) m q') :
    q'.resets = some l ∨ Gone s.mem s.anns l ∨ m.size l = 0 ∧ ∃ r, q' = .wipeSize l r := by
  cases q
  case tryLock x r => cases hl; cases hx <;> exact .inl rfl
  case loadNew x r =>
    cases hl
    cases hx with
    | loadLevelNull hnone => exact absurd hnone ht
    | loadLevel => exact .inl rfl
  case cmpEpoch x new r =>
    cases hl
    cases hx with
    | cmpEpochNewer he =>
      rcases hq with rfl | hgone
      · exact absurd he (lt_irrefl _)
      · exact .inr (.inl hgone)
    | cmpEpochOlder => exact .inl rfl
  case resetReady x r => cases hl; cases hx; exact .inl rfl
  case resetSize x r => cases hl; cases hx; exact .inr (.inr ⟨by simp, r, rfl⟩)
  all_goals cases hl

/-- After the last receiver has reset the size nothing is left of the marks: it holds the
`rcu_lock` for writing, so no sender is past its test. -/
theorem not_marked_of_wipeSize (hi : Inv s.mem s.anns) {a : ReceiveArgs} {r : Result}
    (hc : s.thread c = .receive a (.wipeSize l r)) (hsize : s.mem.size l = 0) : ¬ Marked s l := by
  have hann := State.anns_of_receive hc
  rintro (hready | hne | ⟨d, b, p, hd, hp⟩)
  · rw [hi.idle c l (by rw [hann]; rfl)] at hready
    cases hready
  · exact hne hsize
  · have hread : (Sem.rcu l, Mode.read) ∈ (s.anns d).held := by
      rw [State.anns_of_send hd]
      exact p.ann_of_fills b.lvl hp
    exact hi.no_reader (c := c) (by rw [hann]; simp [ReceiveState.ann]) hread

/-- A registered receiver leaves another one registered, or goes on to reset the instance. -/
theorem registered_step (hr : Reachable s) (hs : Step s c s') {d : CallId}
    (hd : (s.anns d).reg = some l) :
    (∃ d, (s'.anns d).reg = some l) ∨
      ∃ d a p, s'.thread d = .receive a p ∧ p.resets = some l := by
  by_cases hdc : d = c
  · subst hdc
    obtain ⟨a, q, ht, -⟩ := Thread.minds_of_reg hd
    obtain ⟨m, q', hx, rfl⟩ := hs.receive ht
    rw [State.anns_of_receive ht] at hd
    rcases receive_reg hd hx with hreg | hresets | hwaiting
    · refine .inl ⟨d, ?_⟩
      rwa [State.anns_of_receive (Config.set_thread_self ..)]
    · exact .inr ⟨d, a, q', Config.set_thread_self .., hresets⟩
    · have hcensus := (hr.step hs).inv.reg l
      exact .inl (hcensus.exists_of_pos (lt_of_le_of_ne hcensus.nonneg (Ne.symm hwaiting)))
  · exact .inl ⟨d, by rwa [hs.anns_of_ne d hdc]⟩

/-- **Claims last as long as marks.** -/
theorem Claimed.step (hr : Reachable s) (hs : Step s c s') (h : Claimed s l) :
    Claimed s' l ∨ ¬ Marked s' l := by
  have hgone : Gone s.mem s.anns l → Claimed s' l := fun hg =>
    .inr (.inr (hg.step hr.inv hs.change hs.anns_of_ne))
  rcases h with ⟨d, hd⟩ | ⟨d, a, p, hd, hp⟩ | hg
  · rcases registered_step hr hs hd with hreg | hresets
    · exact .inl (.inl hreg)
    · exact .inl (.inr (.inl hresets))
  · by_cases hdc : d = c
    · subst hdc
      obtain ⟨m, q', hx, rfl⟩ := hs.receive hd
      have hv : a.valid = true := by
        have hv := hr.checked d
        rw [hd] at hv
        cases p <;> first | exact hv | cases hp
      rcases receive_resets hp (hr.tagLevel (ReceiveArgs.lvl_lt hv)) (hr.epoch.receive d a p hd) hx
        with hresets | hg | ⟨hsize, r, rfl⟩
      · exact .inl (.inr (.inl ⟨d, a, q', Config.set_thread_self .., hresets⟩))
      · exact .inl (hgone hg)
      · exact .inr (not_marked_of_wipeSize (hr.step hs).inv (Config.set_thread_self ..) hsize)
    · exact .inl (.inr (.inl ⟨d, a, p, by rwa [hs.thread_of_ne hdc], hp⟩))
  · exact .inl (hgone hg)

/-- **Marks are never without somebody who is going to reset them.** -/
theorem claimed_of_marked (hr : Reachable s) (l : Addr) (h : Marked s l) : Claimed s l := by
  obtain ⟨s₀, h0, hrun⟩ := hr
  refine hrun.invariant_run (P := fun s => ∀ l, Marked s l → Claimed s l) ?_ ?_ l h
  · rintro l (hready | hsize | ⟨c, b, p, hc, hp⟩)
    · obtain ⟨pm, e, hm⟩ := h0.mem
      rw [hm] at hready
      cases hready
    · obtain ⟨pm, e, hm⟩ := h0.mem
      rw [hm] at hsize
      exact absurd rfl hsize
    · obtain rfl := h0.send hc
      cases hp
  · intro u d v hu ih _ hs l hl
    have hr : Reachable u := ⟨s₀, h0, hu⟩
    have hclaimed : Claimed u l := (hl.of_step hr.inv hs).elim (ih l) .inl
    exact (hclaimed.step hr hs).resolve_right (not_not.2 hl)

/-! ## No call in flight

Without calls there are no claims, so there are no marks. -/

theorem Thread.ann_of_not_inFlight {t : Thread} (h : t.inFlight = false) : t.ann = {} := by
  rw [Thread.inFlight, Bool.and_eq_false_iff, Bool.not_eq_false', Bool.not_eq_false'] at h
  exact h.elim Thread.ann_of_idle Thread.ann_of_returned

/-- **Nothing is left behind.**  When no call is in flight on the tag, the instance a
level points to has no receiver, no message and no lock held. -/
theorem level_clean (h : Reachable s) (hidle : ∀ c, (s.thread c).inFlight = false) {i : ℕ}
    (hi : i < levels) :
    ∃ l, s.mem.tagLevel i = some l ∧ s.mem.waiting l = 0 ∧ s.mem.ready l = false ∧
      s.mem.size l = 0 ∧ s.mem.wMutex l = none ∧ s.mem.sem (.rcu l) = .free := by
  obtain ⟨l, hl⟩ := Option.ne_none_iff_exists'.1 (h.tagLevel hi)
  have hann : ∀ c, s.anns c = {} := fun c => Thread.ann_of_not_inFlight (hidle c)
  have hclean : ¬ Marked s l := by
    intro hm
    rcases claimed_of_marked h l hm with ⟨c, hc⟩ | ⟨c, a, p, hc, hp⟩ | hg
    · rw [hann c] at hc
      cases hc
    · have hnot := hidle c
      rw [hc] at hnot
      cases p <;> cases hp <;> cases hnot
    · exact hg.unlinked ⟨i, hl⟩
  refine ⟨l, hl, ?_, ?_, ?_, ?_, ?_⟩
  · by_contra hne
    obtain ⟨c, hc⟩ := (h.inv.reg l).exists_of_pos
      (lt_of_le_of_ne (h.inv.reg l).nonneg (Ne.symm hne))
    rw [hann c] at hc
    cases hc
  · exact Bool.eq_false_iff.2 fun hready => hclean (.inl hready)
  · by_contra hne
    exact hclean (.inr (.inl hne))
  · rw [Option.eq_none_iff_forall_ne_some]
    intro c hc
    have := (h.inv.mutex l c).1 hc
    rw [hann c] at this
    cases this
  · refine RwSem.eq_free fun c md hc => ?_
    have := (h.inv.sem (.rcu l) c md).1 hc
    rw [hann c] at this
    cases this

/-- A message has been handed over and both calls have returned. -/
theorem exchanged_inFlight (c : CallId) : (exchanged.thread c).inFlight = false := by
  rw [exchanged]
  exact State.idle_after (n := 2) exchange_idle (by decide +kernel) (by decide +kernel) c

end TagAos
