import TagAos.Tag.Reclaim

/-!
# Leaked instances

An instance that has been replaced is freed by its last receiver, provided that one still finds
out: it compares its instance with the one it has loaded from the level pointer, and when the
pointer is replaced after that load the last receiver recycles an instance that nothing points to
any more (`leaked`).

* `owes` — the instance a receiver is going to link, or to free once it has been replaced.
* `OrderInv` — when no epoch overflows, the instance a level points to has the greatest epoch of
  its level, so a last receiver that finds its instance replaced frees it.
* `no_leak` — every instance is linked, freed, or owed by somebody, in every run in which an
  instance is replaced only while somebody is still going to look for its successor.
-/

set_option autoImplicit false

namespace TagAos

open Conc

/-! ## Who is going to free an instance

An instance that has been replaced is the business of the receivers that are still on it, and of the
receiver that has created it and not yet linked it. -/

namespace ReceiveState

/-- The instance whose successor the receiver is still going to look for before it is done. -/
def minds : ReceiveState → Option Addr
  | register x | waitReady x | waitTagReady x | prepare x | condReady x _ | condTagReady x _
  | sleep x | finish x | codeTagReady x | codeReady x | recheck x | readSize x | copy x _
  | unlockRcu x _ | leaveLevel x _ | tryLock x _ | loadNew x _ => some x
  | _ => none

/-- The instance that the receiver is going to link, or to free if it has been replaced. -/
def owes : ReceiveState → Option Addr
  | install _ _ x | unlockFree x _ | free x _ => some x
  | cmpEpoch x new _ => if new = x then none else some x
  | p => p.minds

/-- What the receiver relies on about epochs. -/
def Order (m : Mem) : ReceiveState → Prop
  | create _ l e => m.epoch l < e
  | install _ old new => m.epoch old < m.epoch new
  | cmpEpoch l new _ => new < m.brk ∧ (new = l ∨ m.epoch l < m.epoch new)
  | _ => True

theorem owes_of_minds {p : ReceiveState} {x : Addr} (h : p.minds = some x) :
    p.owes = some x := by
  cases p <;> cases h <;> rfl

theorem minds_of_reg {p : ReceiveState} {x : Addr} {i : ℕ} (h : (p.ann i).reg = some x) :
    p.minds = some x := by
  cases p <;> first | exact h | cases h

theorem inFlight_of_owes {p : ReceiveState} {x : Addr} (a : ReceiveArgs) (h : p.owes = some x) :
    (Thread.receive a p).inFlight = true := by
  cases p <;> first | rfl | cases h

end ReceiveState

/-- Only receivers register. -/
theorem Thread.minds_of_reg {t : Thread} {x : Addr} (h : t.ann.reg = some x) :
    ∃ a p, t = .receive a p ∧ p.minds = some x := by
  cases t with
  | receive a p => exact ⟨a, p, rfl, ReceiveState.minds_of_reg h⟩
  | send b p => cases p <;> cases h
  | awake e p => cases p <;> cases h

/-! ## What a step does to the instances

Few instructions assign the pointer of a level or create an instance.  The three cases are told
apart once. -/

/-- The ways a step can treat the pointers and the epochs. -/
inductive Instances (s : State) (c : CallId) (s' : State) : Prop
  /-- A new instance was linked. -/
  | install {a : ReceiveArgs} {sem old new : Addr}
      (point : s.thread c = .receive a (.install sem old new))
      (mem : s'.mem = { s.mem with
        tagLevel := Function.update s.mem.tagLevel a.lvl (some new) })
  /-- A new instance was created. -/
  | create {a : ReceiveArgs} {sem l : Addr} {e : ℤ}
      (point : s.thread c = .receive a (.create sem l e))
      (point' : s'.thread c = .receive a (.install sem l s.mem.brk))
      (mem : s'.mem = s.mem.createLevel a.lvl e)
  /-- Everything is as before. -/
  | same (tagLevel : s'.mem.tagLevel = s.mem.tagLevel) (brk : s'.mem.brk = s.mem.brk)
      (level : s'.mem.level = s.mem.level) (epoch : s'.mem.epoch = s.mem.epoch)
      (point : ∀ a sem old new, s.thread c ≠ .receive a (.install sem old new))

/-- An operation assigns a pointer, or creates an instance, or does neither. -/
theorem Exec.instances {π : Type} {c : CallId} {m m' : Mem} {i : Instr π} {p : π}
    (hx : Exec c m i m' p) :
    (∃ j x, i = .storeLevel j x p ∧
        m' = { m with tagLevel := Function.update m.tagLevel j (some x) }) ∨
      (∃ j e failed ok, i = .createLevel j e failed ok ∧ p = ok m.brk ∧
        m' = m.createLevel j e) ∨
      (m'.tagLevel = m.tagLevel ∧ m'.brk = m.brk ∧ m'.level = m.level ∧ m'.epoch = m.epoch) := by
  cases hx
  case storeLevel j x => exact .inl ⟨j, x, rfl, rfl⟩
  case createLevel j e failed ok => exact .inr (.inl ⟨j, e, failed, ok, rfl, rfl, rfl⟩)
  all_goals exact .inr (.inr ⟨rfl, rfl, rfl, rfl⟩)

/-- What a step does to the instances, read off its operation. -/
theorem Step.instances {s s' : State} {c : CallId} (hr : Reachable s) (hs : Step s c s') :
    Instances s c s' := by
  cases ht : s.thread c with
  | receive a q =>
    obtain ⟨m, q', hx, rfl⟩ := hs.receive ht
    by_cases hq : ∃ sem old new, q = .install sem old new
    · obtain ⟨sem, old, new, rfl⟩ := hq
      cases hx
      exact .install ht rfl
    · have hpoint : ∀ a₀ sem old new, s.thread c ≠ .receive a₀ (.install sem old new) := by
        intro a₀ sem old new h
        rw [ht] at h
        cases h
        exact hq ⟨sem, old, new, rfl⟩
      rcases hx.instances with ⟨j, x, hi, rfl⟩ | ⟨j, e, failed, ok, hi, rfl, rfl⟩ | ⟨h1, h2, h3, h4⟩
      · cases q
        case install sem old new => exact absurd ⟨sem, old, new, rfl⟩ hq
        case rollback old =>
          -- the pointer that is assigned is already there
          have hlink := hr.inv.link c a.lvl old (by rw [State.anns_of_receive ht]; rfl)
          cases hi
          exact .same (by simp [Function.update_eq_self_iff, hlink]) rfl rfl rfl hpoint
        case start =>
          rw [receiveCode] at hi
          split at hi <;> cases hi
        case release rel r => cases rel <;> cases hi
        all_goals cases hi
      · cases q
        case create sem l e₀ =>
          cases hi
          exact .create ht (Config.set_thread_self ..) rfl
        case start =>
          rw [receiveCode] at hi
          split at hi <;> cases hi
        case release rel r => cases rel <;> cases hi
        all_goals cases hi
      · exact .same h1 h2 h3 h4 hpoint
  | send b q =>
    obtain ⟨m, q', hx, rfl⟩ := hs.send ht
    rcases hx.instances with ⟨j, x, hi, -⟩ | ⟨j, e, failed, ok, hi, -⟩ | ⟨h1, h2, h3, h4⟩
    · cases q <;> first | cases hi | (rw [sendCode] at hi; split at hi <;> cases hi)
    · cases q <;> first | cases hi | (rw [sendCode] at hi; split at hi <;> cases hi)
    · exact .same h1 h2 h3 h4 (by simp [ht])
  | awake e q =>
    obtain ⟨m, q', hx, rfl⟩ := hs.awake ht
    rcases hx.instances with ⟨j, x, hi, -⟩ | ⟨j, e, failed, ok, hi, -⟩ | ⟨h1, h2, h3, h4⟩
    · cases q <;> cases hi
    · cases q <;> cases hi
    · exact .same h1 h2 h3 h4 (by simp [ht])

namespace Instances

variable {s s' : State} {c : CallId} {x : Addr}

theorem brk_le (h : Instances s c s') : s.mem.brk ≤ s'.mem.brk := by
  cases h
  case install mem => exact le_of_eq (by rw [mem])
  case create mem => rw [mem]; exact Nat.le_succ _
  case same brk _ _ _ => exact le_of_eq brk.symm

/-- The level and the epoch of an instance never change. -/
theorem epoch_eq (h : Instances s c s') (hx : x < s.mem.brk) :
    s'.mem.level x = s.mem.level x ∧ s'.mem.epoch x = s.mem.epoch x := by
  cases h
  case install mem => rw [mem]; exact ⟨rfl, rfl⟩
  case create mem =>
    have hne : x ≠ s.mem.brk := ne_of_lt hx
    simp [mem, Mem.createLevel, hne]
  case same level epoch _ => rw [level, epoch]; exact ⟨rfl, rfl⟩

end Instances

/-! ## The instance linked last

As long as instances are linked in the order of some relation, the one a level points to is the
latest of its level.  The order is left open here; it is that of the epochs below, and that of the
addresses in `TagAos.Tag.Generations`. -/

/-- A linked instance is the latest of its level in the order `R`, but for instances about to be
linked. -/
def Latest (R : Mem → Addr → Addr → Prop) (s : State) : Prop :=
  ∀ i n x, s.mem.tagLevel i = some n → x < s.mem.brk → s.mem.level x = i →
    x = n ∨ R s.mem x n ∨ ∃ c a sem old, s.thread c = .receive a (.install sem old x)

section Step

variable {R : Mem → Addr → Addr → Prop} {s s' : State} {c : CallId}

/-- An instance that somebody else cannot be about to link is linked or has been replaced. -/
theorem Latest.of_own (h : Latest R s) (hi : Inv s.mem s.anns) {i : ℕ} {x n : Addr}
    (hown : (i, x) ∈ (s.anns c).own)
    (hc : ∀ a sem old, s.thread c ≠ .receive a (.install sem old x))
    (hn : s.mem.tagLevel i = some n) : x = n ∨ R s.mem x n := by
  obtain ⟨hlt, hlevel, hfresh⟩ := hi.own c i x hown
  rcases h i n x hn hlt hlevel with heq | hR | ⟨d, a, sem, old, hd⟩
  · exact .inl heq
  · exact .inr hR
  · have hdc : d ≠ c := by
      rintro rfl
      exact hc a sem old hd
    exact absurd (by rw [State.anns_of_receive hd]; rfl) (hfresh d hdc)

/-- A step keeps the latest instances linked if what it links is later than what was there. -/
theorem Latest.step (hr : Reachable s) (hs : Step s c s') (h : Latest R s)
    (htrans : ∀ x y z, R s.mem x y → R s.mem y z → R s.mem x z)
    (hkeep : ∀ x y, x < s.mem.brk → y < s.mem.brk → R s.mem x y → R s'.mem x y)
    (hlater : ∀ a sem old new, s.thread c = .receive a (.install sem old new) →
      R s.mem old new) : Latest R s' := by
  intro i n x hn hx hlevel
  -- an instance about to be linked by another call still is
  have hother : ∀ d a sem old, s.thread d = .receive a (.install sem old x) → d ≠ c →
      ∃ c a sem old, s'.thread c = .receive a (.install sem old x) := by
    intro d a sem old hd hdc
    exact ⟨d, a, sem, old, by rw [hs.thread_of_ne hdc]; exact hd⟩
  cases hs.instances hr with
  | @install a sem old new point mem =>
    rw [mem] at hn hx hlevel
    have hann := State.anns_of_receive point
    have hlink : s.mem.tagLevel a.lvl = some old := hr.inv.link c _ _ (by rw [hann]; rfl)
    have hnew := hr.inv.own c a.lvl new (by rw [hann]; simp [ReceiveState.ann])
    by_cases hia : i = a.lvl
    · subst hia
      simp only [Function.update_self, Option.some.injEq] at hn
      subst hn
      by_cases hxnew : x = new
      · exact .inl hxnew
      · refine .inr ?_
        rcases h _ old x hlink hx hlevel with rfl | hR | ⟨d, a', sem', old', hd⟩
        · exact .inl (hkeep _ _ hx hnew.1 (hlater a sem _ new point))
        · exact .inl (hkeep _ _ hx hnew.1 (htrans _ _ _ hR (hlater a sem old new point)))
        · refine .inr (hother d a' sem' old' hd ?_)
          rintro rfl
          rw [point] at hd
          cases hd
          exact hxnew rfl
    · simp only [Function.update_of_ne hia] at hn
      rcases h i n x hn hx hlevel with heq | hR | ⟨d, a', sem', old', hd⟩
      · exact .inl heq
      · exact .inr (.inl (hkeep _ _ hx (hr.inv.table i n hn).1 hR))
      · refine .inr (.inr (hother d a' sem' old' hd ?_))
        rintro rfl
        rw [point] at hd
        cases hd
        -- the instance that is linked is of the level it is linked at
        exact hia (hlevel.symm.trans hnew.2.1)
  | @create a sem l e point point' mem =>
    rw [mem] at hn hx hlevel
    have hn' : n < s.mem.brk := (hr.inv.table i n hn).1
    by_cases hxb : x = s.mem.brk
    · subst hxb
      exact .inr (.inr ⟨c, a, sem, l, point'⟩)
    · have hlt : x < s.mem.brk := lt_of_le_of_ne (Nat.lt_succ_iff.1 hx) hxb
      simp only [Mem.createLevel, Function.update_of_ne hxb] at hlevel
      rcases h i n x hn hlt hlevel with heq | hR | ⟨d, a', sem', old', hd⟩
      · exact .inl heq
      · exact .inr (.inl (hkeep _ _ hlt hn' hR))
      · refine .inr (.inr (hother d a' sem' old' hd ?_))
        rintro rfl
        rw [point] at hd; cases hd
  | same tagLevel brk level _ point =>
    rw [tagLevel] at hn
    rw [brk] at hx
    rw [level] at hlevel
    rcases h i n x hn hx hlevel with heq | hR | ⟨d, a', sem', old', hd⟩
    · exact .inl heq
    · exact .inr (.inl (hkeep _ _ hx (hr.inv.table i n hn).1 hR))
    · refine .inr (.inr (hother d a' sem' old' hd ?_))
      rintro rfl
      exact point a' sem' old' x hd

theorem Init.latest (h : Init s) : Latest R s := by
  obtain ⟨pm, e, hm⟩ := h.mem
  intro i n x hn hx hlevel
  rw [hm] at hn hlevel
  simp only [Mem.fresh, Option.ite_none_right_eq_some, Option.some.injEq] at hn hlevel
  exact .inl (hlevel.trans hn.2)

end Step

/-! ## The order of epochs

The epoch is an `int` that is incremented at each replacement.  As long as it does not overflow it
tells the order. -/

/-- The condition on a step: the epoch of a new instance does not overflow. -/
def EpochsFit (s : State) (c : CallId) : Prop :=
  ∀ a sem l, s.thread c = .receive a (.readEpoch sem l) →
    toInt (s.mem.epoch l + 1) = s.mem.epoch l + 1

/-- Epochs are in the order in which the instances were linked. -/
structure OrderInv (s : State) : Prop where
  /-- Receivers may rely on what they have found out. -/
  receive : ∀ c a p, s.thread c = .receive a p → p.Order s.mem
  /-- A linked instance has the greatest epoch of its level, but for instances about to be
  linked. -/
  greatest : ∀ i n x, s.mem.tagLevel i = some n → x < s.mem.brk → s.mem.level x = i →
    x = n ∨ s.mem.epoch x < s.mem.epoch n ∨
      ∃ c a sem old, s.thread c = .receive a (.install sem old x)

section Step

variable {s s' : State} {c : CallId}

/-- What a receiver relies on stays true. -/
theorem ReceiveState.Order.keep (h : Instances s c s') (hi : Inv s.mem s.anns) {d : CallId}
    {a : ReceiveArgs} {p : ReceiveState} (hd : s.thread d = .receive a p) (hp : p.Order s.mem) :
    p.Order s'.mem := by
  have hann := State.anns_of_receive hd
  have hown : ∀ x, (a.lvl, x) ∈ (p.ann a.lvl).own → s'.mem.epoch x = s.mem.epoch x := by
    intro x hx
    exact (h.epoch_eq (hi.own d a.lvl x (by rw [hann]; exact hx)).1).2
  cases p
  case create sem l e =>
    rw [Order, hown l (by simp [ann])]
    exact hp
  case install sem old new =>
    rw [Order, hown old (by simp [ann]), hown new (by simp [ann])]
    exact hp
  case cmpEpoch l new r =>
    rw [Order, hown l (by simp [ann]), (h.epoch_eq hp.1).2]
    exact ⟨lt_of_lt_of_le hp.1 h.brk_le, hp.2⟩
  all_goals trivial

/-- What a receiver finds out about epochs is true. -/
theorem ReceiveState.Order.succ {m : Mem} {a : ReceiveArgs} {q q' : ReceiveState}
    (ho : OrderInv s) (hi : Inv s.mem s.anns) (hg : EpochsFit s c)
    (hc : s.thread c = .receive a q) (hx : Exec c s.mem (receiveCode a q) m q') :
    q'.Order m := by
  have hann := State.anns_of_receive hc
  have hown : ∀ x, (a.lvl, x) ∈ (q.ann a.lvl).own → _ :=
    fun x hx => hi.own c a.lvl x (by rw [hann]; exact hx)
  have hq := ho.receive c a q hc
  cases q
  case readEpoch sem l =>
    cases hx
    rw [Order, hg a sem l hc]
    exact Int.lt_succ _
  case create sem l e =>
    cases hx with
    | createLevel =>
      have hne : l ≠ s.mem.brk := ne_of_lt (hown l (by simp [ann])).1
      simpa [Order, Mem.createLevel, hne] using hq
    | createLevelFailed => trivial
  case loadNew l r =>
    cases hx with
    | loadLevelNull => trivial
    | @loadLevel _ new _ _ hl =>
      have hlast : Latest (fun m x n => m.epoch x < m.epoch n) s := ho.greatest
      have hl' := hlast.of_own hi (x := l) (c := c) (by rw [hann]; simp [ann])
        (by simp [hc]) hl
      exact ⟨(hi.table _ _ hl).1, hl'.imp_left Eq.symm⟩
  case start | leave | clear | release => cases ends_succ hx rfl <;> trivial
  case condTagReady | readSize => cases turns_succ hx rfl <;> trivial
  all_goals cases hx <;> trivial

/-- A step keeps the order of the instances of a level.  The next epoch is greater than the last
because it fits. -/
theorem OrderInv.step (hr : Reachable s) (hs : Step s c s') (hg : EpochsFit s c)
    (h : OrderInv s) : OrderInv s' := by
  have hinst := hs.instances hr
  constructor
  · intro d a p hd
    by_cases hdc : d = c
    · subst hdc
      obtain ⟨q, hq, hx⟩ := hs.of_receive hd
      exact ReceiveState.Order.succ h hr.inv hg hq hx
    · rw [hs.thread_of_ne hdc] at hd
      exact (h.receive d a p hd).keep hinst hr.inv hd
  · refine Latest.step (R := fun m x n => m.epoch x < m.epoch n) hr hs h.greatest
      (fun _ _ _ => lt_trans) (fun x y hx hy hlt => ?_) (fun a sem old new => h.receive c a _)
    rw [(hinst.epoch_eq hx).2, (hinst.epoch_eq hy).2]
    exact hlt

theorem Init.order (h : Init s) : OrderInv s := by
  constructor
  · intro c a p hp
    obtain rfl := h.receive hp
    trivial
  · exact h.latest (R := fun m x n => m.epoch x < m.epoch n)

end Step

/-! ## Every instance is accounted for

The invariant of the module: an instance that no level points to and that has not been freed is on
somebody's list. -/

/-- The condition on a step: the epoch of a new instance does not overflow, and an instance is
replaced while some receive is still going to look for its successor. -/
structure ReplacesMinded (s : State) (c : CallId) : Prop where
  epochs : EpochsFit s c
  minded : ∀ a sem old new, s.thread c = .receive a (.install sem old new) →
    ∃ d a' p, s.thread d = .receive a' p ∧ p.minds = some old

/-- Every instance is linked, or has been freed, or some receiver owes its release. -/
def Accounted (s : State) : Prop :=
  ∀ x, x < s.mem.brk → s.mem.Linked x ∨ s.mem.freed x ≠ 0 ∨
    ∃ c a p, s.thread c = .receive a p ∧ p.owes = some x

section Step

variable {s s' : State} {c : CallId} {x : Addr}

theorem Step.freed_ne (hs : Step s c s') (hx : s.mem.freed x ≠ 0) : s'.mem.freed x ≠ 0 := by
  rcases hs.freed with heq | ⟨a, l, r, -, -, heq⟩
  · rwa [heq]
  · rw [heq]
    by_cases hxl : x = l
    · subst hxl; simp
    · rwa [Function.update_of_ne hxl]

/-- A receiver stops owing an instance by linking it, by freeing it, by seeing it linked, or by
leaving it to others that are registered. -/
theorem ReceiveState.owes_succ {m m' : Mem} {a : ReceiveArgs} {q q' : ReceiveState}
    (hx : Exec c m (receiveCode a q) m' q') (ht : m.tagLevel a.lvl ≠ none) (ho : q.Order m)
    (hq : q.owes = some x) :
    q'.owes = some x ∨ m'.Linked x ∨ m'.freed x ≠ 0 ∨
      ((∃ r, q = leaveLevel x r) ∧ m'.waiting x ≠ 0) := by
  cases q
  case install sem old new =>
    cases hq
    cases hx
    exact .inr (.inl ⟨a.lvl, by simp⟩)
  case condTagReady | readSize => cases hq; cases turns_succ hx rfl <;> exact .inl rfl
  case leaveLevel y r =>
    cases hq
    cases hx with
    | decWaitingZero => exact .inl rfl
    | decWaiting h => exact .inr (.inr (.inr ⟨⟨r, rfl⟩, by simpa using h⟩))
  case loadNew y r =>
    cases hq
    cases hx with
    | loadLevelNull h => exact absurd h ht
    | @loadLevel _ new _ _ hl =>
      by_cases hne : new = x
      · subst hne; exact .inr (.inl ⟨a.lvl, hl⟩)
      · exact .inl (by simp [owes, hne])
  case cmpEpoch y new r =>
    simp only [owes, Option.ite_none_left_eq_some, Option.some.injEq] at hq
    obtain ⟨hne, rfl⟩ := hq
    cases hx with
    | cmpEpochNewer => exact .inl rfl
    | cmpEpochOlder h => exact absurd (ho.2.resolve_left hne) h
  case free y r => cases hq; cases hx; exact .inr (.inr (.inl (by simp)))
  all_goals cases hq <;> cases hx <;> exact .inl rfl

/-- A step keeps every instance accounted for: it is linked, or freed, or a receive owes it.  The
condition is needed where a level is given a new instance. -/
theorem Accounted.step (hr : Reachable s) (hs : Step s c s') (hg : ReplacesMinded s c)
    (ho : OrderInv s) (h : Accounted s) : Accounted s' := by
  intro x hx
  -- whoever else owes the instance still does
  have hother : ∀ d a p, s.thread d = .receive a p → p.owes = some x → d ≠ c →
      ∃ c a p, s'.thread c = .receive a p ∧ p.owes = some x := by
    intro d a p hd hp hdc
    exact ⟨d, a, p, by rw [hs.thread_of_ne hdc]; exact hd, hp⟩
  cases hs.instances hr with
  | @install a sem old new point mem =>
    have hlink : s.mem.tagLevel a.lvl = some old :=
      hr.inv.link c _ _ (by rw [State.anns_of_receive point]; rfl)
    rw [mem] at hx
    rcases h x hx with ⟨i, hi⟩ | hfreed | ⟨d, a', p, hd, hp⟩
    · by_cases hia : i = a.lvl
      · -- the instance has been replaced, and somebody is still going to look for its successor
        subst hia
        obtain rfl : old = x := Option.some.inj (hlink.symm.trans hi)
        obtain ⟨d, a', p, hd, hp⟩ := hg.minded a sem old new point
        refine .inr (.inr (hother d a' p hd (ReceiveState.owes_of_minds hp) ?_))
        rintro rfl
        rw [point] at hd
        cases hd
        cases hp
      · exact .inl ⟨i, by simpa [mem, hia] using hi⟩
    · exact .inr (.inl (hs.freed_ne hfreed))
    · by_cases hdc : d = c
      · subst hdc
        rw [point] at hd
        cases hd
        cases hp
        exact .inl ⟨a.lvl, by simp [mem]⟩
      · exact .inr (.inr (hother d a' p hd hp hdc))
  | @create a sem l e point point' mem =>
    by_cases hxb : x = s.mem.brk
    · subst hxb
      exact .inr (.inr ⟨c, a, _, point', rfl⟩)
    · have hlt : x < s.mem.brk := by
        rw [mem] at hx
        exact lt_of_le_of_ne (Nat.lt_succ_iff.1 hx) hxb
      rcases h x hlt with ⟨i, hi⟩ | hfreed | ⟨d, a', p, hd, hp⟩
      · exact .inl ⟨i, by rw [mem]; exact hi⟩
      · exact .inr (.inl (hs.freed_ne hfreed))
      · refine .inr (.inr (hother d a' p hd hp ?_))
        rintro rfl
        rw [point] at hd
        cases hd
        cases hp
  | same tagLevel brk _ _ _ =>
    rcases h x (brk ▸ hx) with ⟨i, hi⟩ | hfreed | ⟨d, a', p, hd, hp⟩
    · exact .inl ⟨i, by rw [tagLevel]; exact hi⟩
    · exact .inr (.inl (hs.freed_ne hfreed))
    · by_cases hdc : d = c
      · subst hdc
        obtain ⟨m, q', hexec, rfl⟩ := hs.receive hd
        have hv : a'.valid = true := by
          have hv := hr.checked d
          rw [hd] at hv
          cases p <;> first | exact hv | cases hp
        rcases ReceiveState.owes_succ hexec (hr.tagLevel (ReceiveArgs.lvl_lt hv))
          (ho.receive d a' p hd) hp with hq | hl | hf | ⟨⟨r, rfl⟩, hw⟩
        · exact .inr (.inr ⟨d, a', q', Config.set_thread_self .., hq⟩)
        · exact .inl hl
        · exact .inr (.inl hf)
        · -- somebody else is registered
          have hcensus := (hr.step hs).inv.reg x
          obtain ⟨f, hf⟩ :=
            hcensus.exists_of_pos (lt_of_le_of_ne hcensus.nonneg (Ne.symm hw))
          obtain ⟨a₁, p₁, hf₁, hp₁⟩ := Thread.minds_of_reg hf
          exact .inr (.inr ⟨f, a₁, p₁, hf₁, ReceiveState.owes_of_minds hp₁⟩)
      · exact .inr (.inr (hother d a' p hd hp hdc))

end Step

/-- This holds after every run whose steps meet the condition. -/
theorem accounted_of_run {s₀ s : State} (h0 : Init s₀) (h : RunUnder Step ReplacesMinded s₀ s) :
    Accounted s := by
  have key : OrderInv s ∧ Accounted s := by
    refine h.invariant_run (P := fun s => OrderInv s ∧ Accounted s) ⟨h0.order, ?_⟩ ?_
    · obtain ⟨pm, e, hm⟩ := h0.mem
      intro x hx
      rw [hm] at hx ⊢
      exact .inl ⟨x, if_pos hx⟩
    · rintro u c v hu ⟨ho, hi⟩ hg hs
      have hr : Reachable u := ⟨s₀, h0, hu.run⟩
      exact ⟨ho.step hr hs hg.epochs, hi.step hr hs hg ho⟩
  exact key.2

/-! ## What deletion has left to do

When no receive is in flight the list is empty, and what is left are the instances that the levels
point to, which `clear_tag_level` frees. -/

/-- `free_level`. -/
def Mem.freeLevel (m : Mem) (x : Addr) : Mem :=
  { m with freed := Function.update m.freed x (m.freed x + 1) }

/-- One round of the loop of `clear_tag_level`. -/
def Mem.clearLevel (m : Mem) (i : ℕ) : Mem :=
  match m.tagLevel i with
  | none => m
  | some x => m.freeLevel x

/-- `clear_tag_level`. -/
def Mem.clearTagLevel (m : Mem) : Mem := (List.range levels).foldl Mem.clearLevel m

theorem Mem.clearLevel_tagLevel (m : Mem) (i : ℕ) : (m.clearLevel i).tagLevel = m.tagLevel := by
  rw [clearLevel]
  split <;> rfl

theorem Mem.clearLevel_freed (m : Mem) (i : ℕ) {x : Addr}
    (h : m.freed x ≠ 0 ∨ m.tagLevel i = some x) : (m.clearLevel i).freed x ≠ 0 := by
  rw [clearLevel]
  split
  · rename_i hi
    rcases h with h | h
    · exact h
    · rw [hi] at h; cases h
  · rename_i y hi
    by_cases hxy : x = y
    · subst hxy; simp [freeLevel]
    · rw [hi] at h
      have hx : m.freed x ≠ 0 := h.resolve_right fun h => hxy (Option.some.inj h).symm
      simpa [freeLevel, hxy] using hx

/-- The deletion of a tag frees what is linked and takes back no free. -/
theorem Mem.foldl_clearLevel_freed (m : Mem) (is : List ℕ) {x : Addr}
    (h : m.freed x ≠ 0 ∨ ∃ i ∈ is, m.tagLevel i = some x) :
    (is.foldl Mem.clearLevel m).freed x ≠ 0 := by
  induction is generalizing m with
  | nil => simpa using h
  | cons j is ih =>
    refine ih _ ?_
    rcases h with h | ⟨i, hi, htab⟩
    · exact .inl (m.clearLevel_freed j (.inl h))
    · rcases List.mem_cons.1 hi with rfl | hi
      · exact .inl (m.clearLevel_freed i (.inr htab))
      · exact .inr ⟨i, hi, by rw [clearLevel_tagLevel]; exact htab⟩

/-- Only the levels below `LEVELS` ever have an instance. -/
theorem Reachable.level_lt {s : State} (h : Reachable s) {i : ℕ} {x : Addr}
    (hi : s.mem.tagLevel i = some x) : i < levels := by
  obtain ⟨s₀, h0, hr⟩ := h
  refine hr.invariant_run (P := fun s => ∀ i x, s.mem.tagLevel i = some x → i < levels) ?_ ?_ i x hi
  · obtain ⟨pm, e, hm⟩ := h0.mem
    intro i x hi
    rw [hm] at hi
    by_contra hlt
    simp [Mem.fresh, hlt] at hi
  · intro u c v hu hlt _ hs i x hi
    have hreach : Reachable u := ⟨s₀, h0, hu⟩
    cases hs.instances hreach with
    | @install a sem old new point mem =>
      by_cases hia : i = a.lvl
      · exact hlt i old (hreach.inv.link c _ _ (by rw [State.anns_of_receive point, hia]; rfl))
      · exact hlt i x (by simpa [mem, hia] using hi)
    | create _ _ mem => exact hlt i x (by rw [mem] at hi; exact hi)
    | same tagLevel _ _ _ _ => exact hlt i x (by rw [← tagLevel]; exact hi)

/-- In the state `s`, if no receive is in flight, every instance that no level points to has been
freed, and `clear_tag_level` frees what is left. -/
def NoLeak (s : State) : Prop :=
  (∀ c a p, s.thread c = .receive a p → (s.thread c).inFlight = false) →
    (∀ x, x < s.mem.brk → ¬ s.mem.Linked x → s.mem.freed x ≠ 0) ∧
      ∀ x, x < s.mem.brk → s.mem.clearTagLevel.freed x ≠ 0

/-- **No instance is leaked** in every run in which no epoch overflows and an instance is replaced
only while somebody is still going to look for its successor. -/
theorem no_leak {s₀ s : State} (h0 : Init s₀) (h : RunUnder Step ReplacesMinded s₀ s) :
    NoLeak s := by
  intro hidle
  have hacc : ∀ x, x < s.mem.brk → s.mem.Linked x ∨ s.mem.freed x ≠ 0 := by
    intro x hx
    rcases accounted_of_run h0 h x hx with hl | hf | ⟨c, a, p, hc, hp⟩
    · exact .inl hl
    · exact .inr hf
    · have := hidle c a p hc
      rw [hc, ReceiveState.inFlight_of_owes a hp] at this
      cases this
  refine ⟨fun x hx hl => (hacc x hx).resolve_left hl, fun x hx => ?_⟩
  refine s.mem.foldl_clearLevel_freed _ ?_
  rcases hacc x hx with ⟨i, hi⟩ | hf
  · exact .inr ⟨i, List.mem_range.2 (Reachable.level_lt ⟨s₀, h0, h.run⟩ hi), hi⟩
  · exact .inl hf

/-! ## A replacement that goes unnoticed

Receivers that find the same instance ready race to replace it.  The one that comes second replaces
the replacement, which may have had its last receiver by then. -/

/-- Two sends (calls 1 and 4) and any number of receivers on level 0. -/
def busyLevel : CallId → Thread
  | 1 | 4 => .send ⟨0, some [7, 8, 9], 3, 0⟩ .start
  | _ => .receive ⟨0, true, 2, 0⟩ .start

theorem busyLevel_idle (c : CallId) : (busyLevel c).idle = true := by
  unfold busyLevel
  split <;> rfl

/-- Receiver 0 keeps instance 0 ready, so that receivers 2 and 3 are both going to make a new
epoch; receiver 3 makes instance 32, takes a message from it, is the last to leave it, and still
finds it linked. -/
def beforeReplacement : List (CallId × Outcome) :=
  goes 0 15 ++ goes 1 18 ++ goes 2 9 ++ goes 3 26 ++ goes 4 18 ++ goes 3 13

/-- Receiver 2 replaces instance 32 by instance 33, and everybody goes home. -/
def replaced : List (CallId × Outcome) :=
  beforeReplacement ++ goes 2 17 ++ goes 3 20 ++ goes 0 20 ++ signalled 2 ++ goes 2 20

/-- A test for `EpochsFit`. -/
def epochsFit (s : State) (c : CallId) : Bool :=
  match s.thread c with
  | .receive _ (.readEpoch _ l) => toInt (s.mem.epoch l + 1) = s.mem.epoch l + 1
  | _ => true

theorem epochsFit_sound (s : State) (c : CallId) (h : epochsFit s c = true) : EpochsFit s c := by
  intro a sem l hc
  simpa [epochsFit, hc] using h

/-- In the state after `replaced` nobody is in flight, and instance 32 is neither linked nor freed:
its last receiver had found it still linked, and so left it to the next one. -/
theorem leaked : ¬ ∀ s₀ s, Init s₀ → RunUnder Step EpochsFit s₀ s → NoLeak s := by
  intro h
  have hidle := State.idle_after (n := 5) busyLevel_idle (l := replaced) (by decide +kernel)
    (by decide +kernel)
  have hfreed := (h _ _ (State.init_start busyLevel_idle)
    (State.runUnder_after (l := replaced) epochsFit_sound (by decide +kernel))
    (fun c _ _ _ => hidle c)).2 32 (by decide +kernel)
  revert hfreed
  decide +kernel

/-- A test for `ReplacesMinded` among the calls below 5. -/
def replacesMinded (s : State) (c : CallId) : Bool :=
  epochsFit s c && match s.thread c with
    | .receive _ (.install _ old _) => (List.range 5).any fun d =>
      match s.thread d with
      | .receive _ p => p.minds = some old
      | _ => false
    | _ => true

theorem replacesMinded_sound (s : State) (c : CallId) (h : replacesMinded s c = true) :
    ReplacesMinded s c := by
  rw [replacesMinded, Bool.and_eq_true] at h
  refine ⟨epochsFit_sound s c h.1, fun a sem old new hc => ?_⟩
  have hany := h.2
  simp only [hc, List.any_eq_true] at hany
  obtain ⟨d, -, hd⟩ := hany
  split at hd
  · rename_i a' p hp
    exact ⟨d, a', p, hp, by simpa using hd⟩
  · cases hd

/-- Receiver 3 replaces instance 0 while receiver 0 has yet to read its message there. -/
def freedBehind : State :=
  (State.start busyLevel).after
    (goes 0 15 ++ goes 1 18 ++ goes 3 26 ++ goes 0 20 ++ signalled 3 ++ goes 3 20)

/-- A run with a replacement that meets the condition: the instance that was replaced has been freed
by the receiver that was on it. -/
theorem no_leak_freedBehind :
    freedBehind.mem.freed 0 = 1 ∧ freedBehind.mem.tagLevel 0 = some 32 ∧ NoLeak freedBehind :=
  ⟨by decide +kernel, by decide +kernel, no_leak (State.init_start busyLevel_idle)
    (State.runUnder_after replacesMinded_sound (by decide +kernel))⟩

end TagAos
