import TagAos.Registry.Calls

/-!
# Locks of the registry

A call on the registry holds at most one semaphore at a time: `common_lock` for reading or
writing, or the `tag_lock` of the tag it deletes.  `LocksHeld` says that every semaphore is held by
exactly the calls that are at a point where they hold it; `Step.lock` says what one step does to
the semaphores.
-/

set_option autoImplicit false

namespace TagAos.Registry

open Conc

/-! ## What a call holds

Read off the point a call is at. -/

/-- The lock held at a point of `tag_get`. -/
def GetState.held : GetState → Option (Lock × Mode)
  | reserve | unlockCreate _ | clearCommon _ | unlockClear => some (.common, .write)
  | lookup | loadTag _ | unlockOpen _ => some (.common, .read)
  | _ => none

/-- The lock held at a point of a deletion of the tag `d`. -/
def DeleteState.held (d : ℕ) : DeleteState → Option (Lock × Mode)
  | loadTag | checkPerm _ | clearTag _ | unlockTag _ | unlockError _ => some (.tag d, .write)
  | clearCommon _ | unlockClear _ => some (.common, .write)
  | _ => none

/-- The lock a call holds. -/
def Thread.held : Thread → Option (Lock × Mode)
  | get _ p => p.held
  | delete tag _ p => p.held tag.toNat

/-! ## What a step does to the semaphores

A step acquires one semaphore, releases one, or leaves them alone. -/

/-- What a step does to the semaphores, and to what the mover holds. -/
inductive LockStep (c : CallId) (m m' : Mem) : Option (Lock × Mode) → Option (Lock × Mode) → Prop
  | same {h : Option (Lock × Mode)} (sem : m'.sem = m.sem) : LockStep c m m' h h
  | read {l : Lock} {s : RwSem CallId} (acq : (m.sem l).downRead c = some s)
      (sem : m'.sem = Function.update m.sem l s) : LockStep c m m' none (some (l, .read))
  | write {l : Lock} {s : RwSem CallId} (acq : (m.sem l).downWrite c = some s)
      (sem : m'.sem = Function.update m.sem l s) : LockStep c m m' none (some (l, .write))
  | unread {l : Lock} (sem : m'.sem = Function.update m.sem l ((m.sem l).upRead c)) :
      LockStep c m m' (some (l, .read)) none
  | unwrite {l : Lock} (sem : m'.sem = Function.update m.sem l ((m.sem l).upWrite c)) :
      LockStep c m m' (some (l, .write)) none

variable {c : CallId} {m m' : Mem}

/-- An acquisition for writing, as a change of the lock held. -/
theorem LockStep.of_downWrite {l : Lock} (h : m.downWrite c l = some m') :
    LockStep c m m' none (some (l, .write)) := by
  simp only [Mem.downWrite, Option.map_eq_some_iff] at h
  obtain ⟨s, hs, rfl⟩ := h
  exact .write hs rfl

/-- An acquisition for reading, as a change of the lock held. -/
theorem LockStep.of_downRead {l : Lock} (h : m.downRead c l = some m') :
    LockStep c m m' none (some (l, .read)) := by
  simp only [Mem.downRead, Option.map_eq_some_iff] at h
  obtain ⟨s, hs, rfl⟩ := h
  exact .read hs rfl

theorem Mem.reserve_sem (m : Mem) (key : ℤ) (oom : Bool) :
    (m.reserve key oom).1.sem = m.sem := by
  rw [reserve]
  split
  · rfl
  · split
    · rfl
    · split_ifs <;> rfl

theorem Mem.clearCommon_sem (m : Mem) (key : ℤ) (d : ℕ) : (m.clearCommon key d).sem = m.sem := by
  simp only [clearCommon]
  split_ifs <;> rfl

theorem Mem.reserve_tags (m : Mem) (key : ℤ) (oom : Bool) :
    (m.reserve key oom).1.tags = m.tags := by
  rw [reserve]
  split
  · rfl
  · split
    · rfl
    · split_ifs <;> rfl

theorem Mem.clearCommon_tags (m : Mem) (key : ℤ) (d : ℕ) :
    (m.clearCommon key d).tags = m.tags := by
  simp only [clearCommon]
  split_ifs <;> rfl

/-- A step of `tag_get` acquires, releases or keeps the lock that its points say it holds. -/
theorem getStep_lock {a : GetArgs} {p p' : GetState} {o : Outcome}
    (h : getStep c m a p o = some (m', p')) : LockStep c m m' p.held p'.held := by
  cases p
  case start =>
    cases o <;> simp only [getStep, reduceCtorEq, Option.some.injEq, Prod.mk.injEq] at h
    obtain ⟨rfl, rfl⟩ := h
    rw [getStart]
    split_ifs <;> exact .same rfl
  case lockCreate | lockClear d =>
    cases o <;> simp only [getStep, reduceCtorEq, Option.some.injEq, Prod.mk.injEq,
      Option.map_eq_some_iff] at h
    · obtain ⟨m₁, h, rfl, rfl⟩ := h; exact .of_downWrite h
    · obtain ⟨rfl, rfl⟩ := h; exact .same rfl
  case lockOpen =>
    cases o <;> simp only [getStep, reduceCtorEq, Option.some.injEq, Prod.mk.injEq,
      Option.map_eq_some_iff] at h
    · obtain ⟨m₁, h, rfl, rfl⟩ := h; exact .of_downRead h
    · obtain ⟨rfl, rfl⟩ := h; exact .same rfl
  case reserve =>
    cases o <;> simp only [getStep, reduceCtorEq, Option.some.injEq, Prod.mk.injEq] at h
    all_goals obtain ⟨rfl, rfl⟩ := h; exact .same (m.reserve_sem _ _)
  case unlockCreate r =>
    cases r <;> cases o <;>
      simp only [getStep, reduceCtorEq, Option.some.injEq, Prod.mk.injEq] at h
    all_goals obtain ⟨rfl, rfl⟩ := h; exact .unwrite rfl
  case addLevel d i =>
    cases o <;> simp only [getStep, reduceCtorEq, Option.some.injEq, Prod.mk.injEq] at h
    · obtain ⟨rfl, rfl⟩ := h
      split_ifs <;> exact .same rfl
    · obtain ⟨rfl, rfl⟩ := h; exact .same rfl
  case clearCommon d =>
    cases o <;> simp only [getStep, reduceCtorEq, Option.some.injEq, Prod.mk.injEq] at h
    obtain ⟨rfl, rfl⟩ := h
    exact .same (m.clearCommon_sem _ _)
  case lookup =>
    cases o <;> simp only [getStep, reduceCtorEq] at h
    split at h <;> cases h <;> exact .same rfl
  case unlockClear =>
    cases o <;> simp only [getStep, reduceCtorEq, Option.some.injEq, Prod.mk.injEq] at h
    obtain ⟨rfl, rfl⟩ := h; exact .unwrite rfl
  case unlockOpen rc =>
    cases o <;> simp only [getStep, reduceCtorEq, Option.some.injEq, Prod.mk.injEq] at h
    obtain ⟨rfl, rfl⟩ := h; exact .unread rfl
  all_goals
    cases o <;> simp only [getStep, reduceCtorEq, Option.some.injEq, Prod.mk.injEq] at h <;>
      (obtain ⟨rfl, rfl⟩ := h; exact .same rfl)

/-- A step of a deletion does the same. -/
theorem deleteStep_lock {tag : ℤ} {euid : ℕ} {p p' : DeleteState} {o : Outcome}
    (h : deleteStep c m tag euid p o = some (m', p')) :
    LockStep c m m' (p.held tag.toNat) (p'.held tag.toNat) := by
  cases p
  case start =>
    cases o <;> simp only [deleteStep, reduceCtorEq, Option.some.injEq, Prod.mk.injEq] at h
    obtain ⟨rfl, rfl⟩ := h
    split_ifs <;> exact .same rfl
  case tryLock =>
    cases o <;> simp only [deleteStep, reduceCtorEq] at h
    · split at h
      · rename_i hm; cases h; exact .of_downWrite hm
      · cases h; exact .same rfl
    · cases h; exact .same rfl
  case loadTag =>
    cases o <;> simp only [deleteStep, reduceCtorEq] at h
    split at h <;> cases h <;> exact .same rfl
  case checkPerm e =>
    cases o <;> simp only [deleteStep, reduceCtorEq, Option.some.injEq, Prod.mk.injEq] at h
    obtain ⟨rfl, rfl⟩ := h
    split_ifs <;> exact .same rfl
  case lockClear e =>
    cases o <;> simp only [deleteStep, reduceCtorEq, Option.some.injEq, Prod.mk.injEq,
      Option.map_eq_some_iff] at h
    · obtain ⟨m₁, h, rfl, rfl⟩ := h; exact .of_downWrite h
    · obtain ⟨rfl, rfl⟩ := h; exact .same rfl
  case unlockTag e | unlockError rc | unlockClear e =>
    cases o <;> simp only [deleteStep, reduceCtorEq, Option.some.injEq, Prod.mk.injEq] at h
    obtain ⟨rfl, rfl⟩ := h; exact .unwrite rfl
  case clearCommon e =>
    cases o <;> simp only [deleteStep, reduceCtorEq, Option.some.injEq, Prod.mk.injEq] at h
    obtain ⟨rfl, rfl⟩ := h
    exact .same (m.clearCommon_sem _ _)
  all_goals
    cases o <;> simp only [deleteStep, reduceCtorEq, Option.some.injEq, Prod.mk.injEq] at h <;>
      (obtain ⟨rfl, rfl⟩ := h; exact .same rfl)

/-- So does every step of the registry. -/
theorem Step.lock {s s' : State} (h : Step s c s') :
    LockStep c s.mem s'.mem (s.thread c).held (s'.thread c).held := by
  cases hc : s.thread c with
  | get a p =>
    obtain ⟨o, m, p', hx, rfl⟩ := h.get hc
    rw [Config.set_thread_self]
    exact getStep_lock hx
  | delete tag euid p =>
    obtain ⟨o, m, p', hx, rfl⟩ := h.delete hc
    rw [Config.set_thread_self]
    exact deleteStep_lock hx

/-- Who holds a semaphore after a step: the mover holds what it is supposed to hold, and for the
others nothing changes. -/
theorem LockStep.holds {held held' : Option (Lock × Mode)} (h : LockStep c m m' held held')
    (hold : ∀ l md, (m.sem l).Holds c md ↔ held = some (l, md)) (l : Lock) (d : CallId)
    (md : Mode) :
    (m'.sem l).Holds d md ↔ if d = c then held' = some (l, md) else (m.sem l).Holds d md := by
  cases h with
  | same sem =>
    rw [sem]
    by_cases hd : d = c
    · subst hd; simp [hold]
    · simp [hd]
  | @read l₀ s acq sem =>
    rw [sem]
    by_cases hl : l = l₀
    · subst hl
      by_cases hd : d = c
      · subst hd; simp [RwSem.holds_downRead acq, hold, eq_comm]
      · simp [RwSem.holds_downRead acq, hd]
    · by_cases hd : d = c
      · subst hd; simp [hl, hold, Ne.symm hl]
      · simp [hl, hd]
  | @write l₀ s acq sem =>
    rw [sem]
    by_cases hl : l = l₀
    · subst hl
      by_cases hd : d = c
      · subst hd; simp [RwSem.holds_downWrite acq, hold, eq_comm]
      · simp [RwSem.holds_downWrite acq, hd]
    · by_cases hd : d = c
      · subst hd; simp [hl, hold, Ne.symm hl]
      · simp [hl, hd]
  | @unread l₀ sem =>
    have hown : (m.sem l₀).Holds c .read := (hold l₀ .read).2 rfl
    rw [sem]
    by_cases hl : l = l₀
    · subst hl
      by_cases hd : d = c
      · subst hd; simp [RwSem.holds_upRead hown, hold, eq_comm]
      · simp [RwSem.holds_upRead hown, hd]
    · by_cases hd : d = c
      · subst hd; simp [hl, hold, Ne.symm hl]
      · simp [hl, hd]
  | @unwrite l₀ sem =>
    have hown : (m.sem l₀).Holds c .write := (hold l₀ .write).2 rfl
    rw [sem]
    by_cases hl : l = l₀
    · subst hl
      by_cases hd : d = c
      · subst hd; simp [RwSem.holds_upWrite hown, hold, eq_comm]
      · simp [RwSem.holds_upWrite hown, hd]
    · by_cases hd : d = c
      · subst hd; simp [hl, hold, Ne.symm hl]
      · simp [hl, hd]

/-! ## Every semaphore is held by the right calls

So a call at a point where it writes is alone there. -/

/-- A semaphore is held by exactly the calls that are at a point where they hold it. -/
def LocksHeld (s : State) : Prop :=
  ∀ l d md, (s.mem.sem l).Holds d md ↔ (s.thread d).held = some (l, md)

/-- A step keeps the locks and the points of the calls together: at the mover by `Step.lock`, at the
others because a lock operation moves one name only. -/
theorem LocksHeld.step {s s' : State} (h : LocksHeld s) (hs : Step s c s') : LocksHeld s' := by
  intro l d md
  rw [hs.lock.holds (fun l md => h l c md)]
  by_cases hd : d = c
  · subst hd; simp
  · rw [if_neg hd, hs.thread_of_ne hd]
    exact h l d md

/-- **A writer is alone.** -/
theorem LocksHeld.alone {s : State} (h : LocksHeld s) {l : Lock} {d : CallId} {md : Mode}
    (hc : (s.thread c).held = some (l, .write)) (hd : (s.thread d).held = some (l, md)) :
    d = c ∧ md = .write := ((h l c .write).2 hc).eq_of_write ((h l d md).2 hd)

theorem Thread.held_of_idle {t : Thread} (h : t.idle = true) : t.held = none := by
  cases t with
  | get a p => cases p <;> first | rfl | cases h
  | delete tag euid p => cases p <;> first | rfl | cases h

/-- At the beginning no lock is held and no call holds one. -/
theorem Init.locksHeld {s : State} (h : Init s) : LocksHeld s := by
  intro l d md
  simp [h.mem, Mem.initial, Thread.held_of_idle (h.idle d)]

end TagAos.Registry
