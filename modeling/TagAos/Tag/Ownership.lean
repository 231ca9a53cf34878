import TagAos.Conc.Census
import TagAos.Tag.Discipline

/-!
# Locks, counters and pointers mean what the annotations say

The annotations of `TagAos.Tag.Discipline` are functions of the program point alone.  `Inv` ties
them to memory: a semaphore is held by exactly the calls whose annotation says so, a counter is
the number of calls that are annotated as counted in it, and the facts a call is annotated as
knowing are true.  `change_inv` is the one induction step of the whole development; every property
below it reads its facts off `Reachable.inv`.

Besides the bookkeeping, `Inv` carries the two facts about epochs that the protocol rests on:

* `superseded` — whoever holds the `rcu_lock` of an instance for reading finds it linked, or
  finds its `ready` set;
* `busy` — an instance that is about to be replaced has `ready` set as long as it has a reader.
-/

set_option autoImplicit false

namespace TagAos

open Conc

/-- Instance `x` is the one some level points to. -/
def Mem.Linked (m : Mem) (x : Addr) : Prop := ∃ i, m.tagLevel i = some x

/-- What memory and the annotations of all calls have to do with each other. -/
structure Inv (m : Mem) (A : CallId → Ann) : Prop where
  /-- A semaphore is held by exactly the calls that are annotated with it. -/
  sem : ∀ l c md, (m.sem l).Holds c md ↔ (l, md) ∈ (A c).held
  /-- A mutex is owned by exactly the call that is annotated with it. -/
  mutex : ∀ x c, m.wMutex x = some c ↔ (A c).mutex = some x
  /-- `tag_entry->waiting` is exact. -/
  counted : Census (fun c => (A c).counted = true) m.tagWaiting
  /-- `waiting` of every instance is exact. -/
  reg : ∀ x, Census (fun c => (A c).reg = some x) (m.waiting x)
  /-- Known instances have been allocated for their level, and are not fresh for others. -/
  own : ∀ c i x, (i, x) ∈ (A c).own →
    x < m.brk ∧ m.level x = i ∧ ∀ d, d ≠ c → (A d).fresh ≠ some x
  /-- Linked instances have been allocated for the level that points to them. -/
  table : ∀ i x, m.tagLevel i = some x → x < m.brk ∧ m.level x = i
  /-- A pointer loaded under its lock is still the pointer. -/
  link : ∀ c i x, (A c).link = some (i, x) → m.tagLevel i = some x
  /-- An instance known to be idle is idle. -/
  idle : ∀ c x, (A c).idle = some x → m.ready x = false
  /-- Nobody refers to a fresh instance but its creator. -/
  fresh : ∀ c x, (A c).fresh = some x → m.ready x = false ∧
    (∀ d md, (Sem.rcu x, md) ∉ (A d).held) ∧
    ∀ i, m.tagLevel i = some x → (Sem.level i, Mode.write) ∈ (A c).held
  /-- A reader of an instance finds it linked or ready. -/
  superseded : ∀ c x, (Sem.rcu x, Mode.read) ∈ (A c).held → m.Linked x ∨ m.ready x = true
  /-- An instance about to be replaced is ready as long as it has a reader. -/
  busy : ∀ c x, (A c).busy = some x → ∀ d, (Sem.rcu x, Mode.read) ∈ (A d).held →
    m.ready x = true

namespace Inv

variable {m m' : Mem} {A A' : CallId → Ann} {c d : CallId} {x : Addr} {i : ℕ}

/-! ## What the invariant says about locks

Consequences of the invariant in a single state, in the form in which the lemmas below need them. -/

theorem write_alone (h : Inv m A) {l : Sem} {md : Mode} (hc : (l, .write) ∈ (A c).held)
    (hd : (l, md) ∈ (A d).held) : d = c ∧ md = .write :=
  ((h.sem l c .write).2 hc).eq_of_write ((h.sem l d md).2 hd)

theorem no_reader (h : Inv m A) {l : Sem} (hc : (l, .write) ∈ (A c).held) :
    (l, Mode.read) ∉ (A d).held := fun hd => Mode.noConfusion (h.write_alone hc hd).2

theorem mutex_unique (h : Inv m A) (hc : (A c).mutex = some x) (hd : (A d).mutex = some x) :
    d = c := by
  have h1 := (h.mutex x c).2 hc
  have h2 := (h.mutex x d).2 hd
  exact Option.some.inj (h2.symm.trans h1)

/-- An interrupted acquisition of an `rcu_lock` is not that of a fresh instance: nobody holds the
lock of a fresh instance, so nobody waits for it. -/
theorem fresh_ne (h : Inv m A) (hx : m.mayInterrupt (.rcu x) = true) : (A c).fresh ≠ some x := by
  intro hf
  obtain ⟨d, hd⟩ := RwSem.isExclusive_iff.1 hx
  exact (h.fresh c x hf).2.1 d .write ((h.sem _ d .write).1 hd)

/-- A lock that is held is not that of the instance the next allocation returns. -/
theorem held_lt (h : Inv m A) (wf : ∀ d, (A d).WF) {md : Mode} (hd : (.rcu x, md) ∈ (A d).held) :
    x < m.brk := by
  obtain ⟨j, hj⟩ := (wf d).rcu x md hd
  exact (h.own d j x hj).1

/-- An instance somebody refers to is not the one the next allocation returns. -/
theorem mutex_lt (h : Inv m A) (wf : ∀ d, (A d).WF) (hd : (A d).mutex = some x) : x < m.brk := by
  obtain ⟨j, hj⟩ := (wf d).mutex x hd
  exact (h.own d j x hj).1

theorem reg_lt (h : Inv m A) (wf : ∀ d, (A d).WF) (hd : (A d).reg = some x) : x < m.brk := by
  obtain ⟨j, hj⟩ := (wf d).reg x hd
  exact (h.own d j x hj).1

theorem fresh_lt (h : Inv m A) (wf : ∀ d, (A d).WF) (hd : (A d).fresh = some x) :
    x < m.brk := by
  obtain ⟨j, hj⟩ := (wf d).fresh x hd
  exact (h.own d j x hj).1

/-- Two calls that know an instance to be linked know the same level, and only one of them can
hold that level for writing. -/
theorem link_level (h : Inv m A) {j : ℕ} (hc : (A c).link = some (i, x))
    (hd : (A d).link = some (j, x)) : i = j :=
  (h.table i x (h.link c i x hc)).2.symm.trans (h.table j x (h.link d j x hd)).2

/-! ## Each component is kept

One lemma for each field of `Inv`, against each kind of `Change`.  Most changes do not concern a
field and are dealt with at once; the others are the reason why the discipline demands what it does.
-/

section Step

/-- A component of the annotations that the mover keeps is kept by everybody. -/
theorem frame {β : Type} {f : Ann → β} (ho : ∀ d, d ≠ c → A' d = A d)
    (hf : f (A' c) = f (A c)) (d : CallId) : f (A' d) = f (A d) := by
  by_cases hd : d = c
  · subst hd; exact hf
  · rw [ho d hd]

/-- A fact that the mover may forget but does not learn. -/
theorem frame_opt {β : Type} {f : Ann → Option β} (ho : ∀ d, d ≠ c → A' d = A d)
    (hf : f (A' c) = none ∨ f (A' c) = f (A c)) {d : CallId} {y : β} (hd : f (A' d) = some y) :
    f (A d) = some y := by
  by_cases hdc : d = c
  · subst hdc
    rcases hf with hf | hf
    · rw [hf] at hd; cases hd
    · rw [← hf]; exact hd
  · rw [← ho d hdc]; exact hd

/-- The instances a call knows of, for a mover that learns of none. -/
theorem frame_own (ho : ∀ d, d ≠ c → A' d = A d) (hf : ∀ y, y ∈ (A' c).own → y ∈ (A c).own)
    {d : CallId} {y : ℕ × Addr} (hd : y ∈ (A' d).own) : y ∈ (A d).own := by
  by_cases hdc : d = c
  · subst hdc; exact hf y hd
  · rw [← ho d hdc]; exact hd

variable (h : Inv m A) (wf : ∀ d, (A d).WF)
  (hc : Change c m (A c) (A' c) m') (ho : ∀ d, d ≠ c → A' d = A d)

include h hc ho

include wf in
/-- A semaphore is held by those who are annotated with it.  Only the four operations on a semaphore
move an annotation, and each of them says of the mover what the semaphore says of its holders; an
instance that has just been created has a lock that nobody holds. -/
theorem sem_step (l : Sem) (d : CallId) (md : Mode) :
    (m'.sem l).Holds d md ↔ (l, md) ∈ (A' d).held := by
  have hs := h.sem l d md
  cases hc
  case readLocked l₀ s hs₀ free rcu keep =>
    by_cases hd : d = c
    · subst hd
      rw [keep.held, Ann.acquire]
      by_cases hl : l = l₀
      · subst hl; simp [RwSem.holds_downRead hs₀, hs, or_comm]
      · simp [hl, hs]
    · rw [ho d hd, ← hs]
      by_cases hl : l = l₀
      · subst hl; simp [RwSem.holds_downRead hs₀, hd]
      · simp [hl]
  case writeLocked l₀ s hs₀ free rcu keep =>
    by_cases hd : d = c
    · subst hd
      rw [keep.held, Ann.acquire]
      by_cases hl : l = l₀
      · subst hl; simp [RwSem.holds_downWrite hs₀, hs, or_comm]
      · simp [hl, hs]
    · rw [ho d hd, ← hs]
      by_cases hl : l = l₀
      · subst hl; simp [RwSem.holds_downWrite hs₀, hd]
      · simp [hl]
  case readUnlocked l₀ hl₀ keep =>
    have hown := (h.sem l₀ c .read).2 hl₀
    by_cases hd : d = c
    · subst hd
      rw [keep.held, Ann.release]
      by_cases hl : l = l₀
      · subst hl; simp [RwSem.holds_upRead hown, hs]
      · simp [hl, hs]
    · rw [ho d hd, ← hs]
      by_cases hl : l = l₀
      · subst hl; simp [RwSem.holds_upRead hown, hd]
      · simp [hl]
  case writeUnlocked l₀ hl₀ hf keep =>
    have hown := (h.sem l₀ c .write).2 hl₀
    by_cases hd : d = c
    · subst hd
      rw [keep.held, Ann.release]
      by_cases hl : l = l₀
      · subst hl; simp [RwSem.holds_upWrite hown, hs]
      · simp [hl, hs]
    · rw [ho d hd, ← hs]
      by_cases hl : l = l₀
      · subst hl; simp [RwSem.holds_upWrite hown, hd]
      · simp [hl]
  case created j e hf keep =>
    rw [frame (f := Ann.held) ho keep.held]
    by_cases hl : l = .rcu m.brk
    · subst hl
      -- nobody holds the lock of an instance that does not exist yet
      simp only [Mem.createLevel, Function.update_self, RwSem.free_holds, false_iff]
      exact fun hd => lt_irrefl _ (h.held_lt wf hd)
    · simpa [Mem.createLevel, hl] using hs
  -- the other changes leave the semaphores and the annotations with them alone
  case' interrupted y hy keep => have keep := keep (h.fresh_ne hy)
  all_goals
    rename_i keep
    rw [frame (f := Ann.held) ho keep.held]
    exact hs

include wf in
/-- A mutex is owned by the one who is annotated with it.  Releasing it is the case that needs
`mutex_unique`: no other call may be left annotated. -/
theorem mutex_step (x : Addr) (d : CallId) :
    m'.wMutex x = some d ↔ (A' d).mutex = some x := by
  have hs := h.mutex x d
  cases hc
  case mutexLocked y hy free keep =>
    by_cases hd : d = c
    · subst hd
      rw [keep.mutex]
      by_cases hx : x = y
      · subst hx; simp
      · simp [hx, Ne.symm hx, hs, free]
    · rw [ho d hd, ← hs]
      by_cases hx : x = y
      · subst hx; simp [hy, Ne.symm hd]
      · simp [hx]
  case mutexUnlocked y hy keep =>
    by_cases hd : d = c
    · subst hd
      rw [keep.mutex]
      by_cases hx : x = y
      · subst hx; simp
      · simp [hx, hs, hy, Ne.symm hx]
    · rw [ho d hd]
      by_cases hx : x = y
      · subst hx
        have : (A d).mutex ≠ some x := fun hm => hd (h.mutex_unique hy hm)
        simp [this]
      · simp [hx, hs]
  case created j e hf keep =>
    rw [frame (f := Ann.mutex) ho keep.mutex]
    by_cases hx : x = m.brk
    · subst hx
      simp only [Mem.createLevel, Function.update_self, reduceCtorEq, false_iff]
      exact fun hd => lt_irrefl _ (h.mutex_lt wf hd)
    · simpa [Mem.createLevel, hx] using hs
  case' interrupted y hy keep => have keep := keep (h.fresh_ne hy)
  all_goals
    rename_i keep
    rw [frame (f := Ann.mutex) ho keep.mutex]
    exact hs

/-- `tag_entry->waiting` counts the receives that are annotated as counted.  It is incremented and
decremented by the call whose annotation changes. -/
theorem counted_step : Census (fun d => (A' d).counted = true) m'.tagWaiting := by
  have hs := h.counted
  cases hc
  case entered hn keep =>
    refine hs.enter (c := c) (by simp [hn]) (by simp [keep.counted]) fun d hd => ?_
    rw [ho d hd]
  case leftLast hn hcl hz keep =>
    refine hs.leave (c := c) hn (by simp [keep.counted]) fun d hd => ?_
    rw [ho d hd]
  case left hn hcl hz keep =>
    refine hs.leave (c := c) hn (by simp [keep.counted]) fun d hd => ?_
    rw [ho d hd]
  case' interrupted y hy keep => have keep := keep (h.fresh_ne hy)
  all_goals
    rename_i keep
    exact hs.congr fun d => by rw [frame (f := Ann.counted) ho keep.counted]

include wf in
/-- `waiting` of an instance counts the receives that are registered on it.  Nobody is registered on
an instance that has just been created. -/
theorem reg_step (x : Addr) : Census (fun d => (A' d).reg = some x) (m'.waiting x) := by
  have hs := h.reg x
  cases hc
  case registered y hn hr keep =>
    by_cases hx : x = y
    · subst hx
      simp only [Function.update_self]
      refine hs.enter (c := c) (by simp [hn]) (by simp [keep.reg]) fun d hd => ?_
      rw [ho d hd]
    · simp only [Function.update_of_ne hx]
      refine hs.congr fun d => ?_
      by_cases hd : d = c
      · subst hd; simp [keep.reg, hn, Ne.symm hx]
      · rw [ho d hd]
  case unregistered y hn keep =>
    by_cases hx : x = y
    · subst hx
      simp only [Function.update_self]
      refine hs.leave (c := c) hn (by simp [keep.reg]) fun d hd => ?_
      rw [ho d hd]
    · simp only [Function.update_of_ne hx]
      refine hs.congr fun d => ?_
      by_cases hd : d = c
      · subst hd; simp [keep.reg, hn, Ne.symm hx]
      · rw [ho d hd]
  case created j e hf keep =>
    by_cases hx : x = m.brk
    · subst hx
      simp only [Mem.createLevel, Function.update_self]
      refine Census.empty fun d hd => lt_irrefl _ (h.reg_lt wf (d := d) ?_)
      rwa [frame (f := Ann.reg) ho keep.reg] at hd
    · simp only [Mem.createLevel, Function.update_of_ne hx]
      exact hs.congr fun d => by rw [frame (f := Ann.reg) ho keep.reg]
  case' interrupted y hy keep => have keep := keep (h.fresh_ne hy)
  all_goals
    rename_i keep
    exact hs.congr fun d => by rw [frame (f := Ann.reg) ho keep.reg]

include wf in
/-- A call learns of an instance by loading it or by creating it.  What is loaded under the lock of
the level is not fresh for anybody else, since its creator would hold that lock for writing; what is
created has not been there before. -/
theorem own_step (d : CallId) (i : ℕ) (x : Addr) (hd : (i, x) ∈ (A' d).own) :
    x < m'.brk ∧ m'.level x = i ∧ ∀ e, e ≠ d → (A' e).fresh ≠ some x := by
  cases hc
  case loaded j y hy lock keep =>
    have hfresh : ∀ e, (A' e).fresh = some x → (A e).fresh = some x :=
      fun e => frame_opt (f := Ann.fresh) ho keep.fresh
    by_cases hold : (i, x) ∈ (A d).own
    · obtain ⟨h1, h2, h3⟩ := h.own d i x hold
      exact ⟨h1, h2, fun e he hf => h3 e he (hfresh e hf)⟩
    · -- only the mover has learnt of an instance, the one it has just loaded
      have hdc : d = c := by
        by_contra hne
        rw [ho d hne] at hd
        exact hold hd
      subst hdc
      have hxy := keep.own _ hd
      simp only [List.mem_cons, hold, or_false, Prod.mk.injEq] at hxy
      obtain ⟨rfl, rfl⟩ := hxy
      refine ⟨(h.table i x hy).1, (h.table i x hy).2, fun e he hf => ?_⟩
      obtain ⟨md, hmd⟩ := lock
      exact he (h.write_alone ((h.fresh e x (hfresh e hf)).2.2 i hy) hmd).1.symm
  case created j y hf keep =>
    by_cases hold : (i, x) ∈ (A d).own
    · obtain ⟨h1, h2, h3⟩ := h.own d i x hold
      have hx : x ≠ m.brk := ne_of_lt h1
      refine ⟨Nat.lt_succ_of_lt h1, by simpa [Mem.createLevel, hx] using h2,
        fun e he hf' => ?_⟩
      by_cases hec : e = c
      · subst hec
        rcases keep.fresh with hk | hk
        · rw [hk] at hf'; cases hf'
        · rw [hk] at hf'; cases hf'; exact hx rfl
      · rw [ho e hec] at hf'
        exact h3 e he hf'
    · have hdc : d = c := by
        by_contra hne
        rw [ho d hne] at hd
        exact hold hd
      subst hdc
      have hxy := keep.own _ hd
      simp only [List.mem_cons, hold, or_false, Prod.mk.injEq] at hxy
      obtain ⟨rfl, rfl⟩ := hxy
      refine ⟨Nat.lt_succ_self _, by simp [Mem.createLevel], fun e he hf' => ?_⟩
      rw [ho e he] at hf'
      exact lt_irrefl _ (h.fresh_lt wf hf')
  case' interrupted y hy keep => have keep := keep (h.fresh_ne hy)
  all_goals
    rename_i keep
    obtain ⟨h1, h2, h3⟩ := h.own d i x (frame_own ho keep.own hd)
    exact ⟨h1, h2, fun e he hf => h3 e he (frame_opt (f := Ann.fresh) ho keep.fresh hf)⟩

omit ho in
/-- What a level points to was allocated for it.  The pointer is assigned only to an instance that
the call has created for this level, or back to one that was linked before. -/
theorem table_step (i : ℕ) (x : Addr) (hi : m'.tagLevel i = some x) :
    x < m'.brk ∧ m'.level x = i := by
  cases hc
  case linked j y lock hy keep =>
    by_cases hij : i = j
    · subst hij
      simp only [Function.update_self, Option.some.injEq] at hi
      subst hi
      rcases hy with ⟨_, hown, _⟩ | hl
      · exact ⟨(h.own c i y hown).1, (h.own c i y hown).2.1⟩
      · exact h.table i y (h.link c i y hl)
    · simp only [Function.update_of_ne hij] at hi
      exact h.table i x hi
  case created j e hf keep =>
    obtain ⟨h1, h2⟩ := h.table i x hi
    exact ⟨Nat.lt_succ_of_lt h1, by simpa [Mem.createLevel, ne_of_lt h1] using h2⟩
  all_goals exact h.table i x hi

include wf in
/-- A pointer that was loaded under the lock of its level stays what it is as long as the lock is
held. -/
theorem link_step (d : CallId) (i : ℕ) (x : Addr) (hd : (A' d).link = some (i, x)) :
    m'.tagLevel i = some x := by
  cases hc
  case loaded j y hy lock keep =>
    by_cases hdc : d = c
    · subst hdc
      rcases keep.link with hk | hk
      · rw [hk] at hd; cases hd
      · rw [hk] at hd; cases hd; exact hy
    · rw [ho d hdc] at hd
      exact h.link d i x hd
  case linked j y lock hy keep =>
    by_cases hdc : d = c
    · subst hdc
      rcases keep.link with hk | hk
      · rw [hk] at hd; cases hd
      · rw [hk] at hd; cases hd; simp
    · rw [ho d hdc] at hd
      have hij : i ≠ j := by
        rintro rfl
        obtain ⟨md, hmd⟩ := (wf d).link i x hd
        exact hdc (h.write_alone lock hmd).1
      simpa [hij] using h.link d i x hd
  case' interrupted y hy keep => have keep := keep (h.fresh_ne hy)
  all_goals
    rename_i keep
    exact h.link d i x (frame_opt (f := Ann.link) ho keep.link hd)

include wf in
/-- An instance that a call knows to be idle stays idle.  It is set ready by a send that owns its
mutex and holds its `rcu_lock` for reading, and knowing it to be idle takes the mutex or the
`rcu_lock` for writing. -/
theorem idle_step (d : CallId) (x : Addr) (hd : (A' d).idle = some x) : m'.ready x = false := by
  cases hc
  case sawIdle y hy keep =>
    by_cases hdc : d = c
    · subst hdc
      rcases keep.idle with hk | hk
      · rw [hk] at hd; cases hd
      · rw [hk] at hd; cases hd; exact hy
    · rw [ho d hdc] at hd
      exact h.idle d x hd
  case armed y hi hm hr keep =>
    by_cases hdc : d = c
    · subst hdc
      rcases keep.idle with hk | hk
      · rw [hk] at hd; cases hd
      · rw [hk] at hd; cases hd
    · rw [ho d hdc] at hd
      -- whoever else knows the instance to be idle keeps the sender out
      have hxy : x ≠ y := by
        rintro rfl
        rcases (wf d).idle x hd with ⟨hmd, _⟩ | hw
        · exact hdc (h.mutex_unique hm hmd)
        · exact h.no_reader hw hr
      simpa [hxy] using h.idle d x hd
  case reset y hr keep =>
    by_cases hxy : x = y
    · subst hxy; simp
    · simp only [Function.update_of_ne hxy]
      refine h.idle d x ?_
      by_cases hdc : d = c
      · subst hdc
        rcases keep.idle with hk | hk
        · rw [hk] at hd; cases hd
        · rw [hk] at hd; cases hd; exact absurd rfl hxy
      · rwa [ho d hdc] at hd
  case created j e hf keep =>
    have hold := h.idle d x (frame_opt (f := Ann.idle) ho keep.idle hd)
    by_cases hx : x = m.brk
    · subst hx; simp [Mem.createLevel]
    · simpa [Mem.createLevel, hx] using hold
  case' interrupted y hy keep => have keep := keep (h.fresh_ne hy)
  all_goals
    rename_i keep
    exact h.idle d x (frame_opt (f := Ann.idle) ho keep.idle hd)

/-- **Who can become a holder of an `rcu_lock`**: a reader that knows the instance to be linked,
or a writer that has known it for long and has nothing fresh. -/
theorem new_holder {e : CallId} {x : Addr} {md : Mode} (he : (Sem.rcu x, md) ∈ (A' e).held)
    (hn : (Sem.rcu x, md) ∉ (A e).held) :
    e = c ∧ m'.tagLevel = m.tagLevel ∧ (A' c).fresh = none ∧
      ((md = .read ∧ (∃ i, (A c).link = some (i, x)) ∧ (A' c).busy = none) ∨
        (md = .write ∧ ∃ i, (i, x) ∈ (A c).own)) := by
  have hec : e = c := by
    by_contra hne
    rw [ho e hne] at he
    exact hn he
  refine ⟨hec, ?_⟩
  subst hec
  cases hc
  case readLocked l s hs free rcu keep =>
    rw [keep.held, Ann.acquire] at he
    simp only [List.mem_cons, Prod.mk.injEq, hn, or_false] at he
    obtain ⟨hl, hf, hb⟩ := rcu x he.1.symm
    exact ⟨rfl, hf, .inl ⟨he.2, hl, hb⟩⟩
  case writeLocked l s hs free rcu keep =>
    rw [keep.held, Ann.acquire] at he
    simp only [List.mem_cons, Prod.mk.injEq, hn, or_false] at he
    obtain ⟨hown, hf⟩ := rcu x he.1.symm
    exact ⟨rfl, by rcases keep.fresh with hk | hk <;> simp [hk, Ann.acquire, hf],
      .inr ⟨he.2, hown⟩⟩
  case readUnlocked l hl keep =>
    rw [keep.held, Ann.release] at he
    exact absurd (List.mem_of_mem_filter he) hn
  case writeUnlocked l hl hfn keep =>
    rw [keep.held, Ann.release] at he
    exact absurd (List.mem_of_mem_filter he) hn
  case' interrupted y hy keep => have keep := keep (h.fresh_ne hy)
  all_goals
    rename_i keep
    rw [keep.held] at he
    exact absurd he hn

/-- A fresh instance is not ready: setting it ready takes its `rcu_lock`, which nobody but its
creator could have. -/
theorem fresh_ready_step (d : CallId) (x : Addr) (hd : (A' d).fresh = some x) :
    m'.ready x = false := by
  cases hc
  case armed y hi hm hr keep =>
    have hf := frame_opt (f := Ann.fresh) ho keep.fresh hd
    have hxy : x ≠ y := by
      rintro rfl
      exact (h.fresh d x hf).2.1 c .read hr
    simpa [hxy] using (h.fresh d x hf).1
  case reset y hr keep =>
    have hf := frame_opt (f := Ann.fresh) ho keep.fresh hd
    by_cases hxy : x = y
    · subst hxy; simp
    · simpa [hxy] using (h.fresh d x hf).1
  case created j e hf keep =>
    by_cases hx : x = m.brk
    · subst hx; simp [Mem.createLevel]
    · have hdc : d ≠ c := by
        rintro rfl
        rcases keep.fresh with hk | hk
        · rw [hk] at hd; cases hd
        · rw [hk] at hd; cases hd; exact hx rfl
      rw [ho d hdc] at hd
      simpa [Mem.createLevel, hx] using (h.fresh d x hd).1
  case' interrupted y hy keep => have keep := keep (h.fresh_ne hy)
  all_goals
    rename_i keep
    exact (h.fresh d x (frame_opt (f := Ann.fresh) ho keep.fresh hd)).1

include wf in
/-- Nobody acquires the lock of an instance that is fresh for another call: it would have to be
linked, and the creator keeps everybody else from the level. -/
theorem fresh_held_step (d : CallId) (x : Addr) (hd : (A' d).fresh = some x) (e : CallId)
    (md : Mode) : (Sem.rcu x, md) ∉ (A' e).held := by
  intro he
  by_cases hold : (Sem.rcu x, md) ∈ (A e).held
  · by_cases hf : (A d).fresh = some x
    · exact (h.fresh d x hf).2.1 e md hold
    · -- an instance that has just become fresh did not exist before
      cases hc
      case created j n hf' keep =>
        have hdc : d = c := by
          by_contra hne
          rw [ho d hne] at hd
          exact hf hd
        subst hdc
        rcases keep.fresh with hk | hk
        · rw [hk] at hd; cases hd
        · rw [hk] at hd; cases hd
          exact lt_irrefl _ (h.held_lt wf hold)
      case' interrupted y hy keep => have keep := keep (h.fresh_ne hy)
      all_goals
        rename_i keep
        exact hf (frame_opt (f := Ann.fresh) ho keep.fresh hd)
  · obtain ⟨rfl, -, hfn, hnew⟩ := h.new_holder hc ho he hold
    have hde : d ≠ e := by
      rintro rfl
      rw [hfn] at hd; cases hd
    rw [ho d hde] at hd
    rcases hnew with ⟨-, ⟨i, hl⟩, -⟩ | ⟨-, i, hown⟩
    · obtain ⟨md', hmd'⟩ := (wf e).link i x hl
      exact hde (h.write_alone ((h.fresh d x hd).2.2 i (h.link e i x hl)) hmd').1.symm
    · exact (h.own e i x hown).2.2 d hde hd

/-- Where a level points to a fresh instance, its creator still holds the level for writing. -/
theorem fresh_link_step (d : CallId) (x : Addr) (hd : (A' d).fresh = some x) (i : ℕ)
    (hi : m'.tagLevel i = some x) : (Sem.level i, Mode.write) ∈ (A' d).held := by
  cases hc
  case readLocked l s hs free rcu keep =>
    have hw := (h.fresh d x (frame_opt (f := Ann.fresh) ho keep.fresh hd)).2.2 i hi
    by_cases hdc : d = c
    · subst hdc; rw [keep.held, Ann.acquire]; exact List.mem_cons_of_mem _ hw
    · rwa [ho d hdc]
  case writeLocked l s hs free rcu keep =>
    have hw := (h.fresh d x (frame_opt (f := Ann.fresh) ho keep.fresh hd)).2.2 i hi
    by_cases hdc : d = c
    · subst hdc; rw [keep.held, Ann.acquire]; exact List.mem_cons_of_mem _ hw
    · rwa [ho d hdc]
  case readUnlocked l hl keep =>
    have hw := (h.fresh d x (frame_opt (f := Ann.fresh) ho keep.fresh hd)).2.2 i hi
    by_cases hdc : d = c
    · subst hdc; rw [keep.held, Ann.release]; simp [hw]
    · rwa [ho d hdc]
  case writeUnlocked l hl hfn keep =>
    have hf := frame_opt (f := Ann.fresh) ho keep.fresh hd
    have hdc : d ≠ c := by
      rintro rfl
      rw [hfn] at hf; cases hf
    rw [ho d hdc]
    exact (h.fresh d x hf).2.2 i hi
  case linked j y lock hy keep =>
    have hf := frame_opt (f := Ann.fresh) ho keep.fresh hd
    rw [frame (f := Ann.held) ho keep.held]
    by_cases hij : i = j
    · subst hij
      simp only [Function.update_self, Option.some.injEq] at hi
      subst hi
      by_cases hdc : d = c
      · subst hdc; exact lock
      · rcases hy with ⟨_, hown, _⟩ | hl
        · exact absurd hf ((h.own c i y hown).2.2 d hdc)
        · exact (h.fresh d y hf).2.2 i (h.link c i y hl)
    · simp only [Function.update_of_ne hij] at hi
      exact (h.fresh d x hf).2.2 i hi
  case created j n hf keep =>
    rw [frame (f := Ann.held) ho keep.held]
    have hx : x ≠ m.brk := ne_of_lt (h.table i x hi).1
    have hdc : d ≠ c := by
      rintro rfl
      rcases keep.fresh with hk | hk
      · rw [hk] at hd; cases hd
      · rw [hk] at hd; cases hd; exact hx rfl
    rw [ho d hdc] at hd
    exact (h.fresh d x hd).2.2 i hi
  case' interrupted y hy keep => have keep := keep (h.fresh_ne hy)
  all_goals
    rename_i keep
    rw [frame (f := Ann.held) ho keep.held]
    exact (h.fresh d x (frame_opt (f := Ann.fresh) ho keep.fresh hd)).2.2 i hi

omit ho in
/-- A step leaves an instance with a reader linked or ready. -/
theorem superseded_mem (wf : ∀ d, (A d).WF) {d : CallId} {x : Addr}
    (hd : (Sem.rcu x, Mode.read) ∈ (A d).held) : m'.Linked x ∨ m'.ready x = true := by
  have hs := h.superseded d x hd
  cases hc
  case armed y hi hm hr keep =>
    by_cases hxy : x = y
    · subst hxy; exact .inr (by simp)
    · simpa [Mem.Linked, hxy] using hs
  case reset y hr keep =>
    have hxy : x ≠ y := by
      rintro rfl
      exact h.no_reader hr hd
    simpa [Mem.Linked, hxy] using hs
  case linked j y lock hy keep =>
    rcases hs with ⟨i, hi⟩ | hready
    · by_cases hij : i = j
      · subst hij
        rcases hy with ⟨_, _, z, hz, hbusy⟩ | hl
        · -- the replaced instance has this reader, so it is ready
          obtain rfl : x = z := Option.some.inj (hi.symm.trans (h.link c i z hz))
          exact .inr (h.busy c x hbusy d hd)
        · obtain rfl : x = y := Option.some.inj (hi.symm.trans (h.link c i y hl))
          exact .inl ⟨i, by simp⟩
      · exact .inl ⟨i, by simpa [hij] using hi⟩
    · exact .inr hready
  case created j n hf keep =>
    have hx : x ≠ m.brk := ne_of_lt (h.held_lt wf hd)
    simpa [Mem.Linked, Mem.createLevel, hx] using hs
  all_goals exact hs

include wf in
/-- A reader finds its instance linked or ready.  The readers that were there are those of
`superseded_mem`; a new one has just loaded the pointer. -/
theorem superseded_step (d : CallId) (x : Addr) (hd : (Sem.rcu x, Mode.read) ∈ (A' d).held) :
    m'.Linked x ∨ m'.ready x = true := by
  by_cases hold : (Sem.rcu x, Mode.read) ∈ (A d).held
  · exact h.superseded_mem hc wf hold
  · -- only a new reader is left, and it knows the instance to be linked
    obtain ⟨rfl, htab, -, ⟨-, ⟨i, hl⟩, -⟩ | ⟨hmd, -⟩⟩ := h.new_holder hc ho hd hold
    · exact .inl ⟨i, by rw [htab]; exact h.link d i x hl⟩
    · cases hmd

include wf in
/-- An instance that is about to be replaced is ready as long as it has readers.  `ready` is reset
only by a call that holds its `rcu_lock` for writing, so not while it has any, and new readers are
kept away by the level lock. -/
theorem busy_step (d : CallId) (x : Addr) (hd : (A' d).busy = some x) (e : CallId)
    (he : (Sem.rcu x, Mode.read) ∈ (A' e).held) : m'.ready x = true := by
  by_cases hold : (Sem.rcu x, Mode.read) ∈ (A e).held
  · cases hc
    case sawReady y hy keep =>
      by_cases hdc : d = c
      · subst hdc
        rcases keep.busy with hk | hk
        · rw [hk] at hd; cases hd
        · rw [hk] at hd; cases hd; exact hy
      · rw [ho d hdc] at hd
        exact h.busy d x hd e hold
    case armed y hi hm hr keep =>
      have hb := frame_opt (f := Ann.busy) ho keep.busy hd
      by_cases hxy : x = y
      · subst hxy; simp
      · simpa [hxy] using h.busy d x hb e hold
    case reset y hr keep =>
      have hb := frame_opt (f := Ann.busy) ho keep.busy hd
      have hxy : x ≠ y := by
        rintro rfl
        exact h.no_reader hr hold
      simpa [hxy] using h.busy d x hb e hold
    case linked j y lock hy keep =>
      refine h.busy d x ?_ e hold
      by_cases hdc : d = c
      · subst hdc
        rcases keep.busy with hk | hk <;> · rw [hk] at hd; cases hd
      · rwa [ho d hdc] at hd
    case created j n hf keep =>
      have hb := frame_opt (f := Ann.busy) ho keep.busy hd
      have hx : x ≠ m.brk := ne_of_lt (h.held_lt wf hold)
      simpa [Mem.createLevel, hx] using h.busy d x hb e hold
    case' interrupted y hy keep => have keep := keep (h.fresh_ne hy)
    all_goals
      rename_i keep
      exact h.busy d x (frame_opt (f := Ann.busy) ho keep.busy hd) e hold
  · obtain ⟨rfl, -, -, ⟨-, ⟨i, hl⟩, hbn⟩ | ⟨hmd, -⟩⟩ := h.new_holder hc ho he hold
    · -- the call about to replace the instance keeps new readers from the level
      have hde : d ≠ e := by
        rintro rfl
        rw [hbn] at hd; cases hd
      rw [ho d hde] at hd
      obtain ⟨j, hlj, hw⟩ := (wf d).busy x hd
      obtain rfl := h.link_level hl hlj
      obtain ⟨md, hmd⟩ := (wf e).link i x hl
      exact absurd (h.write_alone hw hmd).1.symm hde
    · cases hmd

include wf in
/-- **Every change keeps the invariant.** -/
theorem change_inv : Inv m' A' where
  sem := h.sem_step wf hc ho
  mutex := h.mutex_step wf hc ho
  counted := h.counted_step hc ho
  reg := h.reg_step wf hc ho
  own := h.own_step wf hc ho
  table := h.table_step hc
  link := h.link_step wf hc ho
  idle := h.idle_step wf hc ho
  fresh d x hd := ⟨h.fresh_ready_step hc ho d x hd, h.fresh_held_step wf hc ho d x hd,
    h.fresh_link_step hc ho d x hd⟩
  superseded := h.superseded_step wf hc ho
  busy := h.busy_step wf hc ho

end Step

end Inv

/-! ## The invariant of every run

A fresh tag satisfies it, and every step is a change (`Step.change`). -/

theorem Thread.ann_of_idle {t : Thread} (h : t.idle = true) : t.ann = {} := by
  cases t with
  | receive a p => cases p <;> first | rfl | cases h
  | send b p => cases p <;> first | rfl | cases h
  | awake e p => cases p <;> first | rfl | cases h

theorem Thread.ann_of_returned {t : Thread} (h : t.returned = true) : t.ann = {} := by
  cases t with
  | receive a p => cases p <;> first | rfl | cases h
  | send b p => cases p <;> first | rfl | cases h
  | awake e p => cases p <;> first | rfl | cases h

/-- The invariant holds of a fresh tag. -/
theorem Init.inv {s : State} (h : Init s) : Inv s.mem s.anns := by
  have hA : s.anns = fun _ => {} := funext fun c => Thread.ann_of_idle (h.idle c)
  obtain ⟨pm, e, hm⟩ := h.mem
  rw [hA, hm]
  constructor <;> simp +contextual [Mem.fresh, Census.empty]

/-- A step keeps the invariant. -/
theorem Step.inv {s s' : State} {c : CallId} (hs : Step s c s') (h : Inv s.mem s.anns) :
    Inv s'.mem s'.anns :=
  h.change_inv s.anns_wf hs.change hs.anns_of_ne

/-- **The invariant holds in every reachable state.** -/
theorem Reachable.inv {s : State} (h : Reachable s) : Inv s.mem s.anns := by
  obtain ⟨s₀, h0, hr⟩ := h
  exact hr.invariant h0.inv fun u c v hu _ hs => hs.inv hu

end TagAos
