import TagAos.Service.Visit

/-!
# The locks of the calls that print

Compiled with `AUDIT`, the module prints all the tags before a `tag_get` or a deletion returns
successfully.  `print_tag` walks through `tag_lock` twice, the second time under `common_lock`.
Here that walk is put behind the code of `TagAos.Service`; a call that prints holds locks that
keep others waiting, so the runs are not those of the service, but every step is either one of
the service on what `State.calls` leaves of the state, or one of the walk (`step_cases`).

A call is to give back the locks it holds, and no others (`Balanced`).  In the second loop of the
walk an interrupted acquisition gives `common_lock` back and goes on: the next one, or the end of
the loop, gives it back again.
-/

set_option autoImplicit false

namespace TagAos.Service.Audit

open Conc
open Registry (Lock maxTags)

/-! ## The walk

`print_tag` at the level of its locks.  What it prints is not modelled: it is read under the locks
and goes to the kernel log. -/

/-- The points of `print_tag`; `i` is its loop counter. -/
inductive PrintState
  | lockTag (i : ℕ)
  | unlockTag (i : ℕ)
  | lockCommon
  -- the second loop
  | lockEntry (i : ℕ)
  | unlockEntry (i : ℕ)
  | skipEntry (i : ℕ)
  | unlockCommon
  | done
  deriving DecidableEq

namespace PrintState

/-- The first loop goes on. -/
def nextTag (i : ℕ) : PrintState := if i + 1 < maxTags then lockTag (i + 1) else lockCommon

/-- The second loop goes on. -/
def nextEntry (i : ℕ) : PrintState := if i + 1 < maxTags then lockEntry (i + 1) else unlockCommon

/-- The locks held for reading at a point of the walk, unless the second loop is interrupted. -/
def held : PrintState → List Lock
  | unlockTag i => [.tag i]
  | lockEntry _ | skipEntry _ | unlockCommon => [.common]
  | unlockEntry i => [.tag i, .common]
  | _ => []

end PrintState

open PrintState in
/-- `print_tag`: the operation at each point.  Between an acquisition and the release it only
reads what it prints. -/
def printStep (c : CallId) (m : Mem) : PrintState → Outcome → Option (Mem × PrintState)
  | lockTag i, .go =>
    ((m.lock (.tag i)).downRead c).map fun s => (m.setLock (.tag i) s, unlockTag i)
  | lockTag i, .signal => some (m, nextTag i)
  | unlockTag i, .go => some (m.setLock (.tag i) ((m.lock (.tag i)).upRead c), nextTag i)
  | lockCommon, .go =>
    ((m.lock .common).downRead c).map fun s => (m.setLock .common s, lockEntry 0)
  | lockCommon, .signal => some (m, done)
  | lockEntry i, .go =>
    ((m.lock (.tag i)).downRead c).map fun s => (m.setLock (.tag i) s, unlockEntry i)
  | lockEntry i, .signal => some (m, skipEntry i)
  | unlockEntry i, .go => some (m.setLock (.tag i) ((m.lock (.tag i)).upRead c), nextEntry i)
  | skipEntry i, .go => some (m.setLock .common ((m.lock .common).upRead c), nextEntry i)
  | unlockCommon, .go => some (m.setLock .common ((m.lock .common).upRead c), done)
  | _, _ => none

/-! ## The calls

A call that prints does so at its end, after it has released everything, and only then returns.  So
a thread is a call in its own code, or a call at its end together with a point of the walk. -/

/-- The call prints before it returns. -/
def prints : Service.Thread → Bool
  | .get _ _ (.done rc) => 0 ≤ rc
  | .delete _ _ _ _ (.done rc) => rc = 1
  | _ => false

/-- A call in its own code, or in the walk, with the call as it is going to return. -/
inductive Thread
  | main (t : Service.Thread)
  | print (t : Service.Thread) (p : PrintState)
  deriving DecidableEq

namespace Thread

/-- The call without the walk. -/
def call : Thread → Service.Thread
  | main t | print t _ => t

/-- The call has returned. -/
def returned : Thread → Bool
  | main t => t.returned
  | print _ p => p = .done

/-- The call holds the lock outside of the tags. -/
def Holds : Thread → Lock → Mode → Prop
  | main t, l, md => t.lockHeld = some (l, md)
  | print _ p, l, md => md = .read ∧ l ∈ p.held

end Thread

/-- Where a call goes on: in the walk, if it has come to its end and prints. -/
def enter (audit : Bool) (t : Service.Thread) : Thread :=
  if audit && prints t then .print t (.lockTag 0) else .main t

@[simp] theorem call_enter (audit : Bool) (t : Service.Thread) : (enter audit t).call = t := by
  rw [enter]
  split <;> rfl

/-- The memory of the module and the point each call is at. -/
abbrev State := Config CallId Mem Thread

/-- What is left when the walk is left out of account. -/
def State.calls (s : State) : Service.State := ⟨s.mem, fun c => (s.thread c).call⟩

@[simp] theorem State.calls_mem (s : State) : s.calls.mem = s.mem := rfl

@[simp] theorem State.calls_thread (s : State) (c : CallId) :
    s.calls.thread c = (s.thread c).call := rfl

/-- One operation of the call `c`, in a module compiled with or without `AUDIT`. -/
def step (audit : Bool) (s : State) (c : CallId) (o : Outcome) : Option State :=
  match s.thread c with
  | .main _ => (Service.step s.calls c o).map fun r => s.set c r.mem (enter audit (r.thread c))
  | .print t p => (printStep c s.mem p o).map fun r => s.set c r.1 (.print t r.2)

/-- The module has just been loaded, and no call has begun. -/
structure Init (s : State) : Prop where
  calls : Service.Init s.calls
  main : ∀ c, s.thread c = .main (s.thread c).call

/-! ## What is held and what is given back

A release of a lock that one does not hold corrupts it for everybody else, and a lock that is not
released is lost.  `Balanced` excludes both. -/

/-- The lock an operation gives back. -/
def instrGives {π : Type} (d : ℕ) (x : Option TagAddr) : Instr π → Option (LockName × Mode)
  | .upRead l _ => (semName d x l).map fun n => (n, .read)
  | .upWrite l _ => (semName d x l).map fun n => (n, .write)
  | .unlockMutex a _ => x.map fun y => (.wMutex y a, .write)
  | _ => none

/-- The lock that the next operation of a call gives back. -/
def gives (m : Mem) : Thread → Option (LockName × Mode)
  | .main (.get _ _ (.unlockCreate _)) | .main (.get _ _ .unlockClear) => some (.common, .write)
  | .main (.get _ _ (.unlockOpen _)) => some (.common, .read)
  | .main (.delete tag _ _ _ (.unlockTag _)) | .main (.delete tag _ _ _ (.unlockError _)) =>
    some (.tag tag.toNat, .write)
  | .main (.delete _ _ _ _ (.unlockClear _)) => some (.common, .write)
  | .main (.user tag x t) => instrGives tag.toNat x (userCode tag t)
  | .main (.read a x p) => instrGives p.desc x (readCode a (m.entryOf x) p)
  | .print _ (.unlockTag i) | .print _ (.unlockEntry i) => some (.tag i, .read)
  | .print _ (.skipEntry _) | .print _ .unlockCommon => some (.common, .read)
  | _ => none

/-- Every call gives back the locks it has taken, and no others. -/
structure Balanced (s : State) : Prop where
  /-- A lock that is about to be given back is held, in that mode. -/
  gives : ∀ c l md, gives s.mem (s.thread c) = some (l, md) → HoldsLock s.mem c l md
  /-- A call that has returned holds nothing. -/
  returned : ∀ c, (s.thread c).returned = true → ∀ l md, ¬ HoldsLock s.mem c l md

/-- No acquisition in the second loop of the walk is interrupted. -/
def SparesWalk (s : State) (c : CallId) (o : Outcome) : Prop :=
  ∀ t i, s.thread c = .print t (.lockEntry i) → o ≠ .signal

/-! ## What a step of the walk does

A walk adds locks held for reading to those of the call and takes them away again.  The interruption
in the second loop is the case that the condition leaves out. -/

namespace PrintState

@[simp] theorem held_nextTag (i : ℕ) : (nextTag i).held = [] := by
  rw [nextTag]
  split <;> rfl

@[simp] theorem held_nextEntry (i : ℕ) : (nextEntry i).held = [.common] := by
  rw [nextEntry]
  split <;> rfl

theorem nextTag_ne (i j : ℕ) : nextTag i ≠ skipEntry j := by
  rw [nextTag]
  split <;> exact PrintState.noConfusion

theorem nextEntry_ne (i j : ℕ) : nextEntry i ≠ skipEntry j := by
  rw [nextEntry]
  split <;> exact PrintState.noConfusion

end PrintState

/-- The ways a step of the walk can go, in terms of the locks the call holds for reading. -/
inductive WalkStep (c : CallId) (m : Mem) : List Lock → Mem → List Lock → Prop
  | same {held : List Lock} : WalkStep c m held m held
  | lock {l : Lock} {s : RwSem CallId} {held : List Lock} (h : (m.lock l).downRead c = some s) :
      WalkStep c m held (m.setLock l s) (l :: held)
  | unlock {l : Lock} {held : List Lock} (hl : l ∉ held) :
      WalkStep c m (l :: held) (m.setLock l ((m.lock l).upRead c)) held

section Walk

variable {c : CallId} {o : Outcome} {m m' : Mem} {p p' : PrintState}

/-- A step of `print_tag` acquires and releases what its points say, unless a `tag_lock` is
interrupted. -/
theorem printStep_walk (h : printStep c m p o = some (m', p'))
    (hspare : ∀ i, p = .lockEntry i → o ≠ .signal) (hskip : ∀ i, p ≠ .skipEntry i) :
    WalkStep c m p.held m' p'.held ∧ ∀ i, p' ≠ .skipEntry i := by
  cases p
  case lockTag i =>
    cases o <;> simp only [printStep, reduceCtorEq, Option.some.injEq, Prod.mk.injEq,
      Option.map_eq_some_iff] at h
    · obtain ⟨s, hs, rfl, rfl⟩ := h
      exact ⟨.lock hs, fun _ => PrintState.noConfusion⟩
    · obtain ⟨rfl, rfl⟩ := h
      rw [PrintState.held_nextTag]
      exact ⟨.same, PrintState.nextTag_ne i⟩
  case lockCommon =>
    cases o <;> simp only [printStep, reduceCtorEq, Option.some.injEq, Prod.mk.injEq,
      Option.map_eq_some_iff] at h
    · obtain ⟨s, hs, rfl, rfl⟩ := h
      exact ⟨.lock hs, fun _ => PrintState.noConfusion⟩
    · obtain ⟨rfl, rfl⟩ := h
      exact ⟨.same, fun _ => PrintState.noConfusion⟩
  case lockEntry i =>
    cases o <;> simp only [printStep, reduceCtorEq, Option.some.injEq, Prod.mk.injEq,
      Option.map_eq_some_iff] at h
    · obtain ⟨s, hs, rfl, rfl⟩ := h
      exact ⟨.lock hs, fun _ => PrintState.noConfusion⟩
    · exact absurd rfl (hspare i rfl)
  case skipEntry i => exact absurd rfl (hskip i)
  case unlockTag i =>
    cases o <;> simp only [printStep, reduceCtorEq, Option.some.injEq, Prod.mk.injEq] at h
    obtain ⟨rfl, rfl⟩ := h
    rw [PrintState.held_nextTag]
    exact ⟨.unlock (by simp), PrintState.nextTag_ne i⟩
  case unlockEntry i =>
    cases o <;> simp only [printStep, reduceCtorEq, Option.some.injEq, Prod.mk.injEq] at h
    obtain ⟨rfl, rfl⟩ := h
    rw [PrintState.held_nextEntry]
    exact ⟨.unlock (by simp), PrintState.nextEntry_ne i⟩
  case unlockCommon =>
    cases o <;> simp only [printStep, reduceCtorEq, Option.some.injEq, Prod.mk.injEq] at h
    obtain ⟨rfl, rfl⟩ := h
    exact ⟨.unlock (by simp), fun _ => PrintState.noConfusion⟩
  case done => cases o <;> cases h

variable {held held' : List Lock}

/-- The walk does nothing but acquire and release locks. -/
theorem WalkStep.frame (h : WalkStep c m held m' held') : m' = { m with lock := m'.lock } := by
  cases h <;> rfl

/-- Who holds a lock after a step of the walk. -/
theorem WalkStep.holds (h : WalkStep c m held m' held')
    (hold : ∀ l md, (m.lock l).Holds c md ↔ md = .read ∧ l ∈ held) (l : Lock) (d : CallId)
    (md : Mode) :
    (m'.lock l).Holds d md ↔
      if d = c then md = .read ∧ l ∈ held' else (m.lock l).Holds d md := by
  cases h with
  | same =>
    by_cases hd : d = c
    · subst hd; simp [hold]
    · simp [hd]
  | @lock l₀ s _ acq =>
    by_cases hl : l = l₀
    · subst hl
      simp only [Mem.setLock, Function.update_self, RwSem.holds_downRead acq]
      by_cases hd : d = c
      · subst hd; simp +contextual [hold]
      · simp [hd]
    · simp only [Mem.setLock, Function.update_of_ne hl]
      by_cases hd : d = c
      · subst hd; simp [hold, hl]
      · simp [hd]
  | @unlock l₀ _ hfree =>
    have hown : (m.lock l₀).Holds c .read := (hold l₀ .read).2 ⟨rfl, by simp⟩
    by_cases hl : l = l₀
    · subst hl
      simp only [Mem.setLock, Function.update_self, RwSem.holds_upRead hown]
      by_cases hd : d = c
      · subst hd; simp [hold, hfree]
      · simp [hd]
    · simp only [Mem.setLock, Function.update_of_ne hl]
      by_cases hd : d = c
      · subst hd; simp [hold, hl]
      · simp [hd]

end Walk

/-! ## What a step is

Either kind of thread makes its own kind of step, so the lemmas about the service apply to the one
and those of the last section to the other. -/

section Step

variable {audit : Bool} {s s' : State} {c : CallId} {o : Outcome}

theorem State.calls_set (s : State) (c : CallId) (m : Mem) (t : Thread) :
    State.calls (s.set c m t) = s.calls.set c m t.call := by
  simp only [State.calls, Config.set, Config.mk.injEq, true_and]
  funext d
  by_cases hd : d = c
  · subst hd; simp
  · simp [hd]

theorem set_of_step {s r : Service.State} (h : Service.Step s c r) :
    s.set c r.mem (r.thread c) = r := by
  obtain ⟨m, thread⟩ := r
  simp only [Config.set, Config.mk.injEq, true_and]
  funext d
  by_cases hd : d = c
  · subst hd; simp
  · rw [Function.update_of_ne hd]
    exact (h.thread_of_ne hd).symm

/-- A step is one of the service, or one of the walk. -/
theorem step_cases (h : step audit s c o = some s') :
    (∃ t, s.thread c = .main t ∧ Service.Step s.calls c s'.calls ∧
        s'.thread c = enter audit (s'.calls.thread c)) ∨
      ∃ t p m p', s.thread c = .print t p ∧ printStep c s.mem p o = some (m, p') ∧
        s' = s.set c m (.print t p') := by
  cases hc : s.thread c with
  | main t =>
    simp only [step, hc, Option.map_eq_some_iff] at h
    obtain ⟨r, hr, rfl⟩ := h
    have hstep : Service.Step s.calls c r := ⟨o, hr⟩
    have hcalls : State.calls (s.set c r.mem (enter audit (r.thread c))) = r := by
      rw [State.calls_set, call_enter, set_of_step hstep]
    refine .inl ⟨t, rfl, ?_, ?_⟩
    · rw [hcalls]; exact hstep
    · rw [hcalls, Config.set_thread_self]
  | print t p =>
    simp only [step, hc, Option.map_eq_some_iff] at h
    obtain ⟨⟨m, p'⟩, hx, rfl⟩ := h
    exact .inr ⟨t, p, m, p', rfl, hx, rfl⟩

/-- A step does not move any other call. -/
theorem thread_of_ne {d : CallId} (h : step audit s c o = some s') (hd : d ≠ c) :
    s'.thread d = s.thread d := by
  rw [step] at h
  split at h <;>
  · obtain ⟨r, -, rfl⟩ := Option.map_eq_some_iff.1 h
    exact Config.set_thread_of_ne _ _ _ _ hd

end Step

/-! ## Every lock is held by the right calls

The invariant of `TagAos.Service.Locks`, with the locks of the walks added.  A call that walks owns
nothing else, since it is at its end. -/

/-- A call at its end owns nothing of a tag. -/
theorem ann_of_returned {t : Service.Thread} (h : t.returned = true) : t.ann = {} := by
  cases t with
  | get | delete => rfl
  | user tag x t => exact TagAos.Thread.ann_of_returned h
  | read a x p => cases p <;> first | rfl | cases h

/-- A call at its end holds neither `common_lock` nor a `tag_lock`. -/
theorem lockHeld_of_returned {t : Service.Thread} (h : t.returned = true) : t.lockHeld = none := by
  cases t with
  | get a x p => cases p <;> first | rfl | cases h
  | delete tag e x i p => cases p <;> first | rfl | cases h
  | user tag x t =>
    have hann : t.ann = {} := TagAos.Thread.ann_of_returned h
    rw [Service.Thread.lockHeld, hann]
    rfl
  | read a x p => cases p <;> first | rfl | cases h

theorem returned_of_prints {t : Service.Thread} (h : prints t = true) : t.returned = true := by
  cases t with
  | get a x p => cases p <;> first | rfl | cases h
  | delete tag e x i p => cases p <;> first | rfl | cases h
  | user | read => cases h

theorem enter_eq_print {audit : Bool} {t u : Service.Thread} {p : PrintState}
    (h : enter audit t = .print u p) : u = t ∧ p = .lockTag 0 ∧ t.returned = true := by
  rw [enter] at h
  split at h
  · rename_i hp
    cases h
    rw [Bool.and_eq_true] at hp
    exact ⟨rfl, rfl, returned_of_prints hp.2⟩
  · cases h

/-- A call that has returned and goes on to `print_tag` holds what it held. -/
theorem holds_enter {audit : Bool} {t : Service.Thread} {l : Lock} {md : Mode} :
    (enter audit t).Holds l md ↔ t.lockHeld = some (l, md) := by
  cases he : enter audit t with
  | main u =>
    have hu : u = t := by rw [← call_enter audit t, he]; rfl
    rw [hu]
    rfl
  | print u p =>
    obtain ⟨rfl, rfl, hret⟩ := enter_eq_print he
    simp [Thread.Holds, PrintState.held, lockHeld_of_returned hret]

/-- The invariants of the service, and who holds the locks outside of the tags. -/
structure Sound (s : State) : Prop where
  tags : Disciplined s.calls
  locks : ∀ l d md, (s.mem.lock l).Holds d md ↔ (s.thread d).Holds l md
  /-- Who walks is about to return. -/
  ended : ∀ c t p, s.thread c = .print t p → t.returned = true
  /-- No second loop has been interrupted. -/
  walks : ∀ c t i, s.thread c ≠ .print t (.skipEntry i)

section Step

variable {audit : Bool} {s s' : State} {c : CallId} {o : Outcome}

theorem Init.sound (h : Init s) : Sound s where
  tags := h.calls.disciplined
  locks l d md := by
    rw [h.main d]
    exact h.calls.locks l d md
  ended c t p hc := by
    rw [h.main c] at hc
    cases hc
  walks c t i hc := by
    rw [h.main c] at hc
    cases hc

/-- A step of the service keeps the invariant. -/
theorem Sound.step_main {t : Service.Thread} (h : Sound s) (hc : s.thread c = .main t)
    (hs : Service.Step s.calls c s'.calls)
    (hthread : s'.thread c = enter audit (s'.calls.thread c))
    (hne : ∀ d, d ≠ c → s'.thread d = s.thread d) : Sound s' := by
  refine ⟨h.tags.step hs, ?_, ?_, ?_⟩
  · intro l d md
    have hold : ∀ l md, (s.mem.lock l).Holds c md ↔
        (s.calls.thread c).lockHeld = some (l, md) := fun l md => by
      rw [h.locks l c md, State.calls_thread, hc]
      rfl
    have hmove := (h.tags.lock hs).holds hold l d md
    refine hmove.trans ?_
    by_cases hd : d = c
    · subst hd
      rw [if_pos rfl, hthread, holds_enter]
    · rw [if_neg hd, hne d hd]
      exact h.locks l d md
  · intro d t p hd
    by_cases hdc : d = c
    · subst hdc
      obtain ⟨rfl, -, hret⟩ := enter_eq_print (hthread.symm.trans hd)
      exact hret
    · rw [hne d hdc] at hd
      exact h.ended d t p hd
  · intro d t i hd
    by_cases hdc : d = c
    · subst hdc
      obtain ⟨-, hp, -⟩ := enter_eq_print (hthread.symm.trans hd)
      cases hp
    · rw [hne d hdc] at hd
      exact h.walks d t i hd

/-- A step of the walk keeps the invariant. -/
theorem Sound.step_print {t : Service.Thread} {p p' : PrintState} {m : Mem} (h : Sound s)
    (hc : s.thread c = .print t p) (hw : WalkStep c s.mem p.held m p'.held)
    (hskip : ∀ i, p' ≠ .skipEntry i) : Sound (s.set c m (.print t p')) := by
  have hcall : State.calls (s.set c m (.print t p')) = ⟨m, s.calls.thread⟩ := by
    rw [State.calls_set, Config.set]
    congr 1
    funext d
    by_cases hd : d = c
    · subst hd; simp [State.calls, hc, Thread.call]
    · exact Function.update_of_ne hd ..
  have hm := hw.frame
  refine ⟨?_, ?_, ?_, ?_⟩
  · rw [hcall, hm]
    exact ⟨⟨h.tags.bounds.tags, h.tags.bounds.entry⟩, h.tags.unborn, h.tags.tag⟩
  · intro l d md
    have hold : ∀ l md, (s.mem.lock l).Holds c md ↔ md = .read ∧ l ∈ p.held := fun l md => by
      rw [h.locks l c md, hc]
      rfl
    refine (hw.holds hold l d md).trans ?_
    by_cases hd : d = c
    · subst hd
      rw [if_pos rfl, Config.set_thread_self]
      rfl
    · rw [if_neg hd, Config.set_thread_of_ne _ _ _ _ hd]
      exact h.locks l d md
  · intro d u q hd
    by_cases hdc : d = c
    · subst hdc
      rw [Config.set_thread_self] at hd
      cases hd
      exact h.ended d t p hc
    · rw [Config.set_thread_of_ne _ _ _ _ hdc] at hd
      exact h.ended d u q hd
  · intro d u i hd
    by_cases hdc : d = c
    · subst hdc
      rw [Config.set_thread_self] at hd
      cases hd
      exact hskip i rfl
    · rw [Config.set_thread_of_ne _ _ _ _ hdc] at hd
      exact h.walks d u i hd

/-- A step keeps the locks and the points together.  The condition is needed at the interrupted
`tag_lock`, after which the walk releases a lock that it does not have. -/
theorem Sound.step (h : Sound s) (hspare : SparesWalk s c o) (hs : step audit s c o = some s') :
    Sound s' := by
  rcases step_cases hs with ⟨t, hc, hstep, hthread⟩ | ⟨t, p, m, p', hc, hx, rfl⟩
  · exact h.step_main hc hstep hthread fun d hd => thread_of_ne hs hd
  · obtain ⟨hw, hskip⟩ := printStep_walk hx (fun i hp => hspare t i (hp ▸ hc))
      fun i hp => h.walks c t i (hp ▸ hc)
    exact h.step_print hc hw hskip

end Step

/-! ## What is given back is held

By the invariant, and by the discipline, which lets an operation release only what its annotation
says is held. -/

section Balanced

variable {s : State} {c : CallId}

section Instr

variable {t : Service.Thread} {d : ℕ} {md : Mode} {n : LockName}

theorem Sound.holds_sem (h : Sound s) (hc : (s.thread c).call = t)
    (htag : t.ann.holdsTag = true → (s.mem.lock (.tag d)).Holds c .read) {l : Sem}
    (hl : (l, md) ∈ t.ann.held) (hn : semName d t.entry l = some n) : HoldsLock s.mem c n md := by
  subst hc
  cases l with
  | tag =>
    cases hn
    obtain rfl := Service.Thread.mode_of_tag hl
    exact htag (decide_eq_true hl)
  | level i =>
    obtain ⟨y, hy, rfl⟩ := Option.map_eq_some_iff.1 hn
    exact h.tags.holds_iff.2 ⟨hy, hl, Sem.noConfusion⟩
  | rcu a =>
    obtain ⟨y, hy, rfl⟩ := Option.map_eq_some_iff.1 hn
    exact h.tags.holds_iff.2 ⟨hy, hl, Sem.noConfusion⟩

/-- A lock that an instruction gives back is held, if the instruction obeys the discipline. -/
theorem Sound.holds_instr (h : Sound s) (hc : (s.thread c).call = t)
    (htag : t.ann.holdsTag = true → (s.mem.lock (.tag d)).Holds c .read) {π : Type}
    {ann : π → Ann} {i : Instr π} (hs : i.Sound ann t.ann)
    (hg : instrGives d t.entry i = some (n, md)) : HoldsLock s.mem c n md := by
  cases i
  case upRead l p =>
    obtain ⟨n, hn, heq⟩ := Option.map_eq_some_iff.1 hg
    cases heq
    exact h.holds_sem hc htag hs.1 hn
  case upWrite l p =>
    obtain ⟨n, hn, heq⟩ := Option.map_eq_some_iff.1 hg
    cases heq
    exact h.holds_sem hc htag hs.1 hn
  case unlockMutex a p =>
    obtain ⟨y, hy, heq⟩ := Option.map_eq_some_iff.1 hg
    cases heq
    subst hc
    exact ⟨rfl, h.tags.mutex_iff.2 ⟨hy, hs.1⟩⟩
  all_goals cases hg

end Instr

theorem Sound.gives (h : Sound s) {n : LockName} {md : Mode}
    (hg : gives s.mem (s.thread c) = some (n, md)) : HoldsLock s.mem c n md := by
  have hold : ∀ l md, (s.thread c).Holds l md → (s.mem.lock l).Holds c md :=
    fun l md => (h.locks l c md).2
  have htag : ∀ d (a : Ann), a.holdsTag = true → tagLock d a = some (.tag d, .read) :=
    fun d a ha => if_pos ha
  cases hc : s.thread c with
  | main t =>
    rw [hc] at hg hold
    have hcall : (s.thread c).call = t := by rw [hc]; rfl
    cases t with
    | get a x p => cases p <;> first | (cases hg; exact hold _ _ rfl) | cases hg
    | delete tag e x i p => cases p <;> first | (cases hg; exact hold _ _ rfl) | cases hg
    | user tag x t =>
      exact h.holds_instr hcall (fun ha => hold _ _ (htag _ _ ha)) (user_sound tag t) hg
    | read a x p =>
      exact h.holds_instr hcall (fun ha => hold _ _ (htag _ _ ha)) (read_sound a _ p) hg
  | print t p =>
    rw [hc] at hg hold
    cases p <;> first | (cases hg; exact hold _ _ ⟨rfl, by simp [PrintState.held]⟩) | cases hg

/-- A call that has returned holds nothing. -/
theorem Sound.holds_nothing (h : Sound s) (hret : (s.thread c).returned = true) (n : LockName)
    (md : Mode) : ¬ HoldsLock s.mem c n md := by
  have hcall : (s.thread c).call.returned = true := by
    cases hc : s.thread c with
    | main t => rwa [hc] at hret
    | print t p => exact h.ended c t p hc
  have hout : ∀ l, ¬ (s.mem.lock l).Holds c md := by
    intro l hl
    rw [h.locks l c md] at hl
    cases hc : s.thread c with
    | main t =>
      rw [hc] at hl hret
      rw [Thread.Holds, lockHeld_of_returned hret] at hl
      cases hl
    | print t p =>
      rw [hc] at hl hret
      obtain rfl : p = .done := of_decide_eq_true hret
      cases hl.2
  have hann : (s.calls.thread c).ann = {} := ann_of_returned hcall
  have hin : ∀ y l, ¬ ((s.mem.obj y).sem l).Holds c md := by
    intro y l hl
    have := (h.tags.holds_iff.1 hl).2.1
    rw [hann] at this
    cases this
  cases n with
  | common | tag d => exact hout _
  | level y i | rcu y a => exact hin y _
  | wMutex y a =>
    rintro ⟨-, hm⟩
    have := (h.tags.mutex_iff.1 hm).2
    rw [hann] at this
    cases this

end Balanced

/-- **Every call gives back exactly the locks it has taken**, as long as no acquisition in the
second loop of the walk is interrupted. -/
theorem balanced {audit : Bool} {s₀ s : State} (h0 : Init s₀)
    (h : Run (MovesWithin SparesWalk (step audit)) s₀ s) : Balanced s := by
  have hs : Sound s := h.invariant h0.sound fun s c t hs _ ⟨o, hspare, ho⟩ => hs.step hspare ho
  exact ⟨fun c l md => hs.gives, fun c => hs.holds_nothing⟩

/-- Without `AUDIT` nobody walks. -/
theorem balanced_unaudited {s₀ s : State} (h0 : Init s₀)
    (h : Run (Moves (step false)) s₀ s) : Balanced s := by
  have hs : Sound s ∧ ∀ c t p, s.thread c ≠ .print t p := by
    refine h.invariant (P := fun s => Sound s ∧ ∀ c t p, s.thread c ≠ .print t p)
      ⟨h0.sound, fun c t p hc => ?_⟩ fun s c s' hp _ hm => ?_
    · rw [h0.main c] at hc
      cases hc
    · obtain ⟨hs, hmain⟩ := hp
      obtain ⟨o, ho⟩ := hm
      refine ⟨hs.step (fun u i hc => absurd hc (hmain c u _)) ho, fun d u p hd => ?_⟩
      by_cases hdc : d = c
      · subst hdc
        rcases step_cases ho with ⟨v, -, -, hthread⟩ | ⟨v, q, -, -, hv, -, -⟩
        · rw [hthread] at hd
          cases hd
        · exact hmain d v q hv
      · rw [thread_of_ne ho hdc] at hd
        exact hmain d u p hd
  exact ⟨fun c l md => hs.1.gives, fun c => hs.1.holds_nothing⟩

/-! ## A second loop that is interrupted

When a `tag_lock` of the second loop is interrupted, the loop gives back `common_lock` and goes on;
the next interruption, or the end of the loop, gives it back once more. -/

/-- Run a schedule.  A call that cannot move is passed over. -/
abbrev State.after (s : State) (l : List (CallId × Outcome)) : State :=
  Conc.after (step true) s l

/-- With nobody in the way a tag of the first loop takes two operations. -/
theorem step_tag {s : State} {c : CallId} {t : Service.Thread} {i : ℕ}
    (hc : s.thread c = .print t (.lockTag i)) (hfree : s.mem.lock (.tag i) = .free) :
    ∃ u, step true s c .go = some u ∧
      step true u c .go = some (s.set c s.mem (.print t (.nextTag i))) := by
  refine ⟨s.set c (s.mem.setLock (.tag i) (.shared {c})) (.print t (.unlockTag i)), ?_, ?_⟩
  · simp [step, hc, printStep, hfree, RwSem.free, RwSem.downRead]
  · have hback : (s.mem.setLock (.tag i) (.shared {c})).setLock (.tag i) .free = s.mem := by
      rw [← hfree]
      simp [Mem.setLock]
    have hup : RwSem.upRead c (.shared {c}) = .free := by simp [RwSem.upRead, RwSem.free]
    simp only [step, Config.set_thread_self, Config.set_mem, printStep, Option.map_some,
      Config.set_set]
    rw [show (s.mem.setLock (.tag i) (.shared {c})).lock (.tag i) = .shared {c} from
      Function.update_self .., hup, hback]

/-- With nobody in the way the first loop leaves everything as it was. -/
theorem after_firstLoop {c : CallId} {t : Service.Thread} {k : ℕ} :
    ∀ {s : State} {i : ℕ}, i + (k + 1) = maxTags → s.thread c = .print t (.lockTag i) →
      (∀ d, s.mem.lock (.tag d) = .free) →
      s.after (goes c (2 * (k + 1))) = s.set c s.mem (.print t .lockCommon) := by
  induction k with
  | zero =>
    intro s i hi hc hfree
    obtain ⟨u, h1, h2⟩ := step_tag hc (hfree i)
    rw [PrintState.nextTag, if_neg (not_lt.2 hi.ge)] at h2
    simp [goes, List.replicate_succ, State.after, Conc.after, h1, h2]
  | succ k ih =>
    intro s i hi hc hfree
    obtain ⟨u, h1, h2⟩ := step_tag hc (hfree i)
    have hlt : i + 1 < maxTags := by omega
    rw [PrintState.nextTag, if_pos hlt] at h2
    have hrest := ih (s := s.set c s.mem (.print t (.lockTag (i + 1)))) (i := i + 1) (by omega)
      (Config.set_thread_self ..) hfree
    simp only [Config.set_mem, Config.set_set] at hrest
    rw [← hrest]
    simp [goes, List.replicate_succ, Nat.mul_succ, State.after, Conc.after, h1, h2]

/-- A creation (call 0), and the deletions of tag 0 and tag 1. -/
def printing : CallId → Thread
  | 0 => .main (.get ⟨5, Registry.tagCreat, Registry.tagPermAll, 0⟩ none .start)
  | d + 1 => .main (.delete d 0 none 0 .start)

/-- The module as it is loaded. -/
def start : State := ⟨Mem.initial, printing⟩

theorem start_init : Init start where
  calls := ⟨rfl, fun c => by cases c <;> rfl, fun c => by cases c <;> rfl⟩
  main c := by cases c <;> rfl

/-- The creation has come to its walk. -/
def created : State := start.after (goes 0 39)

/-- The creation as it is going to return. -/
def creation : Service.Thread :=
  .get ⟨5, Registry.tagCreat, Registry.tagPermAll, 0⟩ (some 0) (.done 0)

/-- The creation has been through the first loop. -/
def walked : State := created.set 0 created.mem (.print creation .lockCommon)

theorem sparesWalk_of_ne (s : State) (c : CallId) (o : Outcome) (h : (o != .signal) = true) :
    SparesWalk s c o := by
  rintro t i - rfl
  cases h

theorem created_run : Run (MovesWithin SparesWalk (step true)) start created :=
  within_after sparesWalk_of_ne (by decide +kernel)

theorem created_thread (c : CallId) :
    created.thread c = if c = 0 then .print creation (.lockTag 0) else printing c := by
  split
  · rename_i hc
    subst hc
    decide +kernel
  · rename_i hc
    have hcalls : ∀ x ∈ goes 0 39, c ≠ x.1 := fun x hx => by
      rw [(List.mem_replicate.1 hx).2]
      exact hc
    have hkeeps : ∀ x ∈ goes 0 39, ∀ s t : State, s.thread c = printing c →
        step true s x.1 x.2 = some t → t.thread c = printing c :=
      fun x hx s t hs ht => (thread_of_ne ht (hcalls x hx)).trans hs
    exact (after_keeps hkeeps (show start.thread c = printing c from rfl) :)

theorem created_free (d : ℕ) : created.mem.lock (.tag d) = .free := by
  have hs : Sound created := created_run.invariant start_init.sound
    fun s c t hs _ hm => by
      obtain ⟨o, hspare, ho⟩ := hm
      exact hs.step hspare ho
  refine RwSem.eq_free fun c md hl => ?_
  rw [hs.locks _ c md, created_thread c] at hl
  cases c with
  | zero => cases hl.2
  | succ c => cases hl

theorem walked_run : Run (MovesWithin SparesWalk (step true)) start walked := by
  have hwalk : created.after (goes 0 (2 * 256)) = walked :=
    after_firstLoop (k := 255) (i := 0) rfl (created_thread 0) created_free
  rw [← hwalk]
  exact created_run.trans (within_after sparesWalk_of_ne (by decide +kernel))

/-- The creation is in the first round of the second loop. -/
theorem balanced_walking :
    (walked.after (goes 0 2)).thread 0 = .print creation (.unlockEntry 0) ∧
      Balanced (walked.after (goes 0 2)) :=
  ⟨by decide +kernel, balanced start_init
    (walked_run.trans (within_after sparesWalk_of_ne (by decide +kernel)))⟩

/-- The deletions have the locks of tags 0 and 1 when the second loop comes to them, and a signal
is pending. -/
def interrupted : List (CallId × Outcome) :=
  goes 0 1 ++ goes 1 2 ++ goes 2 2 ++ [(0, .signal), (0, .go), (0, .signal)]

set_option maxRecDepth 5000 in
/-- `common_lock` is given back a second time. -/
theorem unbalanced : ¬ ∀ s₀ s, Init s₀ → Run (Moves (step true)) s₀ s → Balanced s := by
  intro h
  have hb : Balanced (walked.after interrupted) :=
    h start _ start_init ((run_of_within walked_run).trans (run_after walked interrupted))
  have hheld : HoldsLock (walked.after interrupted).mem 0 .common .read :=
    hb.gives 0 .common .read (by decide +kernel)
  have hfree : ¬ ((walked.after interrupted).mem.lock .common).Holds 0 .read := by
    decide +kernel
  exact hfree hheld

end TagAos.Service.Audit
