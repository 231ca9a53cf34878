import TagAos.Conc.WaitQueue
import TagAos.Service.Locks
import Mathlib.Data.Prod.Lex

/-!
# Calls that wait for a lock stand in line

In `TagAos.Service` an acquisition that cannot succeed is simply not performed.  Here the call gets
in line: it acquires the lock once nobody holds it in a mode that excludes it, and nobody stands
before it in line who wants it in such a mode.  So a reader waits behind a writer that waits, a
trylock does not get in line, and only a call in line is interrupted.

`HeldUp` says who stands in the way of an acquisition.  There is no order on the locks of the
module, but there is one on the waits: writers only ever wait for `common_lock` and `level_lock`,
their holders wait for at most an `rcu_lock`, and the writer of an `rcu_lock` does not wait
(`HeldUp.rank_lt`).
-/

set_option autoImplicit false

namespace TagAos.Service.Queue

open Conc
open Registry (Lock GetState DeleteState)

/-! ## Acquisitions

Which lock a call is about to take, and in which mode.  The trylock of a last receiver and that of a
deletion never wait, so they are no acquisitions in this sense. -/

/-- The lock that an instruction acquires, and how. -/
def instrTakes {π : Type} (d : ℕ) (x : Option TagAddr) (i : Instr π) : Option (LockName × Mode) :=
  i.acquires.bind fun r => (semName d x r.1).map fun n => (n, r.2)

/-- The lock that the next operation of a call acquires, and how.  A trylock does not count. -/
def takes (m : Mem) : Thread → Option (LockName × Mode)
  | .get _ _ .lockCreate | .get _ _ (.lockClear _) | .delete _ _ _ _ (.lockClear _) =>
    some (.common, .write)
  | .get _ _ .lockOpen => some (.common, .read)
  | .user tag x t => instrTakes tag.toNat x (userCode tag t)
  | .read a x p => instrTakes p.desc x (readCode a (m.entryOf x) p)
  | _ => none

/-- Where a call is does not depend on memory. -/
theorem takes_congr (m m' : Mem) (t : Thread) : takes m t = takes m' t := by
  cases t with
  | read a x p => cases p <;> rfl
  | get a x p | delete tag e x i p => cases p <;> rfl
  | user => rfl

/-! ## States and steps

The system is that of `TagAos.Service` with one more component, the lines.  A call whose acquisition
cannot succeed gets in line; while it stands there it does nothing else, unless a signal takes it
out. -/

/-- The calls, and for each lock those that stand in line for it. -/
structure State where
  calls : Service.State
  line : LockName → List (CallId × Mode)

/-- What a call does next. -/
inductive Event
  /-- The next operation; an acquisition if it has come to that. -/
  | op (o : Outcome)
  /-- Get in line. -/
  | wait
  /-- A trylock finds somebody in line. -/
  | crowded
  deriving DecidableEq

namespace State

/-- The lock that the next operation of a call acquires. -/
def takes (s : State) (c : CallId) : Option (LockName × Mode) :=
  Queue.takes s.calls.mem (s.calls.thread c)

/-- The call stands in line for `l`. -/
def inLine (s : State) (l : LockName) (c : CallId) : Bool := (s.line l).any fun x => x.1 = c

/-- Somebody stands in line before the call who excludes it. -/
def behind (s : State) (l : LockName) (md : Mode) (c : CallId) : Bool :=
  (ahead c (s.line l)).any fun x => md.conflicts x.2

/-- The calls have moved, and `c` stands no longer in line for `l`. -/
def leave (s : State) (l : LockName) (c : CallId) (t : Service.State) : State :=
  ⟨t, Function.update s.line l ((s.line l).filter fun x => x.1 ≠ c)⟩

/-- The call has got in line for `l`. -/
def enter (s : State) (l : LockName) (md : Mode) (c : CallId) : State :=
  ⟨s.calls, Function.update s.line l (s.line l ++ [(c, md)])⟩

end State

/-- One operation of the call `c`. -/
def step (s : State) (c : CallId) : Event → Option State
  | .op o =>
    match s.takes c with
    | none => (Service.step s.calls c o).map fun t => ⟨t, s.line⟩
    | some (l, md) =>
      if o = .signal then
        if s.inLine l c then (Service.step s.calls c o).map (s.leave l c) else none
      else if s.behind l md c then none
      else (Service.step s.calls c o).map (s.leave l c)
  | .wait =>
    match s.takes c with
    | none => none
    | some (l, md) =>
      if !s.inLine l c && (s.behind l md c || (Service.step s.calls c .go).isNone) then
        some (s.enter l md c)
      else none
  | .crowded =>
    match s.calls.thread c with
    -- the trylock of a receive is tried again, that of a deletion is not
    | .delete tag euid x i .tryLock =>
      if s.line (.tag tag.toNat) = [] then none
      else some ⟨s.calls.set c s.calls.mem (.delete tag euid x i (.done 0)), s.line⟩
    | _ => none

/-- Some operation of the call `c`. -/
def Step (s : State) (c : CallId) (s' : State) : Prop := Moves step s c s'

/-- The module has just been loaded, and no call has begun. -/
structure Init (s : State) : Prop where
  calls : Service.Init s.calls
  line : ∀ l, s.line l = []

/-- A state that some interleaving of some calls leads to. -/
def Reachable (s : State) : Prop := ∃ s₀, Init s₀ ∧ Run Step s₀ s

/-! ## Who waits for whom

The graph whose cycles would be deadlocks.  There are two reasons to wait, a holder and somebody
before one in line, and both of them count: a reader that stands behind a writer waits although the
lock is held by readers only. -/

/-- The next operation of `c` is an acquisition of `l`, and `d` stands in the way: it holds the lock
in a mode that excludes `c`, or stands before it in line and wants it in such a mode. -/
def HeldUp (s : State) (l : LockName) (c d : CallId) : Prop :=
  ∃ md md', s.takes c = some (l, md) ∧ md.conflicts md' = true ∧
    (HoldsLock s.calls.mem d l md' ∨ (d, md') ∈ ahead c (s.line l))

/-- The call `c` waits for `d`. -/
def WaitsFor (s : State) (c d : CallId) : Prop := ∃ l, HeldUp s l c d

/-- The lock belongs to the call: it holds it, or stands in line and nobody is in its way. -/
def Owns (s : State) (l : LockName) (c : CallId) : Prop :=
  (∃ md, HoldsLock s.calls.mem c l md) ∨ (s.takes c).map Prod.fst = some l ∧ s.inLine l c = true ∧
    ∀ d, ¬ WaitsFor s c d

/-- The call is a receive that sleeps until it is woken up. -/
def Asleep (s : State) (c : CallId) : Prop :=
  ∃ tag x a l, s.calls.thread c = .user tag x (.receive a (.sleep l))

/-- The call can perform its next operation, and no signal is needed for it. -/
def CanGo (s : State) (c : CallId) : Prop := ∃ o s', o ≠ .signal ∧ step s c (.op o) = some s'

/-- Nobody waits for ever. -/
structure Live (s : State) : Prop where
  /-- No call waits for itself. -/
  acyclic : ∀ c, ¬ Relation.TransGen (WaitsFor s) c c
  /-- No call waits for one that sleeps. -/
  awake : ∀ c d, Relation.TransGen (WaitsFor s) c d → ¬ Asleep s d
  /-- Whoever waits, the lock that it or somebody before it waits for belongs to a call that can
  go on. -/
  progress : ∀ c d, WaitsFor s c d → ∃ e f l, Relation.ReflTransGen (WaitsFor s) c e ∧
    HeldUp s l e f ∧ Owns s l f ∧ CanGo s f

/-! ## Who takes what, holding what

The order of the locks is a consequence of the code: what a call takes at a point, together with
what it is annotated to hold there.  Nothing about an order is assumed. -/

section Instr

variable {π : Type} {ann : π → Ann} {a : Ann} {i : Instr π} {d : ℕ} {x : Option TagAddr}

/-- What a call waits for: only `common_lock` and a `level_lock` are taken for writing. -/
inductive Takes (x : Option TagAddr) : LockName → Mode → Prop
  | common {md : Mode} : Takes x .common md
  | tag {d : ℕ} : Takes x (.tag d) .read
  | level {y : TagAddr} {i : ℕ} {md : Mode} (hx : x = some y) : Takes x (.level y i) md
  | rcu {y : TagAddr} {l : Addr} (hx : x = some y) : Takes x (.rcu y l) .read

theorem Takes.of_instr (hs : i.Sound ann a)
    (htag : ∀ p md, (.tag, md) ∈ (ann p).held → md = .read) {l : LockName} {md : Mode}
    (h : instrTakes d x i = some (l, md)) : Takes x l md := by
  obtain ⟨⟨sem, md₀⟩, hacq, h⟩ := Option.bind_eq_some_iff.1 h
  obtain ⟨n, hn, heq⟩ := Option.map_eq_some_iff.1 h
  cases heq
  cases i
  case downRead sem ok intr =>
    cases hacq
    cases sem with
    | tag => cases hn; exact .tag
    | level j => obtain ⟨y, hy, rfl⟩ := Option.map_eq_some_iff.1 hn; exact .level hy
    | rcu b => obtain ⟨y, hy, rfl⟩ := Option.map_eq_some_iff.1 hn; exact .rcu hy
  case downWrite sem ok intr =>
    cases hacq
    cases sem with
    | tag =>
      have hheld : (.tag, .write) ∈ (ann ok).held := by
        rw [hs.2.2.1.held]
        exact List.mem_cons_self ..
      cases htag ok _ hheld
    | level j => obtain ⟨y, hy, rfl⟩ := Option.map_eq_some_iff.1 hn; exact .level hy
    | rcu b => exact absurd rfl (hs.2.1 b)
  all_goals cases hacq

theorem acquires_eq_none {y : TagAddr} (h : instrTakes d (some y) i = none) :
    i.acquires = none := by
  cases ha : i.acquires with
  | none => rfl
  | some r =>
    obtain ⟨l, md⟩ := r
    rw [instrTakes, ha] at h
    cases l <;> cases h

/-- An instruction that acquires no lock and does not sleep can be performed. -/
theorem execOn_isSome (c : CallId) (m : Mem) (hs : i.Sound ann a)
    (htag : ∀ p md, (.tag, md) ∈ (ann p).held → md = .read)
    (htag' : ∀ md, (.tag, md) ∈ a.held → md = .read) {y : TagAddr} (ha : i.acquires = none)
    (hstop : i.stops = false) :
    ∃ o, o ≠ .signal ∧ (execOn c m d (some y) i o).isSome = true := by
  cases hi : inTag i with
  | true =>
    obtain ⟨o, ho, hsome⟩ := Instr.exec_isSome c (m.obj y) ha hstop
    refine ⟨o, ho, ?_⟩
    rw [execOn_of_inTag hi]
    simpa using hsome
  | false =>
    refine ⟨.go, by simp, ?_⟩
    cases i
    case jump => rfl
    case loadTags null found =>
      rw [execOn]
      split <;> rfl
    case upRead l p =>
      cases l with
      | tag => rfl
      | level | rcu => cases hi
    case downRead | downWrite => cases ha
    case tryWrite l ok busy =>
      cases l with
      | tag =>
        have hheld : (.tag, .write) ∈ (ann ok).held := by
          rw [hs.2.2.2.1.held]
          exact List.mem_cons_self ..
        cases htag ok _ hheld
      | level | rcu => cases hi
    case upWrite l p =>
      cases l with
      | tag => cases htag' _ hs.1
      | level | rcu => cases hi
    case ret => cases hstop
    all_goals cases hi

/-- An acquisition that nobody stands in the way of succeeds. -/
theorem execOn_isSome_of_takes (c : CallId) {m : Mem} {l : LockName} {md : Mode}
    (h : instrTakes d x i = some (l, md)) (ht : Takes x l md)
    (hfree : ∀ e md', HoldsLock m e l md' → md.conflicts md' = false) :
    (execOn c m d x i .go).isSome = true := by
  obtain ⟨⟨sem, md₀⟩, hacq, h⟩ := Option.bind_eq_some_iff.1 h
  obtain ⟨n, hn, heq⟩ := Option.map_eq_some_iff.1 h
  cases heq
  cases i
  case downRead sem ok intr =>
    cases hacq
    cases sem with
    | tag =>
      cases hn
      obtain ⟨s, hs⟩ := RwSem.exists_downRead (c := c) hfree
      simp [execOn, hs]
    | level j =>
      obtain ⟨y, rfl, rfl⟩ := Option.map_eq_some_iff.1 hn
      obtain ⟨s, hs⟩ := RwSem.exists_downRead (c := c) hfree
      simp [execOn, inTag, exec, hs]
    | rcu b =>
      obtain ⟨y, rfl, rfl⟩ := Option.map_eq_some_iff.1 hn
      obtain ⟨s, hs⟩ := RwSem.exists_downRead (c := c) hfree
      simp [execOn, inTag, exec, hs]
  case downWrite sem ok intr =>
    cases hacq
    cases sem with
    | tag => cases hn; cases ht
    | level j =>
      obtain ⟨y, rfl, rfl⟩ := Option.map_eq_some_iff.1 hn
      obtain ⟨s, hs⟩ := RwSem.exists_downWrite (c := c) hfree
      simp [execOn, inTag, exec, hs]
    | rcu b =>
      obtain ⟨y, rfl, rfl⟩ := Option.map_eq_some_iff.1 hn
      obtain ⟨s, hs⟩ := RwSem.exists_downWrite (c := c) hfree
      simp [execOn, inTag, exec, hs]
  all_goals cases hacq

end Instr

theorem takes_cases {m : Mem} {t : Thread} {l : LockName} {md : Mode}
    (h : takes m t = some (l, md)) : Takes t.entry l md := by
  cases t with
  | get a x p => cases p <;> first | (cases h; exact .common) | cases h
  | delete tag e x i p => cases p <;> first | (cases h; exact .common) | cases h
  | user tag x t =>
    exact .of_instr (user_sound tag t)
      (fun t md ht => Thread.mode_of_tag (t := .user tag x t) ht) h
  | read a x p =>
    exact .of_instr (read_sound a _ p) (fun p md hp => Thread.mode_of_tag (t := .read a x p) hp) h

theorem takes_of_common {m : Mem} {t : Thread} {md : Mode}
    (h : t.lockHeld = some (.common, md)) : takes m t = none := by
  cases t with
  | get a x p => cases p <;> first | rfl | cases h
  | delete tag e x i p => cases p <;> first | rfl | cases h
  | user | read =>
    rw [Thread.lockHeld, tagLock] at h
    split at h <;> cases h

theorem takes_of_tag {m : Mem} {t : Thread} {d : ℕ}
    (h : t.lockHeld = some (.tag d, .write)) : takes m t = none := by
  cases t with
  | get a x p => cases p <;> first | rfl | cases h
  | delete tag e x i p => cases p <;> first | rfl | cases h
  | user | read =>
    rw [Thread.lockHeld, tagLock] at h
    split at h <;> cases h

/-- The code of a call that holds something is that of its call. -/
theorem userCode_of_rest {tag : ℤ} {t : TagAos.Thread} (h : 0 < t.rest) :
    userCode tag t = t.code := by
  have hin := TagAos.Thread.inFlight_of_rest h
  rw [TagAos.Thread.inFlight, Bool.and_eq_true, Bool.not_eq_true'] at hin
  rw [userCode, hin.1]
  rfl

/-- A holder of a `level_lock` waits for an `rcu_lock` at most. -/
theorem takes_of_level {m : Mem} {t : Thread} {i : ℕ} {md : Mode}
    (h : (.level i, md) ∈ t.ann.held) :
    takes m t = none ∨ ∃ y l md', takes m t = some (.rcu y l, md') := by
  cases t with
  | get | delete => cases h
  | user tag x t =>
    obtain ⟨hrest, hlevel⟩ := TagAos.Thread.rest_of_level h
    rw [takes, instrTakes, userCode_of_rest hrest]
    rcases (TagAos.Thread.rest_code hrest).2 with ha | ⟨l, ha⟩ | ⟨j, ha⟩
    · rw [ha]
      exact .inl rfl
    · rw [ha]
      cases x with
      | none => exact .inl rfl
      | some y => exact .inr ⟨y, l, _, rfl⟩
    · exact absurd ha (hlevel j _)
  | read a x p =>
    cases p
    case lockRcu v l =>
      cases x with
      | none => exact .inl rfl
      | some y => exact .inr ⟨y, l, _, rfl⟩
    all_goals first
      | exact .inl rfl
      | simp [Thread.ann, ReadState.ann] at h

/-- The writer of an `rcu_lock` does not wait. -/
theorem takes_of_rcu {m : Mem} {t : Thread} {l : Addr} (h : (.rcu l, .write) ∈ t.ann.held) :
    takes m t = none := by
  cases t with
  | get | delete => cases h
  | user tag x t =>
    obtain ⟨hrest, ha⟩ := TagAos.Thread.rest_of_rcu_write h
    rw [takes, instrTakes, userCode_of_rest hrest, ha]
    rfl
  | read a x p => cases p <;> simp [Thread.ann, ReadState.ann] at h

/-! ## The invariant

Who stands in line really is about to take the lock, and stands there once.  With the invariants of
the service this is all that is needed about the lines. -/

/-- The invariants of the service, and who stands in line. -/
structure Sound (s : State) : Prop where
  tags : Disciplined s.calls
  locks : LocksHeld s.calls
  /-- Who stands in line is about to acquire the lock. -/
  line : ∀ l c md, (c, md) ∈ s.line l → s.takes c = some (l, md)

/-! ## Waits go down

The rank of a call is first what kind of lock it waits for, and then its place in line.  A holder
that waits itself waits for a lock further down, and who stands before another has the lower place;
so the rank goes down along every wait, and there are no cycles (`acyclic_of_rank`). -/

section Rank

variable {s : State} {l : LockName} {c d : CallId} {md : Mode}

/-- How far from the end of the waits an acquisition can be. -/
def height : Option (LockName × Mode) → ℕ
  | none => 0
  | some (.rcu _ _, _) => 1
  | some _ => 2

/-- How many stand in line before the call. -/
def State.place (s : State) (c : CallId) : ℕ :=
  match s.takes c with
  | none => 0
  | some (l, _) => (ahead c (s.line l)).length

/-- The rank of a call: what it waits for, then its place in line. -/
def State.rank (s : State) (c : CallId) : ℕ ×ₗ ℕ := toLex (height (s.takes c), s.place c)

/-- The holder of a lock that is in somebody's way. -/
theorem Sound.height_lt (h : Sound s) {md' : Mode} (hc : s.takes c = some (l, md))
    (hconf : md.conflicts md' = true) (hd : HoldsLock s.calls.mem d l md') :
    height (s.takes d) < height (s.takes c) := by
  rw [hc]
  cases takes_cases hc with
  | common =>
    rw [State.takes, takes_of_common ((h.locks _ d md').1 hd)]
    exact Nat.two_pos
  | tag =>
    obtain rfl : md' = .write := by cases md' <;> first | rfl | cases hconf
    rw [State.takes, takes_of_tag ((h.locks _ d .write).1 hd)]
    exact Nat.two_pos
  | @level y i md hx =>
    rcases takes_of_level (m := s.calls.mem) (h.tags.holds_iff.1 hd).2.1 with ht | ⟨y, l, md', ht⟩
    · rw [State.takes, ht]
      exact Nat.two_pos
    · rw [State.takes, ht]
      exact Nat.one_lt_two
  | rcu =>
    obtain rfl : md' = .write := by cases md' <;> first | rfl | cases hconf
    rw [State.takes, takes_of_rcu (h.tags.holds_iff.1 hd).2.1]
    exact Nat.one_pos

/-- **Whoever stands in the way of an acquisition has a lower rank.** -/
theorem HeldUp.rank_lt (h : Sound s) (hu : HeldUp s l c d) : s.rank d < s.rank c := by
  obtain ⟨md, md', hc, hconf, hd | hd⟩ := hu
  · exact Prod.Lex.toLex_lt_toLex.2 (.inl (h.height_lt hc hconf hd))
  · have htakes : s.takes d = some (l, md') := h.line l d md' (mem_of_mem_ahead hd)
    refine Prod.Lex.toLex_lt_toLex.2 (.inr ⟨?_, ?_⟩)
    · rw [hc, htakes]
      cases l <;> rfl
    · simp only [State.place, hc, htakes]
      exact length_ahead_lt hd

theorem WaitsFor.rank_lt (h : Sound s) (c d : CallId) (hw : WaitsFor s c d) :
    s.rank d < s.rank c := by
  obtain ⟨l, hu⟩ := hw
  exact hu.rank_lt h

/-- Nobody waits for a receive that sleeps. -/
theorem HeldUp.not_asleep (h : Sound s) (hu : HeldUp s l c d) : ¬ Asleep s d := by
  rintro ⟨tag, x, a, b, hsleep⟩
  obtain ⟨md, md', hc, hconf, hd | hd⟩ := hu
  · have hheld : (s.calls.thread d).ann.held = [(.rcu b, .read), (.tag, .read)] := by
      rw [hsleep]
      rfl
    cases takes_cases hc with
    | common =>
      have := (h.locks _ d md').1 hd
      rw [hsleep] at this
      cases this
    | tag =>
      have := (h.locks _ d md').1 hd
      rw [hsleep] at this
      cases this
      cases hconf
    | level =>
      have := (h.tags.holds_iff.1 hd).2.1
      rw [hheld] at this
      simp at this
    | @rcu y f =>
      have := (h.tags.holds_iff.1 hd).2.1
      rw [hheld] at this
      obtain ⟨-, rfl⟩ : f = b ∧ md' = .read := by simpa using this
      cases hconf
  · have htakes := h.line l d md' (mem_of_mem_ahead hd)
    rw [State.takes, hsleep] at htakes
    cases htakes

end Rank

/-! ## Somebody can go on

At the end of the waits there is a call that is not kept waiting.  It remains to see that it can
perform its next operation, whatever that is. -/

section Progress

variable {s : State} {l : LockName} {c d : CallId} {md : Mode}

theorem canGo_of_isSome (h : s.takes c = none)
    (hstep : ∃ o, o ≠ .signal ∧ (Service.step s.calls c o).isSome = true) : CanGo s c := by
  obtain ⟨o, ho, hsome⟩ := hstep
  obtain ⟨t, ht⟩ := Option.isSome_iff_exists.1 hsome
  exact ⟨o, ⟨t, s.line⟩, ho, by simp [step, h, ht]⟩

/-- A call that holds `common_lock`, or writes a `tag_lock`, is never kept waiting. -/
theorem step_isSome_of_lockHeld {s : Service.State} {l : Lock}
    (h : (s.thread c).lockHeld = some (l, md)) (htag : ∀ d, l = .tag d → md = .write) :
    ∃ o, o ≠ .signal ∧ (Service.step s c o).isSome = true := by
  refine ⟨.go, by simp, ?_⟩
  cases hc : s.thread c with
  | get a x p =>
    rw [hc] at h
    cases p
    case reserve | clearCommon | unlockClear | loadTag | unlockOpen =>
      simp [Service.step, hc, getStep, registryOutcome, Registry.getStep]
    case unlockCreate r =>
      cases r <;> simp [Service.step, hc, getStep, registryOutcome, Registry.getStep]
    case lookup =>
      simp only [Service.step, hc, getStep, registryOutcome, Registry.getStep, Option.isSome_map,
        Option.bind_some]
      split <;> rfl
    all_goals cases h
  | delete tag e x i p =>
    rw [hc] at h
    cases p
    case loadTag =>
      simp only [Service.step, hc, deleteStep, Option.isSome_map]
      split <;> rfl
    case checkPerm | unlockTag | unlockError | clearCommon | unlockClear =>
      simp [Service.step, hc, deleteStep, registryOutcome, Registry.deleteStep]
    case clearTag => simp [Service.step, hc, deleteStep]
    all_goals cases h
  | user tag x t =>
    rw [hc, Thread.lockHeld, tagLock] at h
    split at h <;> cases h
    cases htag _ rfl
  | read a x p =>
    rw [hc, Thread.lockHeld, tagLock] at h
    split at h <;> cases h
    cases htag _ rfl

theorem stops_cases {t : TagAos.Thread} (h : t.code.stops = true) :
    (∃ a l, t = .receive a (.sleep l)) ∨ t.returned = true := by
  cases t with
  | receive a p =>
    cases p
    case sleep l => exact .inl ⟨a, l, rfl⟩
    case done r => exact .inr rfl
    case start =>
      simp only [TagAos.Thread.code, receiveCode] at h
      split at h <;> cases h
    case release rel r => cases rel <;> cases h
    all_goals cases h
  | send b p =>
    cases p
    case done => exact .inr rfl
    case start =>
      simp only [TagAos.Thread.code, sendCode] at h
      split at h <;> cases h
    all_goals cases h
  | awake e p =>
    cases p
    case done => exact .inr rfl
    all_goals cases h

/-- A call that holds a lock inside of its tag, and neither waits nor sleeps, can go on. -/
theorem step_isSome_of_held {s : Service.State} {y : TagAddr} {sem : Sem}
    (hx : (s.thread c).entry = some y) (h : (sem, md) ∈ (s.thread c).ann.held)
    (htakes : takes s.mem (s.thread c) = none)
    (hsleep : ∀ tag x a l, s.thread c ≠ .user tag x (.receive a (.sleep l))) :
    ∃ o, o ≠ .signal ∧ (Service.step s c o).isSome = true := by
  have htag : ∀ md, (.tag, md) ∈ (s.thread c).ann.held → md = .read :=
    fun _ => Thread.mode_of_tag
  cases hc : s.thread c with
  | get | delete => rw [hc] at h; cases h
  | user tag x t =>
    rw [hc] at hx h htakes htag
    obtain rfl : x = some y := hx
    have hidle : t.idle = false := by
      rw [Bool.eq_false_iff]
      intro hidle
      rw [show (Thread.user tag (some y) t).ann = {} from TagAos.Thread.ann_of_idle hidle] at h
      cases h
    have hcode : userCode tag t = t.code := by
      rw [userCode, hidle]
      rfl
    have hstop : (userCode tag t).stops = false := by
      rw [Bool.eq_false_iff, hcode]
      intro hstop
      rcases stops_cases hstop with ⟨a, l, rfl⟩ | hret
      · exact hsleep _ _ _ _ hc
      · rw [show (Thread.user tag (some y) t).ann = {} from TagAos.Thread.ann_of_returned hret] at h
        cases h
    obtain ⟨o, ho, hsome⟩ := execOn_isSome (d := tag.toNat) (y := y) c s.mem (user_sound tag t)
      (fun t md ht => Thread.mode_of_tag (t := .user tag none t) ht) htag (acquires_eq_none htakes)
      hstop
    exact ⟨o, ho, by simpa [Service.step, hc] using hsome⟩
  | read a x p =>
    rw [hc] at hx h htakes htag
    obtain rfl : x = some y := hx
    have hstop : (readCode a (s.mem.entryOf (some y)) p).stops = false := by
      cases p <;> first | rfl | cases h
    obtain ⟨o, ho, hsome⟩ := execOn_isSome (d := p.desc) (y := y) c s.mem
      (read_sound a (s.mem.entryOf (some y)) p)
      (fun p md hp => Thread.mode_of_tag (t := .read a none p) hp) htag
      (acquires_eq_none htakes) hstop
    refine ⟨o, ho, ?_⟩
    simp only [Service.step, hc, readStep, Option.isSome_map]
    split
    · rfl
    · exact hsome

/-- An acquisition that nobody stands in the way of succeeds. -/
theorem step_isSome_of_takes {s : Service.State} (h : takes s.mem (s.thread c) = some (l, md))
    (hfree : ∀ e md', HoldsLock s.mem e l md' → md.conflicts md' = false) :
    (Service.step s c .go).isSome = true := by
  cases hc : s.thread c with
  | get a x p =>
    rw [hc] at h
    cases p
    case lockCreate | lockClear =>
      cases h
      obtain ⟨t, ht⟩ := RwSem.exists_downWrite (c := c) (s := s.mem.lock .common) hfree
      simp [Service.step, hc, getStep, registryOutcome, Registry.getStep, Registry.Mem.downWrite,
        Mem.registry, ht]
    case lockOpen =>
      cases h
      obtain ⟨t, ht⟩ := RwSem.exists_downRead (c := c) (s := s.mem.lock .common) hfree
      simp [Service.step, hc, getStep, registryOutcome, Registry.getStep, Registry.Mem.downRead,
        Mem.registry, ht]
    all_goals cases h
  | delete tag e x i p =>
    rw [hc] at h
    cases p
    case lockClear =>
      cases h
      obtain ⟨t, ht⟩ := RwSem.exists_downWrite (c := c) (s := s.mem.lock .common) hfree
      simp [Service.step, hc, deleteStep, registryOutcome, Registry.deleteStep,
        Registry.Mem.downWrite, Mem.registry, ht]
    all_goals cases h
  | user tag x t =>
    rw [hc] at h
    simp only [Service.step, hc, Option.isSome_map]
    exact execOn_isSome_of_takes c h (takes_cases h) hfree
  | read a x p =>
    rw [hc] at h
    have hfails : readFails a p .go = none := by cases p <;> rfl
    simp only [Service.step, hc, readStep, hfails, Option.isSome_map]
    exact execOn_isSome_of_takes c h (takes_cases h) hfree

/-- A call whose acquisition nobody stands in the way of can go on. -/
theorem canGo_of_takes (hc : s.takes c = some (l, md)) (hfree : ∀ d, ¬ WaitsFor s c d) :
    CanGo s c := by
  have hbehind : s.behind l md c = false := by
    rw [State.behind, List.any_eq_false]
    exact fun x hx hconf => hfree x.1 ⟨l, md, x.2, hc, hconf, .inr hx⟩
  have hsome : (Service.step s.calls c .go).isSome = true := by
    refine step_isSome_of_takes hc fun e md' he => ?_
    rw [Bool.eq_false_iff]
    exact fun hconf => hfree e ⟨l, md, md', hc, hconf, .inl he⟩
  obtain ⟨t, ht⟩ := Option.isSome_iff_exists.1 hsome
  exact ⟨.go, s.leave l c t, by simp, by simp [step, hc, hbehind, ht]⟩

/-- Who stands in the way of somebody and does not wait owns the lock, and can go on. -/
theorem HeldUp.canGo (h : Sound s) (hu : HeldUp s l c d) (hfree : ∀ e, ¬ WaitsFor s d e) :
    Owns s l d ∧ CanGo s d := by
  have hawake : ∀ tag x a b, s.calls.thread d ≠ .user tag x (.receive a (.sleep b)) :=
    fun tag x a b hd => hu.not_asleep h ⟨tag, x, a, b, hd⟩
  obtain ⟨md, md', hc, hconf, hd | hd⟩ := hu
  · refine ⟨.inl ⟨md', hd⟩, ?_⟩
    cases htakes : s.takes d with
    | some r => exact canGo_of_takes htakes hfree
    | none =>
      refine canGo_of_isSome htakes ?_
      cases takes_cases hc with
      | common =>
        exact step_isSome_of_lockHeld ((h.locks _ d md').1 hd) fun _ ht => by cases ht
      | tag =>
        refine step_isSome_of_lockHeld ((h.locks _ d md').1 hd) fun _ _ => ?_
        cases md' <;> first | rfl | cases hconf
      | level | rcu =>
        obtain ⟨hx, hheld, -⟩ := h.tags.holds_iff.1 hd
        exact step_isSome_of_held hx hheld htakes hawake
  · have hmem := mem_of_mem_ahead hd
    have htakes : s.takes d = some (l, md') := h.line l d md' hmem
    refine ⟨.inr ⟨by rw [htakes]; rfl, ?_, hfree⟩, canGo_of_takes htakes hfree⟩
    exact List.any_eq_true.2 ⟨_, hmem, decide_eq_true rfl⟩

theorem Sound.live (h : Sound s) : Live s where
  acyclic := acyclic_of_rank (WaitsFor.rank_lt h)
  awake c d hcd := by
    obtain ⟨e, -, l, hu⟩ := Relation.TransGen.tail'_iff.1 hcd
    exact hu.not_asleep h
  progress c d hcd := by
    obtain ⟨e, f, hce, ⟨l, hu⟩, hf⟩ := exists_end_of_rank (WaitsFor.rank_lt h) hcd
    exact ⟨e, f, l, hce, hu, hu.canGo h hf⟩

end Progress

/-! ## Every reachable state

The invariant is kept by every step of the queues, and the three parts of `Live` follow from it. -/

section Step

variable {s s' : State} {c : CallId}

/-- The ways a call can move. -/
inductive QueueStep (s : State) (c : CallId) : State → Prop
  /-- An operation that acquires nothing. -/
  | op {t : Service.State} (hc : s.takes c = none) (h : Service.Step s.calls c t) :
      QueueStep s c ⟨t, s.line⟩
  /-- An acquisition, or its interruption. -/
  | leave {l : LockName} {md : Mode} {t : Service.State} (hc : s.takes c = some (l, md))
      (h : Service.Step s.calls c t) : QueueStep s c (s.leave l c t)
  | enter {l : LockName} {md : Mode} (hc : s.takes c = some (l, md)) :
      QueueStep s c (s.enter l md c)
  | crowded {tag : ℤ} {euid i : ℕ} {x : Option TagAddr}
      (hc : s.calls.thread c = .delete tag euid x i .tryLock) :
      QueueStep s c ⟨s.calls.set c s.calls.mem (.delete tag euid x i (.done 0)), s.line⟩

theorem QueueStep.of_step (hs : Step s c s') : QueueStep s c s' := by
  obtain ⟨e, he⟩ := hs
  cases e with
  | op o =>
    simp only [step] at he
    split at he
    · rename_i hc
      obtain ⟨t, ht, rfl⟩ := Option.map_eq_some_iff.1 he
      exact .op hc ⟨o, ht⟩
    · rename_i l md hc
      split_ifs at he
      all_goals
        obtain ⟨t, ht, rfl⟩ := Option.map_eq_some_iff.1 he
        exact .leave hc ⟨o, ht⟩
  | wait =>
    simp only [step] at he
    split at he
    · cases he
    · rename_i l md hc
      split_ifs at he
      cases he
      exact .enter hc
  | crowded =>
    simp only [step] at he
    split at he
    · rename_i hc
      split_ifs at he
      cases he
      exact .crowded hc
    · cases he

theorem takes_of_thread {l' : LockName → List (CallId × Mode)} {t : Service.State}
    {d : CallId} (h : t.thread d = s.calls.thread d) : State.takes ⟨t, l'⟩ d = s.takes d := by
  rw [State.takes, State.takes, h]
  exact takes_congr _ _ _

theorem Init.sound (h : Init s) : Sound s where
  tags := h.calls.disciplined
  locks := h.calls.locks
  line l c md hm := by
    rw [h.line l] at hm
    cases hm

theorem Sound.step (h : Sound s) (hs : Step s c s') : Sound s' := by
  cases QueueStep.of_step hs with
  | op hc hstep =>
    refine ⟨h.tags.step hstep, h.locks.step h.tags hstep, fun l d md hd => ?_⟩
    have hdc : d ≠ c := by
      rintro rfl
      rw [h.line l d md hd] at hc
      cases hc
    rw [takes_of_thread (hstep.thread_of_ne hdc)]
    exact h.line l d md hd
  | @leave l₀ md₀ t hc hstep =>
    refine ⟨h.tags.step hstep, h.locks.step h.tags hstep, fun l d md hd => ?_⟩
    have hmem : (d, md) ∈ s.line l ∧ d ≠ c := by
      simp only [State.leave] at hd
      by_cases hl : l = l₀
      · subst hl
        simpa using hd
      · rw [Function.update_of_ne hl] at hd
        refine ⟨hd, ?_⟩
        rintro rfl
        have := h.line l d md hd
        rw [hc] at this
        cases this
        exact hl rfl
    rw [State.leave, takes_of_thread (hstep.thread_of_ne hmem.2)]
    exact h.line l d md hmem.1
  | @enter l₀ md₀ hc =>
    refine ⟨h.tags, h.locks, fun l d md hd => ?_⟩
    rw [State.enter, takes_of_thread rfl]
    simp only [State.enter] at hd
    by_cases hl : l = l₀
    · subst hl
      rw [Function.update_self, List.mem_append, List.mem_singleton] at hd
      rcases hd with hd | hd
      · exact h.line l d md hd
      · cases hd
        exact hc
    · rw [Function.update_of_ne hl] at hd
      exact h.line l d md hd
  | crowded hc =>
    refine ⟨h.tags.set ?_ ?_, h.locks.set ?_, fun l d md hd => ?_⟩
    · rw [hc]; rfl
    · rw [hc]; rfl
    · rw [hc]; rfl
    · have hdc : d ≠ c := by
        rintro rfl
        have := h.line l d md hd
        rw [State.takes, hc] at this
        cases this
      rw [takes_of_thread (Config.set_thread_of_ne _ _ _ _ hdc)]
      exact h.line l d md hd

theorem Reachable.sound (h : Reachable s) : Sound s := by
  obtain ⟨s₀, h0, hr⟩ := h
  exact hr.invariant h0.sound fun _ _ _ hp _ hs => hp.step hs

/-- **Blocking locks do not deadlock, and nobody waits for a receive that sleeps.** -/
theorem no_deadlock (h : Reachable s) : Live s := h.sound.live

end Step

/-- Two creations. -/
def creations : Service.State :=
  .start fun c => .get ⟨c + 1, Registry.tagCreat, Registry.tagPermAll, 0⟩ none .start

/-- Call 0 has `common_lock`, and call 1 has got in line for it. -/
def waiting : State :=
  after step ⟨creations, fun _ => []⟩ [(0, .op .go), (0, .op .go), (1, .op .go), (1, .wait)]

theorem no_deadlock_waiting :
    (waiting.line .common = [(1, .write)] ∧ WaitsFor waiting 1 0) ∧ Live waiting := by
  refine ⟨⟨by decide +kernel, .common, .write, .write, by decide +kernel, rfl, .inl ?_⟩, ?_⟩
  · have hheld : (waiting.calls.mem.lock .common).Holds 0 .write := by decide +kernel
    exact hheld
  · exact no_deadlock ⟨_, ⟨⟨rfl, fun _ => rfl, fun _ => rfl⟩, fun _ => rfl⟩, run_after _ _⟩

end TagAos.Service.Queue
