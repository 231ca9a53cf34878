import TagAos.Conc.Schedule
import TagAos.Tag.Exec
import TagAos.Tag.Receive
import TagAos.Tag.Send

/-!
# A tag shared by any number of calls

A state is the memory of the tag and the point each call has reached.  Calls are named by natural
numbers and there is no bound on how many are in flight; a call that has not begun is at its first
point.  `step` moves one call by one operation, so every interleaving of the calls is a run.

The tag is taken as `tag_get` leaves it (`Mem.fresh`), and is not deleted.
-/

set_option autoImplicit false

namespace TagAos

open Conc

/-! ## Calls

The three kinds of calls on a tag, in one type.  `tag_ctl(TAG_DELETE)` is not among them: it does
not work on a tag that is in use (`TagAos.Service`). -/

/-- A call on the tag: its arguments and the point it is at. -/
inductive Thread
  | receive (a : ReceiveArgs) (p : ReceiveState)
  | send (b : SendArgs) (p : SendState)
  | awake (euid : ℕ) (p : AwakeState)
  deriving DecidableEq, Repr

namespace Thread

/-- The next operation of a call. -/
def code : Thread → Instr Thread
  | receive a p => (receiveCode a p).map (receive a)
  | send b p => (sendCode b p).map (send b)
  | awake e p => (awakeCode e p).map (awake e)

/-- The call has not begun. -/
def idle : Thread → Bool
  | receive _ .start | send _ .start | awake _ .start => true
  | _ => false

/-- The call has returned. -/
def returned : Thread → Bool
  | receive _ (.done _) | send _ (.done _) | awake _ (.done _) => true
  | _ => false

/-- The call has begun and has not returned. -/
def inFlight (t : Thread) : Bool := !t.idle && !t.returned

end Thread

/-! ## States and steps

A step performs one instruction of one call, with an outcome that the environment chooses.  Nothing
is assumed about the order in which calls move. -/

/-- The memory of the tag and the point each call is at. -/
abbrev State := Config CallId Mem Thread

/-- One operation of the call `c`. -/
def step (s : State) (c : CallId) (o : Outcome) : Option State :=
  (exec c s.mem (s.thread c).code o).map fun r => s.set c r.1 r.2

/-- Some operation of the call `c`. -/
def Step (s : State) (c : CallId) (s' : State) : Prop := Moves step s c s'

/-- The memory of a tag created by a caller with effective uid `euid`: at each level a fresh
instance of epoch 0, and every lock free. -/
def Mem.fresh (permission : ℤ) (euid : ℕ) : Mem where
  tags := true
  permission := permission
  euid := euid
  tagReady := false
  tagWaiting := 0
  tagLevel i := if i < levels then some i else none
  level a := a
  size _ := 0
  ready _ := false
  epoch _ := 0
  waiting _ := 0
  localWq _ := ∅
  wMutex _ := none
  buffer _ := List.replicate bufferSize 0
  sem _ := .free
  brk := levels
  freed _ := 0

/-- A fresh tag on which no call has begun. -/
structure Init (s : State) : Prop where
  /-- The memory is that of a fresh tag. -/
  mem : ∃ permission euid, s.mem = Mem.fresh permission euid
  /-- Every call is at its first point. -/
  idle : ∀ c, (s.thread c).idle = true

/-- On a fresh tag every `tag_receive` is at its first point. -/
theorem Init.receive {s : State} {c : CallId} {a : ReceiveArgs} {p : ReceiveState} (h : Init s)
    (hc : s.thread c = .receive a p) : p = .start := by
  have hidle := h.idle c
  rw [hc] at hidle
  cases p
  case start => rfl
  all_goals cases hidle

/-- On a fresh tag every `tag_send` is at its first point. -/
theorem Init.send {s : State} {c : CallId} {b : SendArgs} {p : SendState} (h : Init s)
    (hc : s.thread c = .send b p) : p = .start := by
  have hidle := h.idle c
  rw [hc] at hidle
  cases p
  case start => rfl
  all_goals cases hidle

/-- On a fresh tag every `TAG_AWAKE_ALL` is at its first point. -/
theorem Init.awake {s : State} {c : CallId} {e : ℕ} {p : AwakeState} (h : Init s)
    (hc : s.thread c = .awake e p) : p = .start := by
  have hidle := h.idle c
  rw [hc] at hidle
  cases p
  case start => rfl
  all_goals cases hidle

/-- A state that some interleaving of some calls on a fresh tag leads to. -/
def Reachable (s : State) : Prop := ∃ s₀, Init s₀ ∧ Run Step s₀ s

theorem Reachable.init {s : State} (h : Init s) : Reachable s := ⟨s, h, RunUnder.refl s⟩

theorem Reachable.run {s s' : State} (h : Reachable s) (hr : Run Step s s') : Reachable s' := by
  obtain ⟨s₀, h0, h⟩ := h
  exact ⟨s₀, h0, h.trans hr⟩

theorem Reachable.step {s s' : State} {c : CallId} (h : Reachable s) (hs : Step s c s') :
    Reachable s' := h.run (Run.single hs)

/-! ## Running a schedule

A schedule names the calls that move and the outcomes.  It is for witnesses; what is said about all
runs does not use it. -/

/-- A fresh tag of user 0 that anybody may use, and the calls that are going to be made on it. -/
def State.start (calls : CallId → Thread) : State := ⟨Mem.fresh 0 0, calls⟩

/-- Run a schedule.  A call that cannot move is passed over. -/
abbrev State.after (s : State) (l : List (CallId × Outcome)) : State := Conc.after step s l

/-- A test of every state a schedule goes through, with the call that moves there. -/
abbrev State.passes (s : State) (ok : State → CallId → Bool) (l : List (CallId × Outcome)) :
    Bool := Conc.passes step ok s l

/-- `n` operations of the call `c`, none of which goes wrong. -/
def goes (c : CallId) (n : ℕ) : List (CallId × Outcome) := List.replicate n (c, .go)

/-- A signal ends the wait of a sleeping call. -/
def signalled (c : CallId) : List (CallId × Outcome) := [(c, .signal), (c, .signal)]

/-- A schedule all of whose states pass a test is a run under what the test is for. -/
theorem State.runUnder_after {Good : State → CallId → Prop} {ok : State → CallId → Bool}
    (hok : ∀ s c, ok s c = true → Good s c) {s : State} {l : List (CallId × Outcome)}
    (h : s.passes ok l = true) : RunUnder Step Good s (s.after l) :=
  Conc.runUnder_after (P := fun _ => True) (fun s c _ => hok s c) (fun _ _ _ _ _ _ => trivial)
    trivial h

theorem State.run_after (s : State) (l : List (CallId × Outcome)) : Run Step s (s.after l) :=
  Conc.run_after s l

theorem State.step_after {s : State} {c : CallId} {o : Outcome}
    (h : (step s c o).isSome = true) : Step s c (s.after [(c, o)]) := by
  obtain ⟨t, ht⟩ := Option.isSome_iff_exists.1 h
  refine ⟨o, ?_⟩
  simp [Conc.after, ht]

theorem thread_of_step {s t : State} {c d : CallId} {o : Outcome} (h : step s d o = some t)
    (hcd : c ≠ d) : t.thread c = s.thread c := by
  simp only [step, Option.map_eq_some_iff] at h
  obtain ⟨r, -, rfl⟩ := h
  exact Config.set_thread_of_ne _ _ _ _ hcd

/-- A schedule moves only the calls it names. -/
theorem State.thread_after {n : ℕ} {l : List (CallId × Outcome)} (h : ∀ x ∈ l, x.1 < n)
    (s : State) {c : CallId} (hc : n ≤ c) : (s.after l).thread c = s.thread c :=
  Conc.after_keeps (P := fun t => t.thread c = s.thread c)
    (fun x hx _ _ hu ht => (thread_of_step ht (ne_of_gt (lt_of_lt_of_le (h x hx) hc))).trans hu) rfl

/-- When the calls a schedule names have returned and no other has begun, no call is in flight. -/
theorem State.idle_after {n : ℕ} {calls : CallId → Thread} {l : List (CallId × Outcome)}
    (hcalls : ∀ c, (calls c).idle = true) (hl : ∀ x ∈ l, x.1 < n)
    (h : ∀ c, c < n → (((State.start calls).after l).thread c).inFlight = false) (c : CallId) :
    (((State.start calls).after l).thread c).inFlight = false := by
  by_cases hc : c < n
  · exact h c hc
  · rw [State.thread_after hl _ (not_lt.1 hc), Thread.inFlight]
    simp [State.start, hcalls]

/-- `State.runUnder_after` when the test may rely on the calls from `n` on not having begun. -/
theorem State.runUnder_after_of_idle {Good : State → CallId → Prop}
    {ok : State → CallId → Bool} {n : ℕ}
    (hok : ∀ s c, (∀ d, n ≤ d → (s.thread d).idle = true) → ok s c = true → Good s c) {s : State}
    {l : List (CallId × Outcome)} (hs : ∀ d, n ≤ d → (s.thread d).idle = true)
    (hl : ∀ x ∈ l, x.1 < n) (h : s.passes ok l = true) : RunUnder Step Good s (s.after l) := by
  refine Conc.runUnder_after hok (fun x hx u t hu ht d hd => ?_) hs h
  rw [thread_of_step ht (ne_of_gt (lt_of_lt_of_le (hl x hx) hd))]
  exact hu d hd

theorem State.init_start {calls : CallId → Thread} (h : ∀ c, (calls c).idle = true) :
    Init (State.start calls) := ⟨⟨0, 0, rfl⟩, h⟩

theorem State.reachable_start {calls : CallId → Thread} (h : ∀ c, (calls c).idle = true)
    (l : List (CallId × Outcome)) : Reachable ((State.start calls).after l) :=
  (Reachable.init (State.init_start h)).run (State.run_after _ l)

/-! ## Steps

A step of the system as one of the ways its instruction can go.  The proofs about one kind of call
start from these lemmas. -/

/-- **What a step is**: one of the ways the next operation of the call can go. -/
theorem Step.exec {s s' : State} {c : CallId} (h : Step s c s') :
    ∃ m p, Exec c s.mem (s.thread c).code m p ∧ s' = s.set c m p := by
  obtain ⟨o, ho⟩ := h
  simp only [step, Option.map_eq_some_iff] at ho
  obtain ⟨⟨m, p⟩, hx, rfl⟩ := ho
  exact ⟨m, p, Exec.of_exec hx, rfl⟩

/-- A step of a receive is a step of `receiveCode`. -/
theorem Step.receive {s s' : State} {c : CallId} {a : ReceiveArgs} {q : ReceiveState}
    (h : Step s c s') (hc : s.thread c = .receive a q) :
    ∃ m q', Exec c s.mem (receiveCode a q) m q' ∧ s' = s.set c m (.receive a q') := by
  obtain ⟨o, ho⟩ := h
  simp only [step, hc, Thread.code, exec_map, Option.map_map, Option.map_eq_some_iff] at ho
  obtain ⟨⟨m, q'⟩, hx, rfl⟩ := ho
  exact ⟨m, q', Exec.of_exec hx, rfl⟩

/-- A step of a send is a step of `sendCode`. -/
theorem Step.send {s s' : State} {c : CallId} {b : SendArgs} {q : SendState}
    (h : Step s c s') (hc : s.thread c = .send b q) :
    ∃ m q', Exec c s.mem (sendCode b q) m q' ∧ s' = s.set c m (.send b q') := by
  obtain ⟨o, ho⟩ := h
  simp only [step, hc, Thread.code, exec_map, Option.map_map, Option.map_eq_some_iff] at ho
  obtain ⟨⟨m, q'⟩, hx, rfl⟩ := ho
  exact ⟨m, q', Exec.of_exec hx, rfl⟩

/-- A step of an `AWAKE_ALL` command is a step of `awakeCode`. -/
theorem Step.awake {s s' : State} {c : CallId} {e : ℕ} {q : AwakeState}
    (h : Step s c s') (hc : s.thread c = .awake e q) :
    ∃ m q', Exec c s.mem (awakeCode e q) m q' ∧ s' = s.set c m (.awake e q') := by
  obtain ⟨o, ho⟩ := h
  simp only [step, hc, Thread.code, exec_map, Option.map_map, Option.map_eq_some_iff] at ho
  obtain ⟨⟨m, q'⟩, hx, rfl⟩ := ho
  exact ⟨m, q', Exec.of_exec hx, rfl⟩

/-- What the code of a send can do next is a step. -/
theorem step_of_send {s : State} {c : CallId} {b : SendArgs} {q q' : SendState} {o : Outcome}
    {m : Mem} (hc : s.thread c = .send b q)
    (hx : exec c s.mem (sendCode b q) o = some (m, q')) : step s c o = some (s.set c m (.send b q')) := by
  simp [step, hc, Thread.code, exec_map, hx]

/-- The first point of a receive and those of its exits, where it has no instance. -/
def ReceiveState.ends : ReceiveState → Bool
  | start | leave _ _ | clear _ _ | release _ _ => true
  | _ => false

/-- The points that can follow. -/
inductive ReceiveState.Off : ReceiveState → Prop
  | loadTag : Off loadTag
  | clear (rel : Release) (r : Result) : Off (clear rel r)
  | release (rel : Release) (r : Result) : Off (release rel r)
  | unlockTag (r : Result) : Off (unlockTag r)
  | done (r : Result) : Off (done r)

theorem ReceiveState.ends_succ {c : CallId} {m m' : Mem} {a : ReceiveArgs} {q q' : ReceiveState}
    (hx : Exec c m (receiveCode a q) m' q') (hq : q.ends = true) : q'.Off := by
  cases q
  case start =>
    rw [receiveCode] at hx
    split at hx <;> cases hx <;> constructor
  case leave rel r => cases hx <;> cases rel <;> constructor
  case clear rel r => cases hx; cases rel <;> constructor
  case release rel r => cases rel <;> cases hx <;> constructor
  all_goals cases hq

/-- The points after the registration where a local value decides what follows, and the instance
they are at. -/
def ReceiveState.turns : ReceiveState → Option Addr
  | condTagReady l _ | readSize l => some l
  | _ => none

/-- The points that can follow. -/
inductive ReceiveState.Turned (l : Addr) : ReceiveState → Prop
  | finish : Turned l (finish l)
  | sleep : Turned l (sleep l)
  | copy (n : ℕ) : Turned l (copy l n)
  | unlockRcu (r : Result) : Turned l (unlockRcu l r)

theorem ReceiveState.turns_succ {c : CallId} {m m' : Mem} {a : ReceiveArgs}
    {q q' : ReceiveState} {l : Addr} (hx : Exec c m (receiveCode a q) m' q')
    (hq : q.turns = some l) : q'.Turned l := by
  cases q
  case condTagReady y pending =>
    cases hq
    cases hx
    · exact .finish
    · cases pending
      · exact .sleep
      · exact .unlockRcu _
  case readSize y =>
    cases hq
    cases hx
    rw [afterSize]
    split
    · exact .copy _
    · exact .unlockRcu _
  all_goals cases hq

/-- The mover is a receive after the step only if it was one, with the same arguments. -/
theorem Step.of_receive {s s' : State} {c : CallId} {a : ReceiveArgs} {p : ReceiveState}
    (h : Step s c s') (hc : s'.thread c = .receive a p) :
    ∃ q, s.thread c = .receive a q ∧ Exec c s.mem (receiveCode a q) s'.mem p := by
  cases ht : s.thread c with
  | receive a₀ q =>
    obtain ⟨m, q', hx, rfl⟩ := h.receive ht
    rw [Config.set_thread_self] at hc
    cases hc
    exact ⟨q, rfl, hx⟩
  | send b q =>
    obtain ⟨m, q', hx, rfl⟩ := h.send ht
    rw [Config.set_thread_self] at hc
    cases hc
  | awake e q =>
    obtain ⟨m, q', hx, rfl⟩ := h.awake ht
    rw [Config.set_thread_self] at hc
    cases hc

/-- The mover is a send after the step only if it was one, with the same arguments. -/
theorem Step.of_send {s s' : State} {c : CallId} {b : SendArgs} {p : SendState}
    (h : Step s c s') (hc : s'.thread c = .send b p) :
    ∃ q, s.thread c = .send b q ∧ Exec c s.mem (sendCode b q) s'.mem p := by
  cases ht : s.thread c with
  | receive a q =>
    obtain ⟨m, q', hx, rfl⟩ := h.receive ht
    rw [Config.set_thread_self] at hc
    cases hc
  | send b₀ q =>
    obtain ⟨m, q', hx, rfl⟩ := h.send ht
    rw [Config.set_thread_self] at hc
    cases hc
    exact ⟨q, rfl, hx⟩
  | awake e q =>
    obtain ⟨m, q', hx, rfl⟩ := h.awake ht
    rw [Config.set_thread_self] at hc
    cases hc

/-- A step does not move any other call. -/
theorem Step.thread_of_ne {s s' : State} {c d : CallId} (h : Step s c s') (hd : d ≠ c) :
    s'.thread d = s.thread d := by
  obtain ⟨m, p, _, rfl⟩ := h.exec
  exact Config.set_thread_of_ne _ _ _ _ hd

/-- Only finitely many calls have begun. -/
theorem Reachable.begun {s : State} (h : Reachable s) :
    ∃ S : Finset CallId, ∀ c, c ∉ S → (s.thread c).idle = true := by
  obtain ⟨s₀, h0, hr⟩ := h
  refine hr.invariant (P := fun s => ∃ S : Finset CallId, ∀ c, c ∉ S → (s.thread c).idle = true)
    ⟨∅, fun c _ => h0.idle c⟩ ?_
  rintro u e v ⟨S, hS⟩ _ hs
  refine ⟨insert e S, fun c hc => ?_⟩
  simp only [Finset.mem_insert, not_or] at hc
  rw [hs.thread_of_ne hc.1]
  exact hS c hc.2

/-! ## The input check

The index of the level is checked at the first point, and is in range from then on. -/

/-- A call that has got past its first point has passed the input check, unless it has already
returned. -/
def Thread.Checked : Thread → Prop
  | receive _ .start | receive _ (.done _) | send _ .start | send _ (.done _) | awake _ _ => True
  | receive a _ => a.valid = true
  | send b _ => b.valid = true

theorem receive_checked {c : CallId} {m m' : Mem} {a : ReceiveArgs} {q q' : ReceiveState}
    (hx : Exec c m (receiveCode a q) m' q') (hq : (Thread.receive a q).Checked) :
    (Thread.receive a q').Checked := by
  have hv : a.valid = true ∨ ∃ r, q' = .done r := by
    cases q
    case start =>
      rw [receiveCode] at hx
      split at hx
      · rename_i hv; exact .inl hv
      · cases hx; exact .inr ⟨_, rfl⟩
    case done => cases hx
    all_goals exact .inl hq
  rcases hv with hv | ⟨r, rfl⟩
  · cases q' <;> first | exact hv | trivial
  · trivial

theorem send_checked {c : CallId} {m m' : Mem} {b : SendArgs} {q q' : SendState}
    (hx : Exec c m (sendCode b q) m' q') (hq : (Thread.send b q).Checked) :
    (Thread.send b q').Checked := by
  have hv : b.valid = true ∨ ∃ rc, q' = .done rc := by
    cases q
    case start =>
      rw [sendCode] at hx
      split at hx
      · rename_i hv; exact .inl hv
      · cases hx; exact .inr ⟨_, rfl⟩
    case done => cases hx
    all_goals exact .inl hq
  rcases hv with hv | ⟨r, rfl⟩
  · cases q' <;> first | exact hv | trivial
  · trivial

theorem Reachable.checked {s : State} (h : Reachable s) (c : CallId) :
    (s.thread c).Checked := by
  obtain ⟨s₀, h0, hr⟩ := h
  refine hr.invariant (P := fun s => ∀ c, (s.thread c).Checked) (fun c => ?_) ?_ c
  · cases ht : s₀.thread c with
    | receive a p => obtain rfl := h0.receive ht; trivial
    | send b p => obtain rfl := h0.send ht; trivial
    | awake e p => trivial
  · intro u d v hu _ hs c
    by_cases hcd : c = d
    · subst hcd
      cases ht : v.thread c with
      | receive a p =>
        obtain ⟨q, hq, hx⟩ := hs.of_receive ht
        exact receive_checked hx (hq ▸ hu c)
      | send b p =>
        obtain ⟨q, hq, hx⟩ := hs.of_send ht
        exact send_checked hx (hq ▸ hu c)
      | awake e p => trivial
    · rw [hs.thread_of_ne hcd]; exact hu c

/-- Valid arguments for the same level index name the same level. -/
theorem level_eq {a : ReceiveArgs} {b : SendArgs} (ha : a.valid = true) (hb : b.valid = true)
    (h : b.lvl = a.lvl) : b.level = a.level := by
  simp only [ReceiveArgs.valid, SendArgs.valid, Bool.and_eq_true, decide_eq_true_eq] at ha hb
  simp only [ReceiveArgs.lvl, SendArgs.lvl] at h
  omega

end TagAos
