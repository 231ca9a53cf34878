import TagAos.Tag.Message

/-!
# A send reaches every registered receiver

`TagAos.Tag.Message` follows a message backwards, from the receiver to the sender.  Here it is
followed forwards: at the moment `i` of a run a send sets `ready` on an instance, and `Delivering`
says where a receiver that was waiting on the instance then can be at any later moment.  Either it
is still on the instance, and then the message is still there; or it is on its way out with a
result, and how it came by the result is known from what it did since (`Served`).

The wait queue enters through `ReceiveState.dozes`: between its last look at `ready` and its sleep
a receiver is queued, so the `wake_up_all` of the sender takes it off the queue, and a receiver
that queues itself again finds `ready` set.
-/

set_option autoImplicit false

namespace TagAos

open Conc

/-- The call `c` is asleep in its wait on `l`: it is in `schedule()` and nobody has woken it. -/
def Asleep (s : State) (c : CallId) (l : Addr) : Prop :=
  (∃ a, s.thread c = .receive a (.sleep l)) ∧ c ∈ s.mem.localWq l

/-- The points of a send on `l` that has set `ready`. -/
def SendState.Tail (l : Addr) : SendState → Prop
  | unlockMutex l' rc => l' = l ∧ rc = 1
  | wake l' => l' = l
  | unlockRcu _ rc | unlockTag rc | done rc => rc = 1
  | _ => False

/-- The points of a send that has executed `wake_up_all`. -/
def SendState.Woken : SendState → Prop
  | unlockRcu _ rc | unlockTag rc | done rc => rc = 1
  | _ => False

/-- The instance on which the receiver has looked at `ready` for the last time before it
sleeps. -/
def ReceiveState.dozes : ReceiveState → Option Addr
  | condTagReady l _ | sleep l => some l
  | _ => none

/-- The points of `wait_event_interruptible` up to the sleep. -/
def ReceiveState.waits : ReceiveState → Bool
  | waitReady _ | waitTagReady _ | prepare _ | condReady _ _ | condTagReady _ _ | sleep _ => true
  | _ => false

/-- The steps of a receiver to a point of its wait. -/
inductive ReceiveState.WaitStep (m m' : Mem) : ReceiveState → ReceiveState → Prop
  | register {l : Addr} (h : m'.ready = m.ready) : WaitStep m m' (register l) (waitReady l)
  | notReady {l : Addr} (h : m.ready l = false) : WaitStep m m' (waitReady l) (waitTagReady l)
  | notTagReady {l : Addr} (h : m.tagReady = false) : WaitStep m m' (waitTagReady l) (prepare l)
  | prepare {l : Addr} {pending : Bool} : WaitStep m m' (prepare l) (condReady l pending)
  | condNotReady {l : Addr} {pending : Bool} (h : m.ready l = false) :
      WaitStep m m' (condReady l pending) (condTagReady l pending)
  | sleep {l : Addr} (h : m.tagReady = false) (hm : m' = m) :
      WaitStep m m' (condTagReady l false) (sleep l)
  | again {l : Addr} : WaitStep m m' (sleep l) (prepare l)

theorem ReceiveState.result_of_on {p : ReceiveState} {l : Addr} (h : p.on = some l) :
    p.result = none := by
  cases p <;> cases h <;> rfl

section Step

variable {c d : CallId} {m m' : Mem} {a : ReceiveArgs} {b : SendArgs} {l : Addr}
  {q q' : ReceiveState}

/-- A step of another call never queues `c`. -/
theorem Exec.localWq {π : Type} {i : Instr π} {p : π} (hx : Exec d m i m' p) (hc : c ≠ d)
    (h : c ∈ m'.localWq l) : c ∈ m.localWq l := by
  cases hx with
  | createLevel =>
    by_cases hl : l = m.brk
    · subst hl; simp [Mem.createLevel] at h
    · simpa [Mem.createLevel, hl] using h
  | @prepareWait x _ _ =>
    by_cases hl : l = x
    · subst hl; simpa [hc] using h
    · simpa [hl] using h
  | @prepareWaitPending x _ _ =>
    by_cases hl : l = x
    · subst hl; simpa [hc] using h
    · simpa [hl] using h
  | @finishWait x _ =>
    by_cases hl : l = x
    · subst hl; simpa [hc] using h
    · simpa [hl] using h
  | @wakeUpAll x _ =>
    by_cases hl : l = x
    · subst hl; simp at h
    · simpa [hl] using h
  | _ => exact h

/-- The tail of a send wakes everybody on its instance before it counts as woken. -/
theorem SendState.Tail.succ {q q' : SendState} (hx : Exec d m (sendCode b q) m' q')
    (hq : q.Tail l) : q'.Tail l ∧ (q'.Woken → (q.Woken ∧ m'.localWq = m.localWq) ∨
      m'.localWq l = ∅) := by
  cases q
  case unlockMutex l' rc =>
    obtain ⟨rfl, rfl⟩ := hq
    cases hx
    exact ⟨rfl, fun h => h.elim⟩
  case wake l' =>
    cases hq
    cases hx
    exact ⟨rfl, fun _ => .inr (by simp)⟩
  case unlockRcu l' rc => cases hx; exact ⟨hq, fun _ => .inl ⟨hq, rfl⟩⟩
  case unlockTag rc => cases hx; exact ⟨hq, fun _ => .inl ⟨hq, rfl⟩⟩
  case done rc => cases hx
  all_goals exact hq.elim

/-- What takes a receiver that waits from one point to the next. -/
theorem ReceiveState.wait_step (hx : Exec c m (receiveCode a q) m' q') (hq' : q'.waits = true) :
    WaitStep m m' q q' := by
  cases q
  case start | leave | clear | release => cases ends_succ hx rfl <;> cases hq'
  case register y => cases hx; exact .register rfl
  case waitReady y =>
    cases hx with
    | loadReadySet => cases hq'
    | loadReadyClear h => exact .notReady h
  case waitTagReady y =>
    cases hx with
    | loadTagReadySet => cases hq'
    | loadTagReadyClear h => exact .notTagReady h
  case prepare y => cases hx <;> exact .prepare
  case condReady y pending =>
    cases hx with
    | loadReadySet => cases hq'
    | loadReadyClear h => exact .condNotReady h
  case condTagReady y pending =>
    cases hx with
    | loadTagReadySet => cases hq'
    | loadTagReadyClear h =>
      cases pending
      · exact .sleep h rfl
      · cases hq'
  case sleep y => cases hx; exact .again
  case readSize y =>
    cases hx
    rw [afterSize] at hq'
    split at hq' <;> cases hq'
  all_goals cases hx <;> cases hq'

/-- A receiver that finds `ready` set does not get ready to sleep. -/
theorem ReceiveState.dozes_succ (hx : Exec c m (receiveCode a q) m' q')
    (hq' : q'.dozes = some l) :
    q.on = some l ∧ (m.ready l = true → q.dozes = some l ∧ m'.localWq = m.localWq) := by
  have hw : q'.waits = true := by cases q' <;> first | rfl | cases hq'
  cases wait_step hx hw with
  | condNotReady h => cases hq'; exact ⟨rfl, fun hr => by rw [h] at hr; cases hr⟩
  | sleep h hm => cases hq'; exact ⟨rfl, fun _ => ⟨rfl, by rw [hm]⟩⟩
  | _ => cases hq'

/-- What a receiver can make of an instance it leaves: its wait was interrupted, or it has found
`tag_entry->ready` set, or there is no message, or it has read the message to the end, or
`copy_to_user` has failed. -/
theorem ReceiveState.on_succ (hx : Exec c m (receiveCode a q) m' q') (hq : q.on = some l) :
    q'.on = some l ∨ ∃ r, q'.result = some r ∧
      (r.waited = some (-ERESTARTSYS) ∨ (q = .codeTagReady l ∧ m.tagReady = true) ∨
        m.ready l = false ∨ (q.reads = some l ∧ r.returnCode = 1) ∨
        ∃ k, q = .copy l k ∧ q' = .unlockRcu l r ∧ r.returnCode = -EFAULT) := by
  cases q
  case condTagReady y pending =>
    cases hx
    · exact .inl hq
    · cases pending
      · exact .inl hq
      · exact .inr ⟨_, rfl, .inl rfl⟩
  case codeTagReady y =>
    cases hx with
    | loadTagReadySet h => cases hq; exact .inr ⟨_, rfl, .inr (.inl ⟨rfl, h⟩)⟩
    | loadTagReadyClear => exact .inl hq
  case codeReady y =>
    cases hx with
    | loadReadySet => exact .inl hq
    | loadReadyClear h => cases hq; exact .inr ⟨_, rfl, .inr (.inr (.inl h))⟩
  case recheck y =>
    cases hx with
    | loadReadySet => exact .inl hq
    | loadReadyClear h => cases hq; exact .inr ⟨_, rfl, .inr (.inr (.inl h))⟩
  case readSize y =>
    cases hx
    rw [afterSize]
    split
    · exact .inl hq
    · exact .inr ⟨_, rfl, .inr (.inr (.inr (.inl ⟨hq, rfl⟩)))⟩
  case copy y n =>
    cases hx with
    | copyToUser => exact .inr ⟨_, rfl, .inr (.inr (.inr (.inl ⟨hq, rfl⟩)))⟩
    | copyToUserFault =>
      cases hq
      exact .inr ⟨_, rfl, .inr (.inr (.inr (.inr ⟨n, rfl, rfl, rfl⟩)))⟩
  case waitReady y => cases hx <;> exact .inl hq
  case waitTagReady y => cases hx <;> exact .inl hq
  case prepare y => cases hx <;> exact .inl hq
  case condReady y pending => cases hx <;> exact .inl hq
  case sleep y => cases hx; exact .inl hq
  case finish y => cases hx; exact .inl hq
  all_goals cases hq

/-- A result does not change any more, as long as the level has an instance. -/
theorem ReceiveState.result_keep {r : Result} (hx : Exec c m (receiveCode a q) m' q')
    (ht : m.tagLevel a.lvl ≠ none) (hq : q.result = some r) : q'.result = some r := by
  cases q
  case loadNew y r₀ =>
    cases hx with
    | loadLevelNull h => exact absurd h ht
    | loadLevel => exact hq
  case leave rel r₀ => cases hx <;> cases rel <;> exact hq
  case clear rel r₀ => cases hx; cases rel <;> exact hq
  case release rel r₀ => cases rel <;> cases hx <;> exact hq
  case start => cases hq
  all_goals first | (cases hx <;> exact hq) | cases hq

end Step

/-! ## Every level has an instance

A `tag_t` is created with an instance at each level, and from then on a pointer is only ever
replaced. -/

theorem Reachable.tagLevel {s : State} (h : Reachable s) {i : ℕ} (hi : i < levels) :
    s.mem.tagLevel i ≠ none := by
  obtain ⟨s₀, h0, hr⟩ := h
  refine hr.invariant (P := fun s => s.mem.tagLevel i ≠ none) ?_ fun u c v hu _ hs => ?_
  · obtain ⟨pm, e, hm⟩ := h0.mem
    simp [hm, Mem.fresh, hi]
  · have hc := hs.change
    revert hc
    generalize v.mem = m'
    intro hc
    cases hc
    case linked j x lock hx keep =>
      by_cases hij : i = j
      · subst hij; simp
      · simpa [hij] using hu
    all_goals exact hu

theorem ReceiveArgs.lvl_lt {a : ReceiveArgs} (h : a.valid = true) : a.lvl < levels := by
  simp only [valid, Bool.and_eq_true, decide_eq_true_eq] at h
  simp only [lvl]
  omega

/-! ## Following a message

What happens to a receiver is said of the run that is taken, moment by moment (`Trace`): that it has
found the flag set, that it has read the message, that its copy has failed are all events of the
steps between two moments, and not possibilities. -/

section Past

variable {S : State → CallId → State → Prop} {G : State → CallId → Prop} {n : ℕ}

/-- At a moment from `i` on and before `k` the receiver `c`, which is about to compute its return
code, loads `tag_entry->ready` and finds it set. -/
def FoundTagReady (e : Trace S G n) (i k : ℕ) (c : CallId) (a : ReceiveArgs) (l : Addr) : Prop :=
  ∃ j, i ≤ j ∧ j < k ∧ e.mover j = c ∧ (e.state j).thread c = .receive a (.codeTagReady l) ∧
    (e.state j).mem.tagReady = true

/-- At a moment from `i` on and up to `k` the receiver `c` is reading the message of `l`. -/
def HasRead (e : Trace S G n) (i k : ℕ) (c : CallId) (a : ReceiveArgs) (l : Addr) : Prop :=
  ∃ j p, i ≤ j ∧ j ≤ k ∧ (e.state j).thread c = .receive a p ∧ p.reads = some l

/-- In a step between the moments `i` and `k` the `copy_to_user` of the receiver `c` fails, so that
it goes on with the result `r` and the return code `-EFAULT`. -/
def CopyFails (e : Trace S G n) (i k : ℕ) (c : CallId) (a : ReceiveArgs) (l : Addr) (r : Result) :
    Prop :=
  ∃ j m, i ≤ j ∧ j < k ∧ e.mover j = c ∧ (e.state j).thread c = .receive a (.copy l m) ∧
    (e.state (j + 1)).thread c = .receive a (.unlockRcu l r) ∧ r.returnCode = -EFAULT

/-- The receiver `c` has read the message of `b` from `l` since the moment `i`: it has all of it
that it asked for, or `copy_to_user` has failed. -/
def HasMessage (e : Trace S G n) (i k : ℕ) (c : CallId) (a : ReceiveArgs) (b : SendArgs) (l : Addr)
    (r : Result) : Prop :=
  HasRead e i k c a l ∧
    (r.returnCode = 1 ∧ r.delivered = b.message.take (min a.count b.count) ∨
      CopyFails e i k c a l r)

/-- How a receiver that a message was meant for can end: a signal has ended its wait, or it has
found `tag_entry->ready` set, or it has the message. -/
def Served (e : Trace S G n) (i k : ℕ) (c : CallId) (a : ReceiveArgs) (b : SendArgs) (l : Addr)
    (r : Result) : Prop :=
  r.waited = some (-ERESTARTSYS) ∨ FoundTagReady e i k c a l ∨ HasMessage e i k c a b l r

section

variable {e : Trace S G n} {i k : ℕ} {c : CallId} {a : ReceiveArgs} {b : SendArgs} {l : Addr}
  {r : Result}

theorem HasRead.later (h : HasRead e i k c a l) : HasRead e i (k + 1) c a l := by
  obtain ⟨j, p, hij, hjk, hp⟩ := h
  exact ⟨j, p, hij, Nat.le_succ_of_le hjk, hp⟩

/-- What has happened stays so. -/
theorem Served.later (h : Served e i k c a b l r) : Served e i (k + 1) c a b l r := by
  rcases h with h | ⟨j, hij, hjk, h⟩ | ⟨hread, h | ⟨j, m, hij, hjk, h⟩⟩
  · exact .inl h
  · exact .inr (.inl ⟨j, hij, Nat.lt_succ_of_lt hjk, h⟩)
  · exact .inr (.inr ⟨hread.later, .inl h⟩)
  · exact .inr (.inr ⟨hread.later, .inr ⟨j, m, hij, Nat.lt_succ_of_lt hjk, h⟩⟩)

end

end Past

/-- The moment `k` of the run, some time after the send `d` has set `ready` on `l` in the step after
the moment `i`, as far as the receiver `c` is concerned that was waiting on `l` then. -/
structure Delivering {G : State → CallId → Prop} {n : ℕ} (e : Trace Step G n) (i : ℕ)
    (c d : CallId) (a : ReceiveArgs) (b : SendArgs) (l : Addr) (k : ℕ) : Prop where
  /-- The sender goes on to wake everybody; then `c` will not sleep on `l` any more. -/
  sender : ∃ q, (e.state k).thread d = .send b q ∧ q.Tail l ∧
    (q.Woken → ∀ p, (e.state k).thread c = .receive a p → p.dozes = some l →
      c ∉ (e.state k).mem.localWq l)
  /-- The receiver is on the instance, which holds the message, or has its result. -/
  receiver : ∃ p, (e.state k).thread c = .receive a p ∧
    ((p.on = some l ∧ (e.state k).mem.ready l = true ∧ Content (e.state k).mem b l) ∨
      ∃ r, p.result = some r ∧ Served e i k c a b l r)

section Step

variable {s s' : State} {c d f : CallId} {a : ReceiveArgs} {b : SendArgs} {l : Addr}

/-- What the receiver is on stays there in any step. -/
theorem content_step (hr : Reachable s) (hs : Step s f s') {p : ReceiveState}
    (hc : s.thread c = .receive a p) (hp : p.on = some l) (hready : s.mem.ready l = true)
    (hcont : Content s.mem b l) : s'.mem.ready l = true ∧ Content s'.mem b l := by
  have hann := (State.anns_of_receive hc).trans (p.ann_of_on a.lvl hp)
  obtain ⟨h1, h2, h3⟩ := hr.inv.frozen hs.change s.anns_wf (d := c) (by simp [hann]) hready
  exact ⟨h1, hcont.congr h2 h3⟩

/-- What a receiver has read of the instance is the message. -/
theorem delivered_of_reads (hr : Reachable s) {p p' : ReceiveState} {m : Mem} {r : Result}
    (hc : s.thread c = .receive a p) (hx : Exec c s.mem (receiveCode a p) m p')
    (hp : p.on = some l) (hres : p'.result = some r) (hcont : Content s.mem b l)
    (hcode : r.returnCode = 1) : r.delivered = b.message.take (min a.count b.count) := by
  rcases ReceiveState.result_succ hx (hr.message.reading c a p hc) hres with
    ⟨hne, -⟩ | ⟨r', hres', -⟩ | ⟨l', k, hreads, -, hdel, -, hk⟩
  · exact absurd hcode hne
  · rw [ReceiveState.result_of_on hp] at hres'; cases hres'
  · obtain rfl : l = l' :=
      Option.some.inj (hp.symm.trans (ReceiveState.on_of_reads hreads))
    rw [hdel, hk hcode, hcont.size, ← hcont.buffer, List.take_take,
      min_eq_left (min_le_right _ _)]

end Step

section Trace

variable {G : State → CallId → Prop} {n : ℕ} {e : Trace Step G n} {i k : ℕ} {c d : CallId}
  {a : ReceiveArgs} {b : SendArgs} {l : Addr}

/-- The states of a run that begins on a fresh tag. -/
theorem reachable_of_trace (h0 : Init (e.state 0)) (hk : k ≤ n) : Reachable (e.state k) :=
  ⟨_, h0, (e.run (Nat.zero_le k) hk).run⟩

theorem receiver_step (h0 : Init (e.state 0)) (hik : i ≤ k) (hk : k < n)
    (h : Delivering e i c d a b l k) :
    ∃ p, (e.state (k + 1)).thread c = .receive a p ∧
      ((p.on = some l ∧ (e.state (k + 1)).mem.ready l = true ∧
          Content (e.state (k + 1)).mem b l) ∨
        ∃ r, p.result = some r ∧ Served e i (k + 1) c a b l r) := by
  have hr : Reachable (e.state k) := reachable_of_trace h0 hk.le
  have hs := e.step k hk
  obtain ⟨p, hc, hp⟩ := h.receiver
  by_cases hce : c = e.mover k
  · rw [← hce] at hs
    obtain ⟨m, p', hx, hs'⟩ := hs.receive hc
    have hc' : (e.state (k + 1)).thread c = .receive a p' := by
      rw [hs', Config.set_thread_self]
    refine ⟨p', hc', ?_⟩
    rcases hp with ⟨hon, hready, hcont⟩ | ⟨r, hres, hserved⟩
    · rcases ReceiveState.on_succ hx hon with hon' | ⟨r, hres, hout⟩
      · exact .inl ⟨hon', content_step hr hs hc hon hready hcont⟩
      · refine .inr ⟨r, hres, ?_⟩
        have hlt : k < k + 1 := k.lt_succ_self
        rcases hout with h1 | ⟨rfl, h2⟩ | h3 | ⟨hreads, hcode⟩ | ⟨j, rfl, rfl, hcode⟩
        · exact .inl h1
        · exact .inr (.inl ⟨k, hik, hlt, hce.symm, hc, h2⟩)
        · rw [h3] at hready; cases hready
        · exact .inr (.inr ⟨⟨k, p, hik, hlt.le, hc, hreads⟩,
            .inl ⟨hcode, delivered_of_reads hr hc hx hon hres hcont hcode⟩⟩)
        · exact .inr (.inr ⟨⟨k, _, hik, hlt.le, hc, hon⟩,
            .inr ⟨k, j, hik, hlt, hce.symm, hc, hc', hcode⟩⟩)
    · have hv : a.valid = true := by
        have hv := hr.checked c
        rw [hc] at hv
        cases p
        case done => cases hx
        all_goals first | exact hv | cases hres
      exact .inr ⟨r, ReceiveState.result_keep hx (hr.tagLevel (ReceiveArgs.lvl_lt hv)) hres,
        hserved.later⟩
  · refine ⟨p, by rw [hs.thread_of_ne hce]; exact hc, ?_⟩
    rcases hp with ⟨hon, hready, hcont⟩ | ⟨r, hres, hserved⟩
    · exact .inl ⟨hon, content_step hr hs hc hon hready hcont⟩
    · exact .inr ⟨r, hres, hserved.later⟩

theorem sender_step (hk : k < n) (hne : c ≠ d) (h : Delivering e i c d a b l k) :
    ∃ q, (e.state (k + 1)).thread d = .send b q ∧ q.Tail l ∧
      (q.Woken → ∀ p, (e.state (k + 1)).thread c = .receive a p → p.dozes = some l →
        c ∉ (e.state (k + 1)).mem.localWq l) := by
  have hs := e.step k hk
  obtain ⟨q, hd, htail, hwoken⟩ := h.sender
  by_cases hde : d = e.mover k
  · rw [← hde] at hs
    obtain ⟨m, q', hx, hs'⟩ := hs.send hd
    obtain ⟨htail', hw'⟩ := htail.succ hx
    rw [hs']
    refine ⟨q', Config.set_thread_self .., htail', fun hq' p hp hdoze => ?_⟩
    rw [Config.set_thread_of_ne _ _ _ _ hne] at hp
    rcases hw' hq' with ⟨hq, heq⟩ | hempty
    · rw [Config.set_mem, heq]; exact hwoken hq p hp hdoze
    · simp [hempty]
  · refine ⟨q, by rw [hs.thread_of_ne hde]; exact hd, htail, fun hq p hp hdoze => ?_⟩
    by_cases hce : c = e.mover k
    · rw [← hce] at hs
      obtain ⟨p₀, hp₀, hx⟩ := hs.of_receive hp
      obtain ⟨p₁, hp₁, hrest⟩ := h.receiver
      rw [hp₀] at hp₁
      cases hp₁
      obtain ⟨hon, hready_doze⟩ := ReceiveState.dozes_succ hx hdoze
      rcases hrest with ⟨-, hready, -⟩ | ⟨r, hres, -⟩
      · obtain ⟨hdoze₀, heq⟩ := hready_doze hready
        rw [heq]; exact hwoken hq p₀ hp₀ hdoze₀
      · rw [ReceiveState.result_of_on hon] at hres; cases hres
    · rw [hs.thread_of_ne hce] at hp
      obtain ⟨m, p', hx, hs'⟩ := hs.exec
      rw [hs']
      exact fun hmem => hwoken hq p hp hdoze (hx.localWq hce hmem)

theorem SetsReady.ne {p : ReceiveState} (h : SetsReady e i d b l)
    (hc : (e.state i).thread c = .receive a p) : c ≠ d := by
  rintro rfl
  rw [h.point] at hc; cases hc

/-- The moment right after the step that sets `ready`. -/
theorem SetsReady.delivering {p : ReceiveState} (h : SetsReady e i d b l) (h0 : Init (e.state 0))
    (hc : (e.state i).thread c = .receive a p) (hp : p.on = some l) :
    Delivering e (i + 1) c d a b l (i + 1) := by
  have hcont : Content (e.state i).mem b l :=
    (reachable_of_trace h0 h.lt.le).message.filled d b _ h.point
  have hs := e.step i h.lt
  rw [h.mover] at hs
  obtain ⟨m, q', hx, hs'⟩ := hs.send h.point
  cases hx
  exact ⟨⟨.unlockMutex l 1, by rw [hs', Config.set_thread_self], ⟨rfl, rfl⟩, fun hw => hw.elim⟩,
    ⟨p, by rw [hs', Config.set_thread_of_ne _ _ _ _ (h.ne hc)]; exact hc,
      .inl ⟨hp, by simp [hs'], by rw [hs']; exact hcont.congr rfl rfl⟩⟩⟩

/-- **Every later moment is one of `Delivering`.** -/
theorem SetsReady.delivering_trace {p : ReceiveState} (h : SetsReady e i d b l)
    (h0 : Init (e.state 0)) (hc : (e.state i).thread c = .receive a p) (hp : p.on = some l)
    (hik : i < k) (hk : k ≤ n) : Delivering e (i + 1) c d a b l k :=
  e.invariant (P := Delivering e (i + 1) c d a b l) (h.delivering h0 hc hp)
    (fun _ hij hj _ _ hd => ⟨sender_step hj (h.ne hc) hd, receiver_step h0 hij hj hd⟩) hik hk

end Trace

end TagAos
