import TagAos.Conc.Trace
import TagAos.Tag.Epoch

/-!
# Where a message comes from

A message is in an instance from the moment a sender sets `ready` to the reset by the last receiver.
When a receiver delivers bytes, the send that they come from has already happened, and the
receiver need not have been there; what it knows is that it has found `ready` clear at some time
since it had begun.  So the invariant of this file is about the past of the run: `Sent e k c d b l`
says that before the moment `k` of the run `e`, and after the call `c` had begun, the send `d` with
arguments `b` set `ready` on the instance `l`.

* `SendState.Filled` — what a sender has put into the instance before it sets `ready`; the mutex
  keeps every other writer away.
* `MessageInv` — a receiver that has found `ready` clear and later finds it set has a message that
  was sent after it had begun, and what it delivers is the beginning of that message.  The
  invariant is stated over any predicate on sends that holds of the ones that have happened; a step
  keeps it (`Step.message`), so it holds with `Sent` along a run (`message_of_trace`).
-/

set_option autoImplicit false

namespace TagAos

open Conc

/-! ## Sending

What a send does to an instance, up to the moment it sets `ready`.  The mutex keeps other senders
away and `ready` itself, once it is set, everybody who would change the contents. -/

section Past

variable {S : State → CallId → State → Prop} {G : State → CallId → Prop} {n : ℕ}

/-- In the step after the moment `k` of the run the send `d` sets `ready` on `l`. -/
structure SetsReady (e : Trace S G n) (k : ℕ) (d : CallId) (b : SendArgs) (l : Addr) : Prop where
  lt : k < n
  mover : e.mover k = d
  point : (e.state k).thread d = .send b (.setReady l)

/-- Before the moment `k` of the run, and after the call `c` had begun, the send `d` has set `ready`
on `l`. -/
def Sent (e : Trace S G n) (k : ℕ) (c d : CallId) (b : SendArgs) (l : Addr) : Prop :=
  ∃ j < k, SetsReady e j d b l ∧ ((e.state j).thread c).idle = false

end Past

/-- Instance `l` contains the message of a send with arguments `b`. -/
structure Content (m : Mem) (b : SendArgs) (l : Addr) : Prop where
  size : m.size l = b.count
  buffer : (m.buffer l).take b.count = b.message
  /-- The user's buffer could be read to the end. -/
  readable : b.count ≤ b.data.length

/-- What a sender has already put into the instance. -/
def SendState.Filled (m : Mem) (b : SendArgs) : SendState → Prop
  | setSize l => (m.buffer l).take b.count = b.message ∧ b.count ≤ b.data.length
  | setReady l => Content m b l
  | _ => True

theorem overwrite_take (buf src : List UInt8) : (overwrite buf src).take src.length = src := by
  simp [overwrite]

section Step

variable {m m' : Mem} {A A' : CallId → Ann} {c d : CallId} {a : ReceiveArgs} {b : SendArgs}
  {x l : Addr}

/-- A send fills the buffer and the size of its instance, and then keeps to them. -/
theorem SendState.Filled.succ {q q' : SendState} (hx : Exec c m (sendCode b q) m' q')
    (hq : q.Filled m b) : q'.Filled m' b := by
  cases q
  case start =>
    rw [sendCode] at hx
    split at hx <;> cases hx <;> trivial
  case testTagWaiting =>
    cases hx
    beta_reduce
    split <;> trivial
  case testWaiting l =>
    cases hx
    beta_reduce
    split_ifs with h0 hc
    · trivial
    · trivial
    · -- nothing to copy
      have : b.count = 0 := Nat.eq_zero_of_not_pos hc
      simp [Filled, SendArgs.message, this]
  case copy l =>
    cases hx with
    | copyFromUser hn =>
      refine ⟨?_, hn⟩
      have hlen : (b.data.take b.count).length = b.count := List.length_take_of_le hn
      have := overwrite_take (m.buffer l) (b.data.take b.count)
      rw [hlen] at this
      simpa [SendArgs.message] using this
    | copyFromUserFault => trivial
  case setSize l =>
    cases hx
    exact ⟨by simp, hq.1, hq.2⟩
  case unlockMutex l rc =>
    cases hx
    split <;> trivial
  all_goals cases hx <;> trivial

/-- Only one call at a time may write to an idle instance. -/
theorem Inv.writer_unique (h : Inv m A) (wf : ∀ d, (A d).WF) (hc : (A c).idle = some x)
    (hd : (A d).idle = some x) : d = c := by
  rcases (wf c).idle x hc with ⟨hcm, hcr⟩ | hcw
  · rcases (wf d).idle x hd with ⟨hdm, -⟩ | hdw
    · exact h.mutex_unique hcm hdm
    · exact absurd hcr (h.no_reader hdw)
  · rcases (wf d).idle x hd with ⟨-, hdr⟩ | hdw
    · exact absurd hdr (h.no_reader hcw)
    · exact (h.write_alone hcw hdw).1

theorem Inv.idle_lt (h : Inv m A) (wf : ∀ d, (A d).WF) (hd : (A d).idle = some x) :
    x < m.brk := by
  rcases (wf d).idle x hd with ⟨hm, -⟩ | hw
  · exact h.mutex_lt wf hm
  · exact h.held_lt wf hw

/-- While one call knows an instance to be idle, the steps of the others leave its contents
alone. -/
theorem Inv.contents_of_idle (h : Inv m A) (wf : ∀ d, (A d).WF)
    (hc : Change c m (A c) (A' c) m') (hd : (A d).idle = some x) (hdc : d ≠ c) :
    m'.size x = m.size x ∧ m'.buffer x = m.buffer x := by
  cases hc
  case sized y n hi keep =>
    have hxy : x ≠ y := by
      rintro rfl
      exact hdc (h.writer_unique wf hi hd)
    simp [hxy]
  case written y bs hi keep =>
    have hxy : x ≠ y := by
      rintro rfl
      exact hdc (h.writer_unique wf hi hd)
    simp [hxy]
  case created j e hf keep =>
    have hx : x ≠ m.brk := ne_of_lt (h.idle_lt wf hd)
    simp [Mem.createLevel, hx]
  all_goals exact ⟨rfl, rfl⟩

/-- Nobody changes the contents of an instance whose `ready` is set. -/
theorem Inv.contents_of_ready (h : Inv m A) (hc : Change c m (A c) (A' c) m')
    (hlt : x < m.brk) (hr : m.ready x = true) :
    m'.size x = m.size x ∧ m'.buffer x = m.buffer x := by
  cases hc
  case sized y n hi keep =>
    have hxy : x ≠ y := by
      rintro rfl
      rw [h.idle c x hi] at hr; cases hr
    simp [hxy]
  case written y bs hi keep =>
    have hxy : x ≠ y := by
      rintro rfl
      rw [h.idle c x hi] at hr; cases hr
    simp [hxy]
  case created j e hf keep => simp [Mem.createLevel, ne_of_lt hlt]
  all_goals exact ⟨rfl, rfl⟩

theorem Content.congr (h : Content m b l) (hs : m'.size l = m.size l)
    (hb : m'.buffer l = m.buffer l) : Content m' b l :=
  ⟨hs.trans h.size, by rw [hb]; exact h.buffer, h.readable⟩

/-- No other call writes to the instance that a send is filling: it is idle, and the send owns its
mutex. -/
theorem SendState.Filled.frame {q : SendState} (h : Inv m A) (wf : ∀ d, (A d).WF)
    (hc : Change c m (A c) (A' c) m') (hA : A d = q.ann b.lvl) (hdc : d ≠ c)
    (hq : q.Filled m b) : q.Filled m' b := by
  cases q
  case setSize l =>
    have hd : (A d).idle = some l := by rw [hA]; rfl
    obtain ⟨-, hb⟩ := h.contents_of_idle wf hc hd hdc
    exact ⟨by rw [hb]; exact hq.1, hq.2⟩
  case setReady l =>
    have hd : (A d).idle = some l := by rw [hA]; rfl
    obtain ⟨hs, hb⟩ := h.contents_of_idle wf hc hd hdc
    exact Content.congr hq hs hb
  all_goals trivial

/-! ## Only senders set `ready`

So a receiver that finds it set owes that to one particular step of the run. -/

/-- A receive does not set an instance ready. -/
theorem receive_ready {q q' : ReceiveState} (hx : Exec c m (receiveCode a q) m' q')
    (hr : m'.ready x = true) : m.ready x = true := by
  refine (hx.ready hr).resolve_right fun hi => ?_
  cases q
  case start =>
    rw [receiveCode] at hi
    split at hi <;> cases hi
  case release rel r => cases rel <;> cases hi
  all_goals cases hi

/-- A send sets the one instance ready that it has filled. -/
theorem send_ready {q q' : SendState} (hx : Exec c m (sendCode b q) m' q')
    (hr : m'.ready x = true) : m.ready x = true ∨ q = .setReady x := by
  refine (hx.ready hr).imp_right fun hi => ?_
  cases q
  case start =>
    rw [sendCode] at hi
    split at hi <;> cases hi
  case setReady l => cases hi; rfl
  all_goals cases hi

theorem awake_ready {e : ℕ} {q q' : AwakeState} (hx : Exec c m (awakeCode e q) m' q') :
    m'.ready = m.ready := by
  cases q <;> cases hx <;> rfl

end Step

/-- A step that sets `ready` of an instance is that of a sender. -/
theorem Step.setReady {s s' : State} {d : CallId} {l : Addr} (hs : Step s d s')
    (hr : s'.mem.ready l = true) :
    s.mem.ready l = true ∨ ∃ b, s.thread d = .send b (.setReady l) := by
  cases ht : s.thread d with
  | receive a q =>
    obtain ⟨m, q', hx, rfl⟩ := hs.receive ht
    exact .inl (receive_ready hx hr)
  | send b q =>
    obtain ⟨m, q', hx, rfl⟩ := hs.send ht
    rcases send_ready hx hr with h | rfl
    · exact .inl h
    · exact .inr ⟨b, rfl⟩
  | awake e q =>
    obtain ⟨m, q', hx, rfl⟩ := hs.awake ht
    rw [Config.set_mem, awake_ready hx] at hr
    exact .inl hr

/-! ## Receiving

The points of a receiver, by what it has to do with the message on its instance: it has seen that
there is none, it waits, it reads, it is done. -/

namespace ReceiveState

/-- The instance that the receiver has seen with `ready` clear, or has created, and has settled
on since. -/
def seen : ReceiveState → Option Addr
  | install _ _ l | unlockOld _ l _ | lockNew l _ | unlockLevelWrite l | register l
  | waitReady l | waitTagReady l | prepare l | condReady l _ | condTagReady l _ | sleep l
  | finish l | codeTagReady l | codeReady l | recheck l | readSize l | copy l _ => some l
  | _ => none

/-- The instance on which the receiver is registered and whose message it has not yet read. -/
def on : ReceiveState → Option Addr
  | waitReady l | waitTagReady l | prepare l | condReady l _ | condTagReady l _ | sleep l
  | finish l | codeTagReady l | codeReady l | recheck l | readSize l | copy l _ => some l
  | _ => none

/-- The instance whose message the receiver is reading. -/
def reads : ReceiveState → Option Addr
  | recheck l | readSize l | copy l _ => some l
  | _ => none

/-- What the call is going to return. -/
def result : ReceiveState → Option Result
  | unlockRcu _ r | leaveLevel _ r | tryLock _ r | loadNew _ r | cmpEpoch _ _ r
  | unlockFree _ r | free _ r | resetReady _ r | resetSize _ r | wipeSize _ r | wipe _ _ r
  | unlockReset _ r | unlockLevelError _ r | leave _ r | clear _ r | release _ r | unlockTag r
  | done r => some r
  | _ => none

/-- A receiver that is reading has a message, and copies no more than there is of it. -/
def Reading (m : Mem) (a : ReceiveArgs) : ReceiveState → Prop
  | recheck l | readSize l => m.ready l = true
  | copy l n => m.ready l = true ∧ n = min a.count (m.size l)
  | _ => True

theorem on_of_reads {p : ReceiveState} {l : Addr} (h : p.reads = some l) : p.on = some l := by
  cases p <;> cases h <;> rfl

theorem seen_of_on {p : ReceiveState} {l : Addr} (h : p.on = some l) : p.seen = some l := by
  cases p <;> cases h <;> rfl

theorem on_of_waitsOn {p : ReceiveState} {l : Addr} (h : p.waitsOn = some l) :
    p.on = some l := by
  cases p <;> cases h <;> rfl

theorem ann_of_on {p : ReceiveState} {l : Addr} (i : ℕ) (h : p.on = some l) :
    p.ann i = { held := [(.rcu l, .read), (.tag, .read)], counted := true, reg := some l,
                own := [(i, l)] } := by
  cases p <;> cases h <;> rfl

theorem own_of_seen {p : ReceiveState} {l : Addr} (i : ℕ) (h : p.seen = some l) :
    (i, l) ∈ (p.ann i).own := by
  cases p <;> cases h <;> simp [ann]

theorem valid_of_seen {p : ReceiveState} {l : Addr} {a : ReceiveArgs}
    (hv : (Thread.receive a p).Checked) (h : p.seen = some l) : a.valid = true := by
  cases p <;> cases h <;> exact hv

theorem started_of_seen {p : ReceiveState} {l : Addr} (a : ReceiveArgs) (h : p.seen = some l) :
    (Thread.receive a p).idle = false := by
  cases p <;> cases h <;> rfl

end ReceiveState

section Step

variable {m m' : Mem} {A A' : CallId → Ann} {c d : CallId} {a : ReceiveArgs} {x l : Addr}
  {q q' : ReceiveState}

/-- A receiver settles on an instance it finds idle, and does not touch its contents. -/
theorem ReceiveState.seen_succ (hx : Exec c m (receiveCode a q) m' q') (hl : q'.seen = some l) :
    m'.ready l = false ∨
      (q.seen = some l ∧ m'.ready = m.ready ∧ m'.size = m.size ∧ m'.buffer = m.buffer) := by
  cases q
  case start | leave | clear | release => cases ends_succ hx rfl <;> cases hl
  case testReady y =>
    cases hx with
    | loadReadySet => cases hl
    | loadReadyClear hr => cases hl; exact .inl hr
  case retestReady sem y =>
    cases hx with
    | loadReadySet => cases hl
    | loadReadyClear hr => cases hl; exact .inl hr
  case create sem y e =>
    cases hx with
    | createLevel => cases hl; exact .inl (by simp [Mem.createLevel])
    | createLevelFailed => cases hl
  case condTagReady y pending =>
    cases hx
    · exact .inr ⟨hl, rfl, rfl, rfl⟩
    · cases pending
      · exact .inr ⟨hl, rfl, rfl, rfl⟩
      · cases hl
  case readSize y =>
    cases hx
    rw [afterSize] at hl
    split at hl
    · exact .inr ⟨hl, rfl, rfl, rfl⟩
    · cases hl
  all_goals cases hx <;> first | exact .inr ⟨hl, rfl, rfl, rfl⟩ | cases hl

/-- What a receive has read so far is part of what the instance holds. -/
theorem ReceiveState.Reading.succ (hx : Exec c m (receiveCode a q) m' q')
    (hq : q.Reading m a) : q'.Reading m' a := by
  cases q
  case start | leave | clear | release => cases ends_succ hx rfl <;> trivial
  case codeReady y =>
    cases hx with
    | loadReadySet hr => exact hr
    | loadReadyClear => trivial
  case recheck y =>
    cases hx with
    | loadReadySet hr => exact hr
    | loadReadyClear => trivial
  case readSize y =>
    cases hx
    rw [afterSize]
    split
    · exact ⟨hq, rfl⟩
    · trivial
  case condTagReady y pending => cases hx <;> cases pending <;> trivial
  all_goals cases hx <;> trivial

/-- The receive holds the `rcu_lock` of its instance for reading and the instance is ready, so it is
frozen: nobody assigns its size or its buffer. -/
theorem ReceiveState.Reading.frame (h : Inv m A) (wf : ∀ d, (A d).WF)
    (hc : Change c m (A c) (A' c) m') (hA : A d = q.ann a.lvl) (hq : q.Reading m a) :
    q.Reading m' a := by
  have key : ∀ l, q.reads = some l → m.ready l = true →
      m'.ready l = true ∧ m'.size l = m.size l ∧ m'.buffer l = m.buffer l := by
    intro l hl hr
    refine h.frozen hc wf (d := d) ?_ hr
    rw [hA, ann_of_on a.lvl (on_of_reads hl)]; simp
  cases q
  case recheck l => exact (key l rfl hq).1
  case readSize l => exact (key l rfl hq).1
  case copy l n =>
    obtain ⟨hr, hs, -⟩ := key l rfl hq.1
    exact ⟨hr, by rw [hs]; exact hq.2⟩
  all_goals trivial

/-- What the bytes of a result can be: none, or a beginning of the buffer. -/
theorem ReceiveState.result_succ {r : Result} (hx : Exec c m (receiveCode a q) m' q')
    (hq : q.Reading m a) (hr : q'.result = some r) :
    (r.returnCode ≠ 1 ∧ r.delivered = []) ∨
    (∃ r', q.result = some r' ∧ r.delivered = r'.delivered ∧
      (r.returnCode = 1 → r'.returnCode = 1)) ∨
    (∃ l k, q.reads = some l ∧ m.ready l = true ∧ r.delivered = (m.buffer l).take k ∧
      k ≤ min a.count (m.size l) ∧ (r.returnCode = 1 → k = min a.count (m.size l))) := by
  cases q
  case start =>
    rw [receiveCode] at hx
    split at hx <;> cases hx <;> cases hr <;> exact .inl ⟨by decide, rfl⟩
  case condTagReady y pending =>
    cases hx
    · cases hr
    · cases pending
      · cases hr
      · cases hr; exact .inl ⟨by decide, rfl⟩
  case recheck y =>
    cases hx with
    | loadReadySet => cases hr
    | loadReadyClear h =>
      rw [show m.ready y = true from hq] at h
      cases h
  case readSize y =>
    cases hx
    rw [afterSize] at hr
    split at hr
    · cases hr
    · rename_i hn
      cases hr
      have h0 : min a.count (m.size y) = 0 := by
        by_contra hne
        refine hn ⟨Nat.pos_of_ne_zero hne, ?_⟩
        by_contra hb
        simp [ReceiveArgs.count, hb] at hne
      exact .inr (.inr ⟨y, 0, rfl, hq, by simp [Result.message], Nat.zero_le _,
        fun _ => h0.symm⟩)
  case copy y n =>
    obtain ⟨hready, rfl⟩ := hq
    cases hx with
    | copyToUser => cases hr; exact .inr (.inr ⟨y, _, rfl, hready, rfl, le_refl _, fun _ => rfl⟩)
    | copyToUserFault hk =>
      cases hr
      exact .inr (.inr ⟨y, _, rfl, hready, rfl, hk.le,
        fun h => absurd h (by simp [Result.badBuffer, EFAULT])⟩)
  case leave rel r₀ =>
    cases hx <;> cases rel <;> cases hr <;> exact .inr (.inl ⟨_, rfl, rfl, id⟩)
  case clear rel r₀ =>
    cases hx; cases rel <;> cases hr <;> exact .inr (.inl ⟨_, rfl, rfl, id⟩)
  case release rel r₀ =>
    cases rel <;> cases hx <;> cases hr <;> exact .inr (.inl ⟨_, rfl, rfl, id⟩)
  case loadNew y r₀ =>
    cases hx
    · cases hr; exact .inr (.inl ⟨r₀, rfl, rfl, fun h => absurd h (by simp [EPROTO])⟩)
    · cases hr; exact .inr (.inl ⟨_, rfl, rfl, id⟩)
  all_goals
    cases hx <;> cases hr <;>
      first
        | exact .inr (.inl ⟨_, rfl, rfl, id⟩)
        | exact .inl ⟨by decide, rfl⟩

end Step

/-! ## The invariant

An invariant about the past: for a receiver that has found an instance without a message and finds
one there now, the send has happened in between.  What is known about the sends of the past is a
parameter, so that the invariant can be carried along a trace, where it is about moments, and also
used when the sends need not be known. -/

section Invariant

-- `P c d b l` says that the send `d` set `ready` on `l` after the call `c` had begun.
variable (P : CallId → CallId → SendArgs → Addr → Prop)

/-- The bytes of the result `r` of the receive `c`: none, or a beginning of one message that was
sent on the same level after `c` had begun. -/
def Result.Delivers (c : CallId) (a : ReceiveArgs) (r : Result) : Prop :=
  (r.returnCode ≠ 1 ∧ r.delivered = []) ∨
  ∃ d b l, P c d b l ∧ b.level = a.level ∧ b.count ≤ b.data.length ∧
    r.delivered <+: b.message ∧
    (r.returnCode = 1 → r.delivered = b.message.take (min a.count b.count))

/-- What is known about the messages in flight. -/
structure MessageInv (s : State) : Prop where
  /-- A sender fills the instance before it sets `ready`. -/
  filled : ∀ d b q, s.thread d = .send b q → q.Filled s.mem b
  /-- A receiver reads only what is there. -/
  reading : ∀ c a p, s.thread c = .receive a p → p.Reading s.mem a
  /-- A message found after `ready` was seen clear is a new one. -/
  seen : ∀ c a p l, s.thread c = .receive a p → p.seen = some l → s.mem.ready l = true →
    ∃ d b, P c d b l ∧ Content s.mem b l ∧ b.level = a.level
  /-- Results hold the bytes of one message. -/
  result : ∀ c a p r, s.thread c = .receive a p → p.result = some r → r.Delivers P c a

end Invariant

variable {P P' : CallId → CallId → SendArgs → Addr → Prop}

/-- What has happened stays so. -/
theorem Result.Delivers.mono {c : CallId} {a : ReceiveArgs} {r : Result} (h : r.Delivers P c a)
    (hP : ∀ c d b l, P c d b l → P' c d b l) : r.Delivers P' c a := by
  rcases h with h | ⟨d, b, l, hsent, h⟩
  · exact .inl h
  · exact .inr ⟨d, b, l, hP _ _ _ _ hsent, h⟩

section Step

variable {s s' : State} {e : CallId} (hr : Reachable s) (hs : Step s e s') (hm : MessageInv P s)

include hs hm

/-- What a receive returns comes from the message that it has found. -/
theorem result_step (c : CallId) (a : ReceiveArgs) (p : ReceiveState) (r : Result)
    (hc : s'.thread c = .receive a p) (hp : p.result = some r) : r.Delivers P c a := by
  by_cases hce : c = e
  · subst hce
    obtain ⟨q, ht, hx⟩ := hs.of_receive hc
    rcases ReceiveState.result_succ hx (hm.reading c a q ht) hp with
      h | ⟨r', hq, hdel, hcode⟩ | ⟨l, k, hq, hready, hdel, hle, hk⟩
    · exact .inl h
    · rcases hm.result c a q r' ht hq with ⟨h1, h2⟩ | ⟨d, b, l, hsent, hlvl, hfit, hpre, h1⟩
      · exact .inl ⟨fun h => h1 (hcode h), hdel.trans h2⟩
      · exact .inr ⟨d, b, l, hsent, hlvl, hfit, by rw [hdel]; exact hpre,
          fun h => by rw [hdel]; exact h1 (hcode h)⟩
    · -- the bytes copied are a beginning of the message found
      obtain ⟨d, b, hsent, hcont, hlvl⟩ := hm.seen c a q l ht
        (ReceiveState.seen_of_on (ReceiveState.on_of_reads hq)) hready
      rw [hcont.size] at hle hk
      have hmsg : r.delivered = b.message.take k := by
        rw [hdel, ← hcont.buffer, List.take_take, min_eq_left (hle.trans (min_le_right _ _))]
      refine .inr ⟨d, b, l, hsent, hlvl, hcont.readable, ?_, fun h => ?_⟩
      · rw [hmsg]; exact List.take_prefix _ _
      · rw [hmsg, hk h]
  · rw [hs.thread_of_ne hce] at hc
    exact hm.result c a p r hc hp

include hr

/-- The instance of a send that has filled it holds its message. -/
theorem filled_step (d : CallId) (b : SendArgs) (q : SendState)
    (hd : s'.thread d = .send b q) : q.Filled s'.mem b := by
  by_cases hde : d = e
  · subst hde
    obtain ⟨q₀, ht, hx⟩ := hs.of_send hd
    exact (hm.filled d b q₀ ht).succ hx
  · rw [hs.thread_of_ne hde] at hd
    exact (hm.filled d b q hd).frame hr.inv s.anns_wf hs.change (State.anns_of_send hd) hde

/-- What a receive has read it has read from the instance it is on. -/
theorem reading_step (c : CallId) (a : ReceiveArgs) (p : ReceiveState)
    (hc : s'.thread c = .receive a p) : p.Reading s'.mem a := by
  by_cases hce : c = e
  · subst hce
    obtain ⟨q, ht, hx⟩ := hs.of_receive hc
    exact (hm.reading c a q ht).succ hx
  · rw [hs.thread_of_ne hce] at hc
    exact (hm.reading c a p hc).frame hr.inv s.anns_wf hs.change (State.anns_of_receive hc)

/-- An instance that a receive has seen, once it is ready, holds a message sent by a send that set
it ready after the receive had begun.  This is where the relation `P` grows: at the store of
`ready`. -/
theorem seen_step (hP : ∀ c d b l, P c d b l → P' c d b l)
    (hnew : ∀ c b l, s.thread e = .send b (.setReady l) → (s.thread c).idle = false → P' c e b l)
    (c : CallId) (a : ReceiveArgs) (p : ReceiveState) (l : Addr)
    (hc : s'.thread c = .receive a p) (hl : p.seen = some l) (hready : s'.mem.ready l = true) :
    ∃ d b, P' c d b l ∧ Content s'.mem b l ∧ b.level = a.level := by
  by_cases hce : c = e
  · subst hce
    obtain ⟨q, ht, hx⟩ := hs.of_receive hc
    rcases ReceiveState.seen_succ hx hl with h | ⟨hq, h1, h2, h3⟩
    · rw [h] at hready; cases hready
    · rw [h1] at hready
      obtain ⟨d, b, hsent, hcont, hlvl⟩ := hm.seen c a q l ht hq hready
      exact ⟨d, b, hP _ _ _ _ hsent, hcont.congr (by rw [h2]) (by rw [h3]), hlvl⟩
  · rw [hs.thread_of_ne hce] at hc
    have hown : (a.lvl, l) ∈ (s.anns c).own := by
      rw [State.anns_of_receive hc]
      exact ReceiveState.own_of_seen a.lvl hl
    obtain ⟨hlt, hlev, -⟩ := hr.inv.own c a.lvl l hown
    rcases hs.setReady hready with hold | ⟨b, hb⟩
    · obtain ⟨d, b, hsent, hcont, hlvl⟩ := hm.seen c a p l hc hl hold
      obtain ⟨h2, h3⟩ := hr.inv.contents_of_ready hs.change hlt hold
      exact ⟨d, b, hP _ _ _ _ hsent, hcont.congr h2 h3, hlvl⟩
    · -- the message arrives in this step
      have hcont : Content s.mem b l := hm.filled e b _ hb
      obtain ⟨m, q', hx, rfl⟩ := hs.send hb
      refine ⟨e, b, hnew c b l hb ?_, ?_, ?_⟩
      · rw [hc]; exact ReceiveState.started_of_seen a hl
      · cases hx; exact hcont.congr rfl rfl
      · have hb' := (hr.inv.own e b.lvl l
          (by simp [State.anns_of_send hb, SendState.ann])).2.1
        have hva := hr.checked c
        have hvb := hr.checked e
        rw [hc] at hva
        rw [hb] at hvb
        exact level_eq (ReceiveState.valid_of_seen hva hl) hvb (hb'.symm.trans hlev)

/-- A step keeps what is known, if `P'` records what has happened before it and, when the step sets
`ready`, that. -/
theorem Step.message (hP : ∀ c d b l, P c d b l → P' c d b l)
    (hnew : ∀ c b l, s.thread e = .send b (.setReady l) → (s.thread c).idle = false → P' c e b l) :
    MessageInv P' s' where
  filled := filled_step hr hs hm
  reading := reading_step hr hs hm
  seen := seen_step hr hs hm hP hnew
  result c a p r hc hp := (result_step hs hm c a p r hc hp).mono hP

end Step

/-- At the beginning nothing has been sent and nobody reads. -/
theorem Init.message {s : State} (h : Init s) : MessageInv P s := by
  constructor
  · intro d b q hd; obtain rfl := h.send hd; trivial
  · intro c a p hc; obtain rfl := h.receive hc; trivial
  · intro c a p l hc hl; obtain rfl := h.receive hc; cases hl
  · intro c a p r hc hp; obtain rfl := h.receive hc; cases hp

/-- What is known in every reachable state, of sends that need not be known. -/
theorem Reachable.message {s : State} (h : Reachable s) : MessageInv (fun _ _ _ _ => True) s := by
  obtain ⟨s₀, h0, hr⟩ := h
  exact hr.invariant_run h0.message fun u c v hu hm _ hs =>
    hs.message ⟨s₀, h0, hu⟩ hm (fun _ _ _ _ => id) fun _ _ _ _ _ => trivial

/-- **Messages along a run.**  At every moment of a run, a receiver that finds `ready` set has a
message that was sent earlier in the run, after it had begun. -/
theorem message_of_trace {G : State → CallId → Prop} {n : ℕ} (e : Trace Step G n)
    (h0 : Init (e.state 0)) {k : ℕ} (hk : k ≤ n) : MessageInv (Sent e k) (e.state k) := by
  refine e.invariant (P := fun k => MessageInv (Sent e k) (e.state k)) h0.message
    (fun k _ hkn _ hs hm => ?_) (Nat.zero_le k) hk
  refine hs.message ⟨_, h0, (e.run (Nat.zero_le k) hkn.le).run⟩ hm ?_ ?_
  · rintro c d b l ⟨j, hj, h⟩
    exact ⟨j, hj.trans (Nat.lt_succ_self k), h⟩
  · intro c b l hset hc
    exact ⟨k, Nat.lt_succ_self k, ⟨hkn, rfl, hset⟩, hc⟩

/-! ## The success of a send

After its store to `ready` a send returns 1, whatever becomes of the message. -/

/-- The points of `tag_send` from which it can only return 1. -/
def SendState.Succeeding : SendState → Prop
  | unlockMutex _ rc | unlockRcu _ rc | unlockTag rc | done rc => rc = 1
  | wake _ => True
  | _ => False

/-- A send that has set its instance ready is going to return 1. -/
theorem SendState.Succeeding.succ {c : CallId} {m m' : Mem} {b : SendArgs} {q q' : SendState}
    (hx : Exec c m (sendCode b q) m' q') (hq : q.Succeeding) : q'.Succeeding := by
  cases q
  case unlockMutex l rc =>
    cases hq
    cases hx
    trivial
  case wake l => cases hx; rfl
  case unlockRcu l rc => cases hx; exact hq
  case unlockTag rc => cases hx; exact hq
  case done rc => cases hx
  all_goals exact hq.elim

/-- A receiver with room for two bytes, and a send of three on the same level. -/
def exchange : CallId → Thread
  | 1 => .send ⟨0, some [7, 8, 9], 3, 0⟩ .start
  | _ => .receive ⟨0, true, 2, 0⟩ .start

/-- The receiver has gone to sleep, the send has been made, and the receiver has returned. -/
def exchanged : State := (State.start exchange).after (goes 0 15 ++ goes 1 18 ++ goes 0 22)

theorem exchange_idle (c : CallId) : (exchange c).idle = true := by
  unfold exchange
  split <;> rfl

theorem exchanged_reachable : Reachable exchanged := State.reachable_start exchange_idle _

end TagAos
