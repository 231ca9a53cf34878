import TagAos.Tag.Slab

/-!
# Message integrity

What a receive that returns 1 has copied to its user is the beginning of one message, which was sent
on its level after it had begun.

With an allocator that hands freed blocks out again this depends on what becomes of an instance that
is freed while a call still refers to it.  In `empty_message` a last receiver that was overtaken
resets `ready` and `size` of the instance that has its block now: the message of a later send is
gone before the receiver it was meant for has read it, and that receiver returns 1 with no bytes at
all.

* `Slab.message_integrity` — as long as no instance is freed to which another call refers, every
  byte delivered is one of a single message sent during the call.

The statement is about moments of the run taken: `Sent e k c d b l` names a step of `e` before the
moment `k`.  It is proved of `TagAos.Tag.System` by `message_of_trace`, and `Slab.Shadow` carries it
over to the blocks.
-/

set_option autoImplicit false

namespace TagAos

open Conc

/-! ## Names of what a call knows

The predicates of `TagAos.Tag.Message` are about instances that a call has in its local variables.
A renamed call has the renamed instances. -/

section Rename

variable (ρ : Addr → Addr) (p : ReceiveState)

theorem Thread.idle_rename (t : Thread) : (t.rename ρ).idle = t.idle := by
  cases t with
  | receive a p => cases p <;> rfl
  | send b p => cases p <;> rfl
  | awake f p => cases p <;> rfl

theorem ReceiveState.result_rename : (p.rename ρ).result = p.result := by
  cases p <;> rfl

theorem ReceiveState.on_rename : (p.rename ρ).on = p.on.map ρ := by
  cases p <;> rfl

theorem ReceiveState.waitsOn_rename : (p.rename ρ).waitsOn = p.waitsOn.map ρ := by
  cases p <;> rfl

theorem ReceiveState.reads_rename : (p.rename ρ).reads = p.reads.map ρ := by
  cases p <;> rfl

theorem ReceiveState.refs_of_on {p : ReceiveState} {l : Addr} (h : p.on = some l) :
    l ∈ p.refs := by
  cases p <;> cases h <;> simp [refs]

/-- A renamed receive is on an instance under its new name. -/
theorem ReceiveState.on_of_rename {ρ : Addr → Addr} {p : ReceiveState} {l : Addr}
    (h : (p.rename ρ).on = some l) : ∃ x, p.on = some x ∧ ρ x = l := by
  rw [on_rename] at h
  exact Option.map_eq_some_iff.1 h

end Rename

/-! ## What a receiver is on

A receiver that is on an instance refers to it, so the instance is live and its block is its own. -/

section Step

variable {s s' : State} {c d : CallId} {a : ReceiveArgs} {p : ReceiveState} {x : Addr}

/-- No step frees the instance that a receiver is on. -/
theorem Step.live_of_on (hr : Reachable s) (hs : Step s d s') (hc : s.thread c = .receive a p)
    (hp : p.on = some x) (hx : s.mem.Live x) : s'.mem.Live x := by
  refine ⟨lt_of_lt_of_le hx.1 hs.brk_le, ?_⟩
  by_cases hcd : c = d
  · subst hcd
    rcases hs.freed with heq | ⟨a', l, r, hc', -⟩
    · rw [heq]; exact hx.2
    · rw [hc] at hc'
      cases hc'
      cases hp
  · -- the receiver is there after the step as well, and what has been freed has no reader
    have hc' : s'.thread c = .receive a p := by rw [hs.thread_of_ne hcd]; exact hc
    by_contra hne
    have hret := ((hr.step hs).epoch.freed x hne).reader c
    rw [State.anns_of_receive hc', p.ann_of_on a.lvl hp] at hret
    simp at hret

end Step

namespace Slab

variable {G : State → CallId → Prop} {n k : ℕ} {ρ : Addr → Addr} {e : Trace Slab.Step G n}
  {f : Trace TagAos.Step FreesUnused n} {c d : CallId} {a : ReceiveArgs} {b : SendArgs} {x l : Addr}

/-! ## From one trace to the other

A send that has set `ready` in one system has done so in the other, at the same moment and with the
same message. -/

/-- The run beside is a run of the system without reuse. -/
theorem Shadow.reachable (h : Shadow ρ e f) (hk : k ≤ n) : TagAos.Reachable (f.state k) :=
  reachable_of_trace h.init hk

/-- In the run beside every reference is live. -/
theorem Shadow.live (h : Shadow ρ e f) (hk : k ≤ n) : RefsLive (f.state k) :=
  refsLive_of_run h.init (f.run (Nat.zero_le k) hk)

/-- A send that sets an instance ready does so in both runs, at the same moment. -/
theorem Shadow.setsReady (h : Shadow ρ e f) (hset : SetsReady f k d b x) :
    SetsReady e k d b (ρ x) where
  lt := hset.lt
  mover := (h.mover k hset.lt).symm.trans hset.mover
  point := (h.related k hset.lt.le).of_send hset.point

/-- And the other way round: the block has a name. -/
theorem Shadow.of_setsReady (h : Shadow ρ e f) (hset : SetsReady e k d b l) :
    ∃ x, SetsReady f k d b x ∧ ρ x = l := by
  obtain ⟨q, hq, heq⟩ := (h.related k hset.lt.le).send hset.point
  cases q <;> cases heq
  exact ⟨_, ⟨hset.lt, (h.mover k hset.lt).trans hset.mover, hq⟩, rfl⟩

/-- What was sent in the run beside was sent in the run taken, at the same moments. -/
theorem Shadow.sent (h : Shadow ρ e f) (hk : k ≤ n) (hs : Sent f k c d b x) :
    Sent e k c d b (ρ x) := by
  obtain ⟨j, hj, hset, hc⟩ := hs
  refine ⟨j, hj, h.setsReady hset, ?_⟩
  rw [(h.related j (hj.le.trans hk)).thread_eq, Thread.idle_rename]
  exact hc

/-- The instance that a receiver is on is there, in the block that the receiver knows. -/
theorem Shadow.on (h : Shadow ρ e f) (hk : k ≤ n) {p : ReceiveState}
    (hc : (e.state k).thread c = .receive a p) (hp : p.on = some l) :
    ∃ q x, (f.state k).thread c = .receive a q ∧ p = q.rename ρ ∧ q.on = some x ∧ ρ x = l ∧
      (f.state k).mem.Live x := by
  obtain ⟨q, hq, rfl⟩ := (h.related k hk).receive hc
  obtain ⟨x, hx, rfl⟩ := ReceiveState.on_of_rename hp
  refine ⟨q, x, hq, rfl, hx, rfl, h.live hk c x ?_⟩
  rw [hq]
  exact ReceiveState.refs_of_on hx

/-! ## The success of a send

From the point at which a send can only return 1 on, nothing stops it: what is left of it takes no
lock. -/

/-- From the state `s` on the send `d` can only return 1, and it can return. -/
def Succeeds (s : State) (d : CallId) (b : SendArgs) : Prop :=
  (∀ t rc, Run Slab.Step s t → t.thread d = .send b (.done rc) → rc = 1) ∧
    ∃ t, Run Slab.Step s t ∧ t.thread d = .send b (.done 1)

/-- A send does not ask the allocator for anything. -/
theorem step_eq_of_send {s : State} {q : SendState} (hd : s.thread d = .send b q)
    (w : Outcome × Addr) : Slab.step s d w = TagAos.step s d w.1 := by
  rw [Slab.step, execAt_eq, TagAos.step]
  intro i r failed ok h
  rw [hd, Thread.code] at h
  cases q
  case start =>
    simp only [sendCode] at h
    split at h <;> cases h
  all_goals cases h

theorem Step.send {s s' : State} {q : SendState} (hs : Slab.Step s d s')
    (hd : s.thread d = .send b q) :
    ∃ m q', Exec d s.mem (sendCode b q) m q' ∧ s' = s.set d m (.send b q') := by
  obtain ⟨w, hs⟩ := hs
  rw [step_eq_of_send hd] at hs
  exact TagAos.Step.send ⟨w.1, hs⟩ hd

/-- A send that has set `ready` goes on to return 1. -/
theorem Step.succeeding {s s' : State} {q : SendState} (hs : Step s c s')
    (hd : s.thread d = .send b q) (hq : q.Succeeding) :
    ∃ q', s'.thread d = .send b q' ∧ q'.Succeeding := by
  by_cases hdc : d = c
  · subst hdc
    obtain ⟨m, q', hx, rfl⟩ := Slab.Step.send hs hd
    exact ⟨q', Config.set_thread_self .., hq.succ hx⟩
  · exact ⟨q, by rw [Slab.Step.thread_of_ne hs hdc]; exact hd, hq⟩

/-- A send that has set its instance ready succeeds in every run that goes on from there. -/
theorem succeeding_run {s t : State} {q : SendState} (hr : Run Slab.Step s t)
    (hd : s.thread d = .send b q) (hq : q.Succeeding) :
    ∃ q', t.thread d = .send b q' ∧ q'.Succeeding :=
  hr.invariant (P := fun t => ∃ q', t.thread d = .send b q' ∧ q'.Succeeding) ⟨q, hd, hq⟩
    fun _ _ _ ⟨_, hd, hq⟩ _ hs => Slab.Step.succeeding hs hd hq

/-- A send that has set `ready` is never kept from returning: it has only to wake everybody and to
release its locks. -/
theorem exists_return {s : State} {q : SendState} (hd : s.thread d = .send b q)
    (hq : q.Succeeding) : ∃ t, Run Slab.Step s t ∧ t.thread d = .send b (.done 1) := by
  -- one more operation in front of a way to the end
  have next : ∀ {s : State} {q q' : SendState} {m : Mem}, s.thread d = .send b q →
      exec d s.mem (sendCode b q) .go = some (m, q') →
      (∀ s : State, s.thread d = .send b q' →
        ∃ t, Run Slab.Step s t ∧ t.thread d = .send b (.done 1)) →
      ∃ t, Run Slab.Step s t ∧ t.thread d = .send b (.done 1) := by
    intro s q q' m hs hx h
    obtain ⟨t, hr, hdone⟩ := h (s.set d m (.send b q')) (Config.set_thread_self ..)
    refine ⟨t, RunUnder.head (c := d) trivial ⟨(.go, 0), ?_⟩ hr, hdone⟩
    rw [step_eq_of_send hs]
    exact step_of_send hs hx
  have hdone : ∀ s : State, s.thread d = .send b (.done 1) →
      ∃ t, Run Slab.Step s t ∧ t.thread d = .send b (.done 1) :=
    fun s hs => ⟨s, RunUnder.refl s, hs⟩
  have htag : ∀ s : State, s.thread d = .send b (.unlockTag 1) →
      ∃ t, Run Slab.Step s t ∧ t.thread d = .send b (.done 1) := fun s hs => next hs rfl hdone
  have hrcu : ∀ (s : State) (l : Addr), s.thread d = .send b (.unlockRcu l 1) →
      ∃ t, Run Slab.Step s t ∧ t.thread d = .send b (.done 1) := fun s l hs => next hs rfl htag
  have hwake : ∀ (s : State) (l : Addr), s.thread d = .send b (.wake l) →
      ∃ t, Run Slab.Step s t ∧ t.thread d = .send b (.done 1) :=
    fun s l hs => next hs rfl fun s hs => hrcu s l hs
  cases q
  case unlockMutex l rc => cases hq; exact next hd rfl fun s hs => hwake s l hs
  case wake l => exact hwake s l hd
  case unlockRcu l rc => cases hq; exact hrcu s l hd
  case unlockTag rc => cases hq; exact htag s hd
  case done rc => cases hq; exact hdone s hd
  all_goals exact hq.elim

/-- So a message that was sent was sent by a send that succeeds. -/
theorem succeeds_of_sent (hk : k ≤ n) (hs : Sent e k c d b l) : Succeeds (e.state k) d b := by
  obtain ⟨j, hj, hset, -⟩ := hs
  obtain ⟨q, hq, hsucc⟩ : ∃ q, (e.state k).thread d = .send b q ∧ q.Succeeding := by
    have hs := e.step j hset.lt
    rw [hset.mover] at hs
    obtain ⟨m, q, hx, hs'⟩ := Slab.Step.send hs hset.point
    cases hx
    refine succeeding_run (e.run hj hk).run (q := .unlockMutex l 1) ?_ rfl
    rw [hs', Config.set_thread_self]
  refine ⟨fun t rc hr hd => ?_, exists_return hq hsucc⟩
  obtain ⟨q', hq', hsucc'⟩ := succeeding_run hr hq hsucc
  rw [hd] at hq'
  cases hq'
  exact hsucc'

/-! ## The bytes delivered

Everything together.  The size and the buffer that the receiver reads in its block are those of the
instance in the run beside. -/

/-- Every byte that the receive `c` has delivered by the moment `k` with the result `r` is one of a
single message, sent on the same level after `c` had begun by a send that succeeds. -/
def DeliversSent (e : Trace Slab.Step G n) (k : ℕ) (c : CallId) (a : ReceiveArgs) (r : Result) :
    Prop :=
  ∃ d b l, Sent e k c d b l ∧ Succeeds (e.state k) d b ∧ b.level = a.level ∧
    b.count ≤ b.data.length ∧ r.delivered <+: b.message ∧
    (r.returnCode = 1 → r.delivered = b.message.take (min a.count b.count))

/-- **Message integrity.**  In a run in which no instance is freed to which another call refers, at
every moment

* a receive that has returned 1 has delivered exactly the first `min(size, sent size)` bytes of
  one message, that of a send on the same level which set `ready` after the receive had begun and
  which returns 1;
* all bytes that any receive has copied to its user, also one that fails later, are a beginning
  of one such message;
* no step of any call changes the size or the buffer of an instance while a receiver is on it
  that has a message to read. -/
theorem message_integrity (e : Trace Slab.Step FreesUnused n) (h0 : Init (e.state 0)) :
    (∀ k ≤ n, ∀ c a r, (e.state k).thread c = .receive a (.done r) → r.returnCode = 1 →
      DeliversSent e k c a r) ∧
    (∀ k ≤ n, ∀ c a p r, (e.state k).thread c = .receive a p → p.result = some r →
      r.delivered ≠ [] → DeliversSent e k c a r) ∧
    (∀ k < n, ∀ c a p l, (e.state k).thread c = .receive a p → p.on = some l →
      ((e.state k).mem.ready l = true ∨ p.reads = some l) →
        (e.state (k + 1)).mem.size l = (e.state k).mem.size l ∧
        (e.state (k + 1)).mem.buffer l = (e.state k).mem.buffer l) := by
  obtain ⟨ρ, f, h⟩ := exists_shadow e (fun _ _ => id) h0
  -- what is known of a result in the other system
  have hresult : ∀ k ≤ n, ∀ c a p r, (e.state k).thread c = .receive a p → p.result = some r →
      (r.returnCode ≠ 1 ∧ r.delivered = []) ∨ DeliversSent e k c a r := by
    intro k hk c a p r hc hp
    obtain ⟨q, hq, rfl⟩ := (h.related k hk).receive hc
    rw [ReceiveState.result_rename] at hp
    rcases (message_of_trace f h.init hk).result c a q r hq hp with hnone | ⟨d, b, x, hsent, hrest⟩
    · exact .inl hnone
    · have hsent' := h.sent hk hsent
      exact .inr ⟨d, b, ρ x, hsent', succeeds_of_sent hk hsent', hrest⟩
  refine ⟨fun k hk c a r hc hcode => ?_, fun k hk c a p r hc hp hne => ?_,
    fun k hk c a p l hc hl hread => ?_⟩
  · exact (hresult k hk c a _ r hc rfl).resolve_left fun hnone => hnone.1 hcode
  · exact (hresult k hk c a p r hc hp).resolve_left fun hnone => hne hnone.2
  · obtain ⟨q, x, hq, rfl, hqx, rfl, hlive⟩ := h.on hk.le hc hl
    have hr := h.reachable hk.le
    have hs := f.step k hk
    have hlive' := hs.live_of_on hr hq hqx hlive
    have hbefore := (h.related k hk.le).block hlive
    have hafter := (h.related (k + 1) hk).block hlive'
    have hready : (f.state k).mem.ready x = true := by
      rcases hread with hready | hreads
      · exact (congrArg TagLevel.ready hbefore).symm.trans hready
      · have hreading := hr.message.reading c a q hq
        rw [ReceiveState.reads_rename] at hreads
        cases q <;> cases hqx <;> first | exact hreading | exact hreading.1 | cases hreads
    have hann := (State.anns_of_receive hq).trans (q.ann_of_on a.lvl hqx)
    obtain ⟨hsize, hbuffer⟩ :=
      (hr.inv.frozen hs.change (f.state k).anns_wf (d := c) (by simp [hann]) hready).2
    exact ⟨(congrArg TagLevel.size hafter).trans (hsize.trans (congrArg TagLevel.size hbefore).symm),
      (congrArg TagLevel.buffer hafter).trans
        (hbuffer.trans (congrArg TagLevel.buffer hbefore).symm)⟩

/-! ## A message that is gone

A last receiver that was overtaken, and what it does to the instance that has its block now. -/

/-- A third send reaches receiver 5, which begins to read; receiver 2 resets `ready` and `size`
below it, and receiver 5 copies nothing. -/
def emptied : List (CallId × Outcome × Addr) :=
  overtaken ++ givenBlock 0 (goes 6 18 ++ goes 5 6 ++ goes 2 1 ++ goes 5 3 ++ goes 2 6 ++ goes 5 10)

/-- The arguments of the sends. -/
theorem traffic_send {l : List (CallId × Outcome × Addr)} {q : SendState}
    (hd : (after traffic l).thread d = .send b q) : b = ⟨0, some [7, 8, 9], 3, 0⟩ := by
  have hkeep : ∀ q, (after traffic l).thread d = .send b q → ∃ q₀, traffic d = .send b q₀ :=
    after_keeps (P := fun s : State => ∀ q, s.thread d = .send b q → ∃ q₀, traffic d = .send b q₀)
      (fun x _ u t hu ht q hq => by
        obtain ⟨q₀, hq₀⟩ := Slab.Step.send_args ⟨x.2, ht⟩ hq
        exact hu q₀ hq₀)
      fun q hq => ⟨q, hq⟩
  obtain ⟨q₀, hq₀⟩ := hkeep q hd
  unfold traffic at hq₀
  split at hq₀ <;> cases hq₀ <;> rfl

/-- The run of these moves. -/
def emptiedTrace : Trace Slab.Step (fun _ _ => True) emptied.length :=
  played (m := 7) traffic_idle (by decide +kernel) (by decide +kernel)

/-- At the end of `emptiedTrace` receive 5 has returned 1 with no bytes, although every send sent
three: receiver 2, whose instance had that block before, has reset `ready` and `size` below it. -/
theorem empty_message : ¬ ∀ (n : ℕ) (e : Trace Slab.Step (fun _ _ => True) n), Init (e.state 0) →
    ∀ k ≤ n, ∀ c a r, (e.state k).thread c = .receive a (.done r) → r.returnCode = 1 →
      DeliversSent e k c a r := by
  intro h
  have hlast : (emptiedTrace.state emptied.length).thread 5 =
      .receive ⟨0, true, 2, 0⟩ (.done (.message [])) := by decide +kernel
  obtain ⟨d, b, l, ⟨j, -, hset, -⟩, -, -, -, -, hdel⟩ :=
    h _ emptiedTrace (State.init_start traffic_idle) _ le_rfl 5 _ _ hlast rfl
  obtain rfl := traffic_send (l := emptied.take j) hset.point
  exact absurd (hdel rfl) (by decide)

/-- Receiver 2 takes a message and frees the instance 0, and receiver 5 opens a new epoch in the
same block; a send reaches it there. -/
def recycled : List (CallId × Outcome × Addr) :=
  givenBlock 32 (goes 2 15 ++ goes 1 18 ++ goes 3 24 ++ goes 2 18) ++
    givenBlock 0 (goes 4 18 ++ goes 5 24 ++ goes 3 18 ++ goes 6 18 ++ goes 5 22)

theorem recycled_lt : ∀ x ∈ recycled, x.1 < 7 := by decide +kernel

/-- A run of these calls in which no instance is freed to which another call refers. -/
def recycledTrace : Trace Slab.Step FreesUnused recycled.length :=
  scheduled freesUnused_of_test traffic_idle recycled_lt (by decide +kernel)

/-- In `recycledTrace` a block has been handed out again, and the receive in its new instance
delivers the bytes that were sent to it there. -/
theorem message_integrity_recycled :
    (recycledTrace.state recycled.length).thread 5 =
        .receive ⟨0, true, 2, 0⟩ (.done (.message [7, 8])) ∧
      DeliversSent recycledTrace recycled.length 5 ⟨0, true, 2, 0⟩ (.message [7, 8]) :=
  have h : (recycledTrace.state recycled.length).thread 5 =
      .receive ⟨0, true, 2, 0⟩ (.done (.message [7, 8])) := by decide +kernel
  ⟨h, (message_integrity recycledTrace (State.init_start traffic_idle)).1 _ le_rfl 5 _ _ h rfl⟩

end Slab

end TagAos
