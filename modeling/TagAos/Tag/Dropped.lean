import TagAos.Tag.Reaches

/-!
# When a successful send is dropped

A send that returns 1 has set `ready` on an instance on which it had seen receivers registered
(`Slab.setsReady_of_succeeding`).  That one of them takes the message is not certain, for two
reasons.

* A receiver computes its return code from two flags, and `tag_entry->ready` has priority over
  `ready` of the instance.  The send does not look at `tag_entry->ready`, and `AWAKE_ALL` does not
  look for messages.  So an `AWAKE_ALL` that overlaps the send makes the only receiver ignore the
  message (`Slab.send_can_be_dropped`).
* `waiting` also counts receivers that know their result already and are on their way out.  If they
  are all that the send has seen, nobody is left to take the message (`Slab.counted_late`).

`FlagsMinded` says of a step that it does neither.  In a run of such steps a message that was sent
is not dropped (`Slab.not_dropped`): a receiver that has yet to look at `tag_entry->ready` finds it
clear as long as there is a message on its instance, so every receiver that was waiting takes it or
is interrupted.
-/

set_option autoImplicit false

namespace TagAos

open Conc

/-! ## What is said of a message

A message is dropped when all who were registered for it have returned and none of them has ended
with it.  The statement is about a moment of the run at which they have returned: before, one of
them may still take it. -/

/-- The receive `c` is counted in `waiting` of the instance `l`. -/
def Registered (s : State) (c : CallId) (a : ReceiveArgs) (l : Addr) : Prop :=
  ∃ p, s.thread c = .receive a p ∧ (p.ann a.lvl).reg = some l

section Past

variable {S : State → CallId → State → Prop} {G : State → CallId → Prop} {n : ℕ}

/-- At the moment `k` every receive that was registered on `l` at the moment `i` has returned. -/
def AllReturned (e : Trace S G n) (i k : ℕ) (l : Addr) : Prop :=
  ∀ c a, Registered (e.state i) c a l → ∃ r, (e.state k).thread c = .receive a (.done r)

/-- By the moment `k` the message that was put into `l` in the step after the moment `i` is not
dropped: one of the receives registered on `l` then has read it since and has ended with it, or a
signal has ended the wait of all of them. -/
def NotDropped (e : Trace S G n) (i k : ℕ) (b : SendArgs) (l : Addr) : Prop :=
  (∃ c a r, Registered (e.state i) c a l ∧ (e.state k).thread c = .receive a (.done r) ∧
    HasMessage e (i + 1) k c a b l r) ∨
  ∀ c a r, Registered (e.state i) c a l → (e.state k).thread c = .receive a (.done r) →
    r.waited = some (-ERESTARTSYS)

/-- No message that was sent with success has been dropped, once all who were registered for it have
returned. -/
def NoneDropped (e : Trace S G n) : Prop :=
  ∀ i d b l, SetsReady e i d b l → ∀ k, i < k → k ≤ n →
    (e.state k).thread d = .send b (.done 1) → AllReturned e i k l → NotDropped e i k b l

end Past

/-- The instance on which the receiver is registered, if it has yet to look at `tag_entry->ready`
for its return code. -/
def ReceiveState.looks : ReceiveState → Option Addr
  | waitReady l | waitTagReady l | prepare l | condReady l _ | condTagReady l _ | sleep l
  | finish l | codeTagReady l => some l
  | _ => none

/-- The condition on a step. -/
structure FlagsMinded (s : State) (c : CallId) : Prop where
  /-- A send sets `ready` when `tag_entry->ready` is clear and every receive that `waiting` counts on
  the instance has yet to compute its return code, or was interrupted. -/
  send : ∀ b l, s.thread c = .send b (.setReady l) → s.mem.tagReady = false ∧
    ∀ d a p r, s.thread d = .receive a p → (p.ann a.lvl).reg = some l → p.result = some r →
      r.waited = some (-ERESTARTSYS)
  /-- `AWAKE_ALL` sets `tag_entry->ready` when no receive that has yet to look at it has a message. -/
  awake : ∀ u, s.thread c = .awake u .setTagReady → ∀ d a p l, s.thread d = .receive a p →
    p.looks = some l → s.mem.ready l = false

/-! ## Following the receivers

A receiver that is registered when `ready` is set finds it set, unless its wait is interrupted.
What it returns is then decided by the flag, which it looks at after `ready`; so it has to be known
that the flag is clear at that moment. -/

/-- A send is bound to succeed from its store of `ready` on. -/
theorem SendState.succeeding_succ {c : CallId} {m m' : Mem} {b : SendArgs} {q q' : SendState}
    (hx : Exec c m (sendCode b q) m' q') (hq' : q'.Succeeding) :
    q.Succeeding ∨ ∃ l, q = setReady l := by
  cases q
  case start =>
    rw [sendCode] at hx
    split at hx <;> cases hx <;> cases hq'
  case testTagWaiting =>
    cases hx
    beta_reduce at hq'
    split at hq' <;> cases hq'
  case testWaiting l =>
    cases hx
    beta_reduce at hq'
    split_ifs at hq' <;> cases hq'
  case setReady l => exact .inr ⟨l, rfl⟩
  case unlockMutex l rc =>
    cases hx
    split at hq'
    · rename_i h; exact .inl h
    · exact .inl hq'
  case wake l => exact .inl trivial
  all_goals cases hx <;> first | exact .inl hq' | cases hq'

namespace ReceiveState

variable {c : CallId} {m m' : Mem} {a : ReceiveArgs} {l x : Addr} {p q q' : ReceiveState}

theorem on_or_result_of_reg {i : ℕ} (h : (p.ann i).reg = some l) :
    p.on = some l ∨ ∃ r, p.result = some r := by
  cases p <;> first | exact .inl h | exact .inr ⟨_, rfl⟩

theorem on_of_looks (h : p.looks = some l) : p.on = some l := by
  cases p <;> cases h <;> rfl

/-- A receiver does not come back to the points before its look. -/
theorem looks_of_on (hx : Exec c m (receiveCode a q) m' q') (hq : q.on = some l)
    (hq' : q'.looks = some x) : q.looks = some l := by
  cases q
  case codeTagReady y =>
    cases hx
    · cases hq'
    · exact hq
  case codeReady y => cases hx <;> cases hq'
  case recheck y => cases hx <;> cases hq'
  case readSize y =>
    cases hx
    rw [afterSize] at hq'
    split at hq' <;> cases hq'
  case copy y k => cases hx <;> cases hq'
  all_goals exact hq

theorem looks_rename (ρ : Addr → Addr) (p : ReceiveState) :
    (p.rename ρ).looks = p.looks.map ρ := by
  cases p <;> rfl

theorem reg_rename (ρ : Addr → Addr) (i : ℕ) (p : ReceiveState) :
    ((p.rename ρ).ann i).reg = ((p.ann i).reg).map ρ := by
  cases p
  case unlockLevelError rel r | leave rel r | clear rel r | release rel r => cases rel <;> rfl
  all_goals rfl

theorem refs_of_reg {i : ℕ} (h : (p.ann i).reg = some l) : l ∈ p.refs := by
  cases p
  case unlockLevelError rel r | leave rel r | clear rel r | release rel r => cases rel <;> cases h
  all_goals cases h <;> simp [refs]

end ReceiveState

section Trace

variable {G : State → CallId → Prop} {n : ℕ} {f : Trace Step G n} {i j k : ℕ} {c d : CallId}
  {a : ReceiveArgs} {b : SendArgs} {x : Addr}

/-- A receive that knows its result keeps it. -/
theorem result_of_trace {p : ReceiveState} {r : Result} (h0 : Init (f.state 0))
    (hc : (f.state j).thread c = .receive a p) (hp : p.result = some r) (hjk : j ≤ k)
    (hk : k ≤ n) : ∃ q, (f.state k).thread c = .receive a q ∧ q.result = some r := by
  refine f.invariant (P := fun k => ∃ q, (f.state k).thread c = .receive a q ∧ q.result = some r)
    ⟨p, hc, hp⟩ (fun k _ hk _ hs ⟨q, hq, hres⟩ => ?_) hjk hk
  by_cases hce : c = f.mover k
  · rw [← hce] at hs
    obtain ⟨m, q', hx, hs'⟩ := hs.receive hq
    have hr : Reachable (f.state k) := reachable_of_trace h0 hk.le
    have hv : a.valid = true := by
      have hv := hr.checked c
      rw [hq] at hv
      cases q
      case done => cases hx
      all_goals first | exact hv | cases hres
    exact ⟨q', by rw [hs', Config.set_thread_self],
      ReceiveState.result_keep hx (hr.tagLevel (ReceiveArgs.lvl_lt hv)) hres⟩
  · exact ⟨q, by rw [hs.thread_of_ne hce]; exact hq, hres⟩

/-- While the message is there, a receiver that has yet to look at `tag_entry->ready` will find it
clear; and up to now it has not found it set. -/
structure FindsClear (f : Trace Step G n) (i k : ℕ) (c : CallId) (a : ReceiveArgs) (x : Addr) :
    Prop where
  clear : ∀ p, (f.state k).thread c = .receive a p → p.looks = some x →
    (f.state k).mem.tagReady = false
  found : ¬ FoundTagReady f i k c a x

/-- While the send delivers, a receive that finds its `ready` clear goes on to find the flag of the
tag clear as well.  A command that set the flag in between is what the condition excludes. -/
theorem FindsClear.step (h0 : Init (f.state 0)) (h : FindsClear f i k c a x)
    (hd : Delivering f i c d a b x k) (hk : k < n)
    (hflag : FlagsMinded (f.state k) (f.mover k)) : FindsClear f i (k + 1) c a x := by
  have hs := f.step k hk
  obtain ⟨p, hc, hp⟩ := hd.receiver
  refine ⟨fun p' hp' hlooks => ?_, ?_⟩
  · -- before the step the receiver did not have a result
    have hon' := ReceiveState.on_of_looks hlooks
    obtain ⟨hon, hready⟩ : p.on = some x ∧ (f.state k).mem.ready x = true := by
      rcases hp with ⟨hon, hready, -⟩ | ⟨r, hres, -⟩
      · exact ⟨hon, hready⟩
      · obtain ⟨q, hq, hres'⟩ := result_of_trace h0 hc hres k.le_succ hk
        rw [hp'] at hq
        cases hq
        rw [ReceiveState.result_of_on hon'] at hres'
        cases hres'
    -- so it had yet to look
    have hlook : p.looks = some x := by
      by_cases hce : c = f.mover k
      · rw [← hce] at hs
        obtain ⟨q, hq, hx⟩ := hs.of_receive hp'
        rw [hc] at hq
        cases hq
        exact ReceiveState.looks_of_on hx hon hlooks
      · rw [hs.thread_of_ne hce, hc] at hp'
        cases hp'
        exact hlooks
    by_contra htag
    rcases hs.tagReady (Bool.of_not_eq_false htag) with hold | ⟨u, hu⟩
    · rw [h.clear p hc hlook] at hold
      cases hold
    · rw [hflag.awake u hu c a p x hc hlook] at hready
      cases hready
  · rintro ⟨j, hij, hjk, hm, hj, hready⟩
    rcases Nat.lt_succ_iff_lt_or_eq.1 hjk with hlt | rfl
    · exact h.found ⟨j, hij, hlt, hm, hj, hready⟩
    · rw [h.clear _ hj rfl] at hready
      cases hready

/-- **A receive that a message was meant for** takes it, or its wait was ended by a signal. -/
theorem SetsReady.taken {r : Result} (hset : SetsReady f i d b x) (h0 : Init (f.state 0))
    (hflag : ∀ k < n, FlagsMinded (f.state k) (f.mover k)) (hreg : Registered (f.state i) c a x)
    (hik : i < k) (hk : k ≤ n) (hdone : (f.state k).thread c = .receive a (.done r)) :
    r.waited = some (-ERESTARTSYS) ∨ HasMessage f (i + 1) k c a b x r := by
  obtain ⟨p, hc, hp⟩ := hreg
  have hsend := hflag i hset.lt
  rw [hset.mover] at hsend
  obtain ⟨hclear, hknown⟩ := hsend.send b x hset.point
  rcases ReceiveState.on_or_result_of_reg hp with hon | ⟨r', hres⟩
  · have hd := fun k => hset.delivering_trace h0 hc hon (k := k)
    have hs := f.step i hset.lt
    rw [hset.mover] at hs
    have hfirst : FindsClear f (i + 1) (i + 1) c a x := by
      refine ⟨fun _ _ _ => ?_, fun ⟨j, hij, hjk, _⟩ => absurd hij (not_le.2 hjk)⟩
      obtain ⟨m, q, hx, hs'⟩ := hs.send hset.point
      cases hx
      rw [hs', Config.set_mem]
      exact hclear
    have hfinds : FindsClear f (i + 1) k c a x :=
      f.invariant (P := fun k => FindsClear f (i + 1) k c a x) hfirst
        (fun k hik hk _ _ h => h.step h0 (hd k hik hk.le) hk (hflag k hk)) hik hk
    obtain ⟨q, hq, hrest⟩ := (hd k hik hk).receiver
    rw [hdone] at hq
    cases hq
    rcases hrest with ⟨hdone, -⟩ | ⟨r'', hres, hserved⟩
    · cases hdone
    · cases hres
      exact hserved.imp_right fun h => h.resolve_left hfinds.found
  · -- the receive knew its result when the message came
    obtain ⟨q, hq, hres'⟩ := result_of_trace h0 hc hres hik.le hk
    rw [hdone] at hq
    cases hq
    cases hres'
    exact .inl (hknown c a p r hc hp hres)

end Trace

namespace Slab

variable {G : State → CallId → Prop} {n i k : ℕ} {ρ : Addr → Addr} {e : Trace Slab.Step G n}
  {f : Trace TagAos.Step FreesUnused n} {c d : CallId} {a : ReceiveArgs} {b : SendArgs} {x l : Addr}

/-! ## Whatever the blocks

The same in the system whose allocator hands freed blocks out again, by way of the run beside it
(`TagAos.Tag.Slab`). -/

/-- The condition on the flags passes to the run beside.  The instances it speaks of are referred to
by some call, so they are live, with the same `ready` there. -/
theorem Related.flagsMinded {s σ : State} (h : Related ρ s σ) (hlive : RefsLive σ)
    (hg : FlagsMinded s c) : FlagsMinded σ c where
  send b x hc := by
    obtain ⟨hclear, hknown⟩ := hg.send b (ρ x) (h.of_send hc)
    refine ⟨h.mem.tagReady.symm.trans hclear, fun d a p r hd hp hres => ?_⟩
    refine hknown d a (p.rename ρ) r (h.of_receive hd) ?_ ?_
    · rw [ReceiveState.reg_rename, hp, Option.map_some]
    · rw [ReceiveState.result_rename, hres]
  awake u hc d a p x hd hp := by
    have hlive : σ.mem.Live x := by
      refine hlive d x ?_
      rw [hd]
      exact ReceiveState.refs_of_on (ReceiveState.on_of_looks hp)
    have hc' : s.thread c = .awake u .setTagReady := by
      rw [h.thread_eq, hc]
      rfl
    have hready := hg.awake u hc' d a (p.rename ρ) (ρ x) (h.of_receive hd) <| by
      rw [ReceiveState.looks_rename, hp, Option.map_some]
    exact (congrArg TagLevel.ready (h.block hlive)).symm.trans hready

/-- A receive that is registered on the block of a message is registered on its instance. -/
theorem Shadow.registered (h : Shadow ρ e f) (hset : SetsReady f i d b x)
    (hreg : Registered (e.state i) c a (ρ x)) : Registered (f.state i) c a x := by
  have hi := hset.lt.le
  obtain ⟨p, hc, hp⟩ := hreg
  obtain ⟨q, hq, rfl⟩ := (h.related i hi).receive hc
  rw [ReceiveState.reg_rename, Option.map_eq_some_iff] at hp
  obtain ⟨y, hy, heq⟩ := hp
  have hlivey : (f.state i).mem.Live y := by
    refine h.live hi c y ?_
    rw [hq]
    exact ReceiveState.refs_of_reg hy
  have hlivex : (f.state i).mem.Live x := by
    refine h.live hi d x ?_
    rw [hset.point]
    exact List.mem_singleton_self x
  obtain rfl := (h.related i hi).inj hlivey hlivex heq
  exact ⟨q, hq, hy⟩

/-- A send that can only return 1 has set `ready`. -/
theorem setsReady_of_succeeding (e : Trace Slab.Step G n) (h0 : Init (e.state 0)) (hk : k ≤ n)
    {q : SendState} (hd : (e.state k).thread d = .send b q) (hq : q.Succeeding) :
    ∃ i < k, ∃ l, SetsReady e i d b l := by
  have key : ∀ b q, (e.state k).thread d = .send b q → q.Succeeding →
      ∃ i < k, ∃ l, SetsReady e i d b l := by
    refine e.invariant (P := fun k => ∀ b q, (e.state k).thread d = .send b q → q.Succeeding →
      ∃ i < k, ∃ l, SetsReady e i d b l) ?_ (fun k _ hk _ hs ih b q hd hq => ?_)
      (Nat.zero_le k) hk
    · intro b q hd hq
      obtain rfl := h0.send hd
      exact hq.elim
    · by_cases hdc : d = e.mover k
      · rw [← hdc] at hs
        obtain ⟨q₀, hq₀⟩ := Slab.Step.send_args hs hd
        obtain ⟨m, q', hx, hs'⟩ := Slab.Step.send hs hq₀
        rw [hs', Config.set_thread_self] at hd
        cases hd
        rcases SendState.succeeding_succ hx hq with hold | ⟨l, rfl⟩
        · obtain ⟨i, hi, h⟩ := ih b q₀ hq₀ hold
          exact ⟨i, hi.trans k.lt_succ_self, h⟩
        · exact ⟨k, k.lt_succ_self, l, hk, hdc.symm, hq₀⟩
      · rw [Slab.Step.thread_of_ne hs hdc] at hd
        obtain ⟨i, hi, h⟩ := ih b q hd hq
        exact ⟨i, hi.trans k.lt_succ_self, h⟩
  exact key b q hd hq

/-- **A successful send is not dropped**, in a run in which no instance is freed to which another
call refers, a send sets `ready` only while `tag_entry->ready` is clear and for receivers that have
yet to compute their return codes, and `AWAKE_ALL` sets `tag_entry->ready` only while no receiver
that has yet to look at it has a message.  A send that has returned 1 has set `ready` on an
instance; and once every receive that was registered on the instance then has returned, one of them
has read the message and ended with it, or a signal has ended the wait of all of them. -/
theorem not_dropped (e : Trace Slab.Step (fun s c => FreesUnused s c ∧ FlagsMinded s c) n)
    (h0 : Init (e.state 0)) :
    (∀ k ≤ n, ∀ d b, (e.state k).thread d = .send b (.done 1) →
      ∃ i < k, ∃ l, SetsReady e i d b l) ∧
    NoneDropped e := by
  refine ⟨fun k hk d b hd => setsReady_of_succeeding e h0 hk hd rfl,
    fun i d b l hset k hik hk _ _ => ?_⟩
  obtain ⟨ρ, f, h⟩ := exists_shadow e (fun _ _ hg => hg.1) h0
  obtain ⟨x, hsetx, rfl⟩ := h.of_setsReady hset
  have hflag : ∀ j < n, FlagsMinded (f.state j) (f.mover j) := fun j hj => by
    rw [h.mover j hj]
    exact (h.related j hj.le).flagsMinded (h.live hj.le) (e.good j hj).2
  by_cases hint : ∀ c a r, Registered (e.state i) c a (ρ x) →
      (e.state k).thread c = .receive a (.done r) → r.waited = some (-ERESTARTSYS)
  · exact .inr hint
  · push Not at hint
    obtain ⟨c, a, r, hreg, hdone, hne⟩ := hint
    obtain ⟨q, hq, heq⟩ := (h.related k hk).receive hdone
    cases q <;> cases heq
    have hmsg : HasMessage f (i + 1) k c a b x r :=
      (hsetx.taken h.init hflag (h.registered hsetx hreg) hik hk hq).resolve_left hne
    exact .inl ⟨c, a, r, hreg, hdone, h.hasRead hk hmsg.1,
      hmsg.2.imp_right (h.copyFails hk)⟩

/-! ## An `AWAKE_ALL` overtakes a message

Two runs in which a send returns 1 and its message is dropped, one for each reason. -/

/-- The receive `c` is counted in `waiting` of the instance `l`. -/
def isRegistered (s : State) (c : CallId) (l : Addr) : Bool :=
  match s.thread c with
  | .receive a p => (p.ann a.lvl).reg == some l
  | _ => false

/-- Who is registered, when only the calls below `m` have begun. -/
theorem registered_eq {s : State} {m : ℕ} {c₀ : CallId}
    (hidle : ∀ d, m ≤ d → (s.thread d).idle = true)
    (h : ∀ c < m, isRegistered s c l = true → c = c₀) (hreg : Registered s c a l) : c = c₀ := by
  obtain ⟨p, hc, hp⟩ := hreg
  by_cases hcm : c < m
  · exact h c hcm (by simp [isRegistered, hc, hp])
  · have := hidle c (not_lt.1 hcm)
    rw [hc] at this
    cases p
    case start => cases hp
    all_goals cases this

/-- One receiver (call 0), an `AWAKE_ALL` command (call 1) and a send (call 2) on level 0. -/
def overlap : CallId → Thread
  | 1 => .awake 0 .start
  | 2 => .send ⟨0, some [7, 8, 9], 3, 0⟩ .start
  | _ => .receive ⟨0, true, 2, 0⟩ .start

theorem overlap_idle (c : CallId) : (overlap c).idle = true := by
  unfold overlap
  split <;> rfl

/-- The receiver is asleep, the command is about to set `tag_entry->ready`, and the send sets
`ready` and returns 1.  Then the command sets the flag, and the receiver returns 0. -/
def overlapped : List (CallId × Outcome × Addr) :=
  givenBlock 32 (goes 0 15 ++ goes 1 5 ++ goes 2 18 ++ goes 1 195 ++ goes 0 18)

/-- The run of these moves. -/
def overlapTrace : Trace Slab.Step (fun _ _ => True) overlapped.length :=
  played (m := 3) overlap_idle (by decide +kernel) (by decide +kernel)

/-- The run `overlapTrace` drops a message: the send has returned 1, the receive that was registered
has returned 0, and no signal has been delivered. -/
theorem send_can_be_dropped : ¬ ∀ (n : ℕ) (e : Trace Slab.Step (fun _ _ => True) n),
    Init (e.state 0) → NoneDropped e := by
  intro h
  have hset : SetsReady overlapTrace 33 2 ⟨0, some [7, 8, 9], 3, 0⟩ 0 :=
    ⟨by decide +kernel, by decide +kernel, by decide +kernel⟩
  -- only the receiver is registered, and it returns 0
  have hreg : ∀ c a, Registered (overlapTrace.state 33) c a 0 → c = 0 := fun c a hc => by
    rw [overlapTrace, played_state] at hc
    exact registered_eq (fun d hd => after_take_idle overlap_idle (m := 3) (by decide +kernel) 33 hd)
      (by decide +kernel) hc
  have h0 : (overlapTrace.state 33).thread 0 = .receive ⟨0, true, 2, 0⟩ (.sleep 0) := by
    decide +kernel
  have hdone : (overlapTrace.state overlapped.length).thread 0 =
      .receive ⟨0, true, 2, 0⟩ (.done .nothing) := by decide +kernel
  have hall : AllReturned overlapTrace 33 overlapped.length 0 := by
    intro c a hc
    obtain rfl := hreg c a hc
    obtain ⟨p, hp, -⟩ := hc
    rw [h0] at hp
    cases hp
    exact ⟨_, hdone⟩
  rcases h _ overlapTrace (State.init_start overlap_idle) _ _ _ _ hset _ hset.lt le_rfl
      (by decide +kernel) hall with ⟨c, a, r, hc, hr, -, hmsg⟩ | hint
  · obtain rfl := hreg c a hc
    rw [hdone] at hr
    cases hr
    rcases hmsg with ⟨hcode, -⟩ | ⟨-, -, -, -, -, -, -, hcode⟩ <;> cases hcode
  · cases hint 0 _ _ ⟨_, h0, rfl⟩ hdone

/-- Receiver 2 is about to register on the instance 0 when the first send sets `ready` there, for
receiver 0.  Receiver 0 is a last receiver; receiver 2 registers, takes the message as well, and has
left the instance when receiver 0 resets it.  The second send finds receiver 2 still counted. -/
def countedLate : List (CallId × Outcome × Addr) :=
  givenBlock 32 (goes 2 9 ++ goes 0 15 ++ goes 1 18 ++ goes 0 11 ++ goes 2 8 ++ goes 0 10 ++
    goes 4 18 ++ goes 2 12)

/-- The run of these moves. -/
def countedLateTrace : Trace Slab.Step (fun _ _ => True) countedLate.length :=
  played (m := 7) traffic_idle (by decide +kernel) (by decide +kernel)

/-- A message can be dropped without any `AWAKE_ALL`. -/
theorem counted_late : ¬ ∀ (n : ℕ) (e : Trace Slab.Step (fun _ _ => True) n),
    Init (e.state 0) → (∀ d u p, (e.state 0).thread d ≠ .awake u p) → NoneDropped e := by
  intro h
  have hset : SetsReady countedLateTrace 84 4 ⟨0, some [7, 8, 9], 3, 0⟩ 0 :=
    ⟨by decide +kernel, by decide +kernel, by decide +kernel⟩
  have hawake : ∀ d u p, (countedLateTrace.state 0).thread d ≠ .awake u p := by
    intro d u p hd
    have hd : traffic d = .awake u p := hd
    unfold traffic at hd
    split at hd <;> cases hd
  -- only receiver 2 is registered, and it has its result
  have hreg : ∀ c a, Registered (countedLateTrace.state 84) c a 0 → c = 2 := fun c a hc => by
    rw [countedLateTrace, played_state] at hc
    exact registered_eq (fun d hd => after_take_idle traffic_idle (m := 7) (by decide +kernel) 84 hd)
      (by decide +kernel) hc
  have h2 : (countedLateTrace.state 84).thread 2 =
      .receive ⟨0, true, 2, 0⟩ (.leaveLevel 0 (.message [7, 8])) := by decide +kernel
  have hdone : (countedLateTrace.state countedLate.length).thread 2 =
      .receive ⟨0, true, 2, 0⟩ (.done (.message [7, 8])) := by decide +kernel
  have hall : AllReturned countedLateTrace 84 countedLate.length 0 := by
    intro c a hc
    obtain rfl := hreg c a hc
    obtain ⟨p, hp, -⟩ := hc
    rw [h2] at hp
    cases hp
    exact ⟨_, hdone⟩
  -- it does not read any more
  have hreads : ∀ j ≤ countedLate.length, 85 ≤ j →
      (match (countedLateTrace.state j).thread 2 with
        | .receive _ p => p.reads
        | _ => none) = none := by decide +kernel
  rcases h _ countedLateTrace (State.init_start traffic_idle) hawake _ _ _ _ hset _ hset.lt le_rfl
      (by decide +kernel) hall with ⟨c, a, r, hc, -, ⟨j, p, hij, hjk, hj, hp⟩, -⟩ | hint
  · obtain rfl := hreg c a hc
    have := hreads j hjk hij
    rw [hj] at this
    rw [show p.reads = none from this] at hp
    cases hp
  · cases hint 2 _ _ ⟨_, h2, rfl⟩ hdone

/-! ## A message that is taken

A run with a block that was handed out again, all of whose steps meet the conditions. -/

/-- A test for `FlagsMinded` when only the calls below `m` have begun. -/
def flagsMinded (m : ℕ) (s : State) (c : CallId) : Bool :=
  match s.thread c with
  | .send _ (.setReady l) => !s.mem.tagReady && (List.range m).all fun d => match s.thread d with
    | .receive a p => (p.ann a.lvl).reg != some l || match p.result with
      | some r => r.waited == some (-ERESTARTSYS)
      | none => true
    | _ => true
  | .awake _ .setTagReady => (List.range m).all fun d => match s.thread d with
    | .receive _ p => match p.looks with
      | some l => !s.mem.ready l
      | none => true
    | _ => true
  | _ => true

theorem flagsMinded_of_test {m : ℕ} (s : State) (c : CallId)
    (hidle : ∀ d, m ≤ d → (s.thread d).idle = true) (h : flagsMinded m s c = true) :
    FlagsMinded s c where
  send b l hc := by
    simp only [flagsMinded, hc, Bool.and_eq_true, Bool.not_eq_true', List.all_eq_true,
      List.mem_range] at h
    refine ⟨h.1, fun d a p r hd hp hres => ?_⟩
    by_cases hdm : d < m
    · have := h.2 d hdm
      simpa [hd, hp, hres] using this
    · have := hidle d (not_lt.1 hdm)
      rw [hd] at this
      cases p
      case start => cases hp
      all_goals cases this
  awake u hc d a p l hd hp := by
    simp only [flagsMinded, hc, List.all_eq_true, List.mem_range] at h
    by_cases hdm : d < m
    · have := h d hdm
      simpa [hd, hp] using this
    · have := hidle d (not_lt.1 hdm)
      rw [hd] at this
      cases p
      case start => cases hp
      all_goals cases this

/-- A test for both conditions. -/
def minded (m : ℕ) (s : State) (c : CallId) : Bool := freesUnused m s c && flagsMinded m s c

theorem minded_of_test {m : ℕ} (s : State) (c : CallId)
    (hidle : ∀ d, m ≤ d → (s.thread d).idle = true) (h : minded m s c = true) :
    FreesUnused s c ∧ FlagsMinded s c := by
  rw [minded, Bool.and_eq_true] at h
  exact ⟨freesUnused_of_test s c hidle h.1, flagsMinded_of_test s c hidle h.2⟩

/-- The run of `recycled` meets both conditions. -/
def mindedTrace :
    Trace Slab.Step (fun s c => FreesUnused s c ∧ FlagsMinded s c) recycled.length :=
  scheduled minded_of_test traffic_idle recycled_lt (by decide +kernel)

/-- The last send of the run puts its message into the block that was handed out again, and receiver
5 takes it there. -/
theorem not_dropped_recycled :
    NotDropped mindedTrace 148 recycled.length ⟨0, some [7, 8, 9], 3, 0⟩ 0 := by
  have hset : SetsReady mindedTrace 148 6 ⟨0, some [7, 8, 9], 3, 0⟩ 0 :=
    ⟨by decide +kernel, by decide +kernel, by decide +kernel⟩
  have h5 : (mindedTrace.state 148).thread 5 = .receive ⟨0, true, 2, 0⟩ (.sleep 0) := by
    decide +kernel
  have hall : AllReturned mindedTrace 148 recycled.length 0 := by
    intro c a hc
    have hc' := hc
    rw [mindedTrace, scheduled_state] at hc'
    obtain rfl : c = 5 := registered_eq
      (fun d hd => after_take_idle traffic_idle (m := 7) (by decide +kernel) 148 hd)
      (by decide +kernel) hc'
    obtain ⟨p, hp, -⟩ := hc
    rw [h5] at hp
    cases hp
    exact ⟨.message [7, 8], by decide +kernel⟩
  exact (not_dropped mindedTrace (State.init_start traffic_idle)).2 _ _ _ _ hset _ hset.lt le_rfl
    (by decide +kernel) hall

end Slab

end TagAos
