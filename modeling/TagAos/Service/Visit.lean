import TagAos.Service.Lifetime
import TagAos.Tag.Epoch

/-!
# Visits and freed memory

A `tag_send`, a `tag_ctl(TAG_AWAKE_ALL)` and a `dev_read` only visit a tag and some of its
instances.  Memory is freed under them by two parties, the last receiver of an old epoch and a
deletion of the tag.  Whoever holds `tag_lock` is safe from a deletion, and an instance that is
linked, or whose `rcu_lock` somebody holds for reading, is safe from its last receiver
(`Reachable.epochs`).

One exit of `tag_send` breaks the chain: after a message that could not be copied it releases
`rcu_lock` and `tag_lock` before `w_mutex`.  No receiver can free the instance then, for nobody can
set its `ready` any more (`Settled`), but a deletion can (`visit_freed`).  `visits_are_safe` says
that this is the only way to visit memory that has been freed.
-/

set_option autoImplicit false

namespace TagAos.Service

open Conc
open Registry (GetState DeleteState)

/-! ## What an operation accesses

An operation accesses a `tag_t` when it reads or writes one of its fields, or operates on one of the
locks inside of it; and it accesses the instances that its instruction names.  The `tag_lock` of the
descriptor is an array of the module and is never freed. -/

/-- What an operation accesses: a field or a lock of the tag itself, and instances. -/
structure Access where
  tag : Bool
  levels : List Addr

/-- The operation accesses a field or a lock of the tag itself. -/
def touchesTag {π : Type} : Instr π → Bool
  | .downRead (.level _) _ _ | .upRead (.level _) _ | .downWrite (.level _) _ _
  | .tryWrite (.level _) _ _ | .upWrite (.level _) _ | .checkPerm _ _ _ | .loadTagReady _ _
  | .storeTagReady _ _ | .readTagWaiting _ | .incTagWaiting _ | .decTagWaiting _ _
  | .loadLevel _ _ _ | .storeLevel _ _ _ => true
  | _ => false

/-- What the next operation of a call that only visits its tag accesses. -/
def State.visit (s : State) (c : CallId) : Access :=
  match s.thread c with
  | .user _ _ (.send b p) => ⟨touchesTag (sendCode b p), (sendCode b p).touches⟩
  | .user _ _ (.awake e p) => ⟨touchesTag (awakeCode e p), (awakeCode e p).touches⟩
  -- the key and the creator, for the line of the tag
  | .read _ _ (.loadEntry _) => ⟨true, []⟩
  | .read a x p =>
    ⟨touchesTag (readCode a (s.mem.entryOf x) p), (readCode a (s.mem.entryOf x) p).touches⟩
  | _ => ⟨false, []⟩

/-- The next operation of no visit accesses memory that has been freed. -/
structure VisitSafe (s : State) : Prop where
  tag : ∀ c, (s.visit c).tag = true → ∃ y, (s.thread c).entry = some y ∧ s.mem.tagFreed y = 0
  level : ∀ c l, l ∈ (s.visit c).levels → ∃ y, (s.thread c).entry = some y ∧
    (s.mem.obj y).freed l = 0 ∧ s.mem.cleared y l = 0

/-! ## Superseded instances of each tag

`TagAos.Tag.Epoch` says of one tag that an instance is retired before its last receiver frees it: it
has been replaced, and nobody has come to it since.  Here the same is said of every tag, with the
calls of the service as movers. -/

section Epoch

variable {s s' : State} {c : CallId} {m m' : Mem} {d : ℕ} {x x' : Option TagAddr} {y : TagAddr}

/-- What a call that has loaded the tag owns and knows of it. -/
theorem State.annsOn_of_user {tag : ℤ} {t : TagAos.Thread}
    (hc : s.thread c = .user tag (some y) t) : s.annsOn y c = t.ann.inside := by
  rw [State.annsOn, hc]
  exact onTag_self y _

/-- A `dev_read` frees nothing. -/
theorem read_freed {m m' : TagAos.Mem} {a : ReadArgs} {e : Registry.Entry} {p q : ReadState}
    (hx : Exec c m (readCode a e p) m' q) : m'.freed = m.freed := by
  cases p <;> cases hx <;> rfl

/-- An instruction on the tag is executed there. -/
theorem ExecOn.of_inTag {π : Type} {i : Instr π} {p : π} (h : ExecOn c m d x i m' x' p)
    (hi : inTag i = true) :
    ∃ z t, x = some z ∧ x' = some z ∧ m' = m.setObj z t ∧ Exec c (m.obj z) i t p := by
  cases h with
  | tag _ hx h => exact ⟨_, _, hx, hx, rfl, h⟩
  | _ => cases hi

/-- A call keeps its kind. -/
theorem Step.of_user {tag : ℤ} {t' : TagAos.Thread} (hs : Step s c s')
    (hc : s'.thread c = .user tag x' t') : ∃ x t, s.thread c = .user tag x t := by
  cases ht : s.thread c with
  | user tag₀ x₀ t =>
    obtain ⟨m, x₁, t₁, hx, rfl⟩ := hs.user ht
    rw [Config.set_thread_self] at hc; cases hc
    exact ⟨x₀, t, rfl⟩
  | get a₀ x₀ q =>
    obtain ⟨m, x₁, q₁, hx, rfl⟩ := hs.get ht
    rw [Config.set_thread_self] at hc; cases hc
  | delete tag₀ u x₀ i q =>
    obtain ⟨m, x₁, i₁, q₁, hx, rfl⟩ := hs.delete ht
    rw [Config.set_thread_self] at hc; cases hc
  | read a₀ x₀ q =>
    rcases hs.read ht with ⟨o, q₁, hq, rfl⟩ | ⟨m, x₁, q₁, hx, rfl⟩ <;>
    · rw [Config.set_thread_self] at hc; cases hc

/-- A tag in use was allocated before the step. -/
theorem Step.user_lt {f : CallId} {tag : ℤ} {t : TagAos.Thread} (hs : Step s c s')
    (hr : Reachable s) (hf : s'.thread f = .user tag (some y) t) : y < s.mem.brk := by
  have hlt : y < s'.mem.brk := (hr.step hs).bounds.entry f y (by rw [hf]; rfl)
  by_contra hnot
  obtain ⟨a, x, d, hc, rfl⟩ := hs.alloc (lt_of_le_of_lt (not_lt.1 hnot) hlt)
  by_cases hfc : f = c
  · subst hfc
    rw [Config.set_thread_self] at hf; cases hf
  · rw [Config.set_thread_of_ne _ _ _ _ hfc] at hf
    exact hnot (hr.bounds.entry f y (by rw [hf]; rfl))

/-- A step into a point of a receive is an operation of that receive, or the refusal of its
arguments. -/
theorem Step.of_receive {tag : ℤ} {a : ReceiveArgs} {p : ReceiveState} (hs : Step s c s')
    (hc : s'.thread c = .user tag x' (.receive a p)) :
    ∃ x q, s.thread c = .user tag x (.receive a q) ∧ (p = .done (.error EINVAL) ∨
      ExecOn c s.mem tag.toNat x (receiveCode a q) s'.mem x' p) := by
  obtain ⟨x, t, ht⟩ := hs.of_user hc
  cases t with
  | receive a₀ q =>
    rcases hs.receive ht with ⟨-, rfl⟩ | ⟨m, x₁, q₁, hx, rfl⟩ <;>
      rw [Config.set_thread_self] at hc <;> cases hc
    · exact ⟨_, q, ht, .inl rfl⟩
    · exact ⟨x, q, ht, .inr hx⟩
  | send b q =>
    rcases hs.send ht with ⟨-, rfl⟩ | ⟨m, x₁, q₁, hx, rfl⟩ <;>
      rw [Config.set_thread_self] at hc <;> cases hc
  | awake e q =>
    rcases hs.awake ht with ⟨-, rfl⟩ | ⟨m, x₁, q₁, hx, rfl⟩ <;>
      rw [Config.set_thread_self] at hc <;> cases hc

/-- The same for a send. -/
theorem Step.of_send {tag : ℤ} {b : SendArgs} {p : SendState} (hs : Step s c s')
    (hc : s'.thread c = .user tag x' (.send b p)) :
    ∃ x q, s.thread c = .user tag x (.send b q) ∧ (p = .done (-EINVAL) ∨
      ExecOn c s.mem tag.toNat x (sendCode b q) s'.mem x' p) := by
  obtain ⟨x, t, ht⟩ := hs.of_user hc
  cases t with
  | send b₀ q =>
    rcases hs.send ht with ⟨-, rfl⟩ | ⟨m, x₁, q₁, hx, rfl⟩ <;>
      rw [Config.set_thread_self] at hc <;> cases hc
    · exact ⟨_, q, ht, .inl rfl⟩
    · exact ⟨x, q, ht, .inr hx⟩
  | receive a₀ q =>
    rcases hs.receive ht with ⟨-, rfl⟩ | ⟨m, x₁, q₁, hx, rfl⟩ <;>
      rw [Config.set_thread_self] at hc <;> cases hc
  | awake e q =>
    rcases hs.awake ht with ⟨-, rfl⟩ | ⟨m, x₁, q₁, hx, rfl⟩ <;>
      rw [Config.set_thread_self] at hc <;> cases hc

/-- A last receiver learns about its instance inside the tag. -/
theorem ExecOn.epoch {A : CallId → Ann} {a : ReceiveArgs} {q q' : ReceiveState}
    (h : ExecOn c m d x (receiveCode a q) m' (some y) q') (hi : Inv (m.obj y) A)
    (hA : x = some y → A c = (q.ann a.lvl).inside) (hq : x = some y → q.Epoch (m.obj y) A) :
    q'.Epoch (m.obj y) A := by
  by_cases hin : inTag (receiveCode a q) = true
  · obtain ⟨z, t, rfl, hz, -, hx⟩ := h.of_inTag hin
    cases hz
    have hA := hA rfl
    exact ReceiveState.Epoch.succ hi (by rw [hA]; rfl) (by rw [hA]; rfl)
      (fun l md hl => by rw [hA]; exact Ann.mem_inside.2 ⟨hl, by simp⟩) hx (hq rfl)
  · cases q
    case start =>
      rw [receiveCode] at h
      split at h <;> cases h <;> trivial
    case loadTag | unlockTag | done => cases h <;> trivial
    case release rel r => cases rel <;> first | exact absurd rfl hin | (cases h <;> trivial)
    all_goals exact absurd rfl hin

/-- What is known about superseded instances of every tag. -/
structure Epochs (s : State) : Prop where
  /-- Last receivers know what their comparison has told them. -/
  receive : ∀ c tag y a p, s.thread c = .user tag (some y) (.receive a p) →
    p.Epoch (s.mem.obj y) (s.annsOn y)
  /-- An instance is retired before it is freed. -/
  freed : ∀ y < s.mem.brk, ∀ l, (s.mem.obj y).freed l ≠ 0 →
    Retired (s.mem.obj y) (s.annsOn y) l

/-- Only a last receiver frees an instance, and it has the instance retired. -/
theorem Epochs.freed_step (h : Epochs s) (hs : Step s c s')
    (hy : y < s.mem.brk) {l : Addr} (hl : (s'.mem.obj y).freed l ≠ 0) :
    Retired (s.mem.obj y) (s.annsOn y) l := by
  have same : (s'.mem.obj y).freed = (s.mem.obj y).freed →
      Retired (s.mem.obj y) (s.annsOn y) l := fun heq => h.freed y hy l (heq ▸ hl)
  cases hc : s.thread c with
  | get a x p =>
    obtain ⟨m, x', p', hx, rfl⟩ := hs.get hc
    exact same (by rw [Config.set_mem, hx.obj hy])
  | delete tag u x i p =>
    obtain ⟨m, x', i', p', hx, rfl⟩ := hs.delete hc
    exact same (by rw [Config.set_mem, hx.obj])
  | user tag x t =>
    cases t with
    | receive a p =>
      rcases hs.receive hc with ⟨-, rfl⟩ | ⟨m, x', p', hx, rfl⟩
      · exact same rfl
      · rcases hx.obj y with heq | ⟨rfl, hx'⟩
        · exact same (by rw [Config.set_mem, heq])
        · rcases (h.receive c tag y a p hc).freed hx' l hl with hold | hret
          · exact h.freed y hy l hold
          · exact hret
    | send b p =>
      rcases hs.send hc with ⟨-, rfl⟩ | ⟨m, x', p', hx, rfl⟩
      · exact same rfl
      · rcases hx.obj y with heq | ⟨-, hx⟩
        · exact same (by rw [Config.set_mem, heq])
        · exact same (send_freed hx)
    | awake e p =>
      rcases hs.awake hc with ⟨-, rfl⟩ | ⟨m, x', p', hx, rfl⟩
      · exact same rfl
      · rcases hx.obj y with heq | ⟨-, hx⟩
        · exact same (by rw [Config.set_mem, heq])
        · exact same (awake_freed hx)
  | read a x p =>
    rcases hs.read hc with ⟨o, q, hq, rfl⟩ | ⟨m, x', q, hx, rfl⟩
    · exact same rfl
    · rcases hx.obj y with heq | ⟨-, hx⟩
      · exact same (by rw [Config.set_mem, heq])
      · exact same (read_freed hx)

/-- A step keeps the invariant of the epochs on every tag. -/
theorem Epochs.step (hr : Reachable s) (h : Epochs s) (hs : Step s c s') : Epochs s' := by
  constructor
  · intro f tag y a p hp
    have hy := hs.user_lt hr hp
    refine ReceiveState.Epoch.step (hr.tag hy) (hs.changeOn hy)
      (fun d hd => hs.annsOn_of_ne hd y) ?_
    by_cases hfc : f = c
    · subst hfc
      obtain ⟨x, q, ht, rfl | hx⟩ := hs.of_receive hp
      · trivial
      · refine hx.epoch (hr.tag hy) (fun hxy => ?_) fun hxy => h.receive f tag y a q (hxy ▸ ht)
        exact State.annsOn_of_user (hxy ▸ ht)
    · rw [hs.thread_of_ne hfc] at hp
      exact h.receive f tag y a p hp
  · intro y hy l hl
    by_cases hold : y < s.mem.brk
    · exact (h.freed_step hs hold hl).step (hr.tag hold) (hs.changeOn hold)
        fun d hd => hs.annsOn_of_ne hd y
    · obtain ⟨a, x, d, hc, rfl⟩ := hs.alloc (lt_of_le_of_lt (not_lt.1 hold) hy)
      obtain rfl : y = s.mem.brk := le_antisymm (Nat.lt_succ_iff.1 hy) (not_lt.1 hold)
      simp [Mem.newTag, TagAos.Mem.fresh] at hl

theorem Reachable.epochs (h : Reachable s) : Epochs s := by
  refine h.induction (fun s h0 => ?_) fun s c t hr hp hs => hp.step hr hs
  constructor
  · intro c tag y a p hc
    have hnone := h0.entry c
    rw [hc] at hnone
    cases hnone
  · intro y hy
    rw [h0.mem] at hy
    exact absurd hy (Nat.not_lt_zero y)

end Epoch

/-! ## A send that has failed

The order of the three releases after a copy that has failed leaves the send with a mutex and
without `rcu_lock` and `tag_lock`.  What still keeps the instance from a last receiver is that it
has no message and never gets one while the mutex is held. -/

/-- The instance is linked, it has no message, and nobody is going to replace it.  As long as a send
keeps the `w_mutex` of the instance no other one can set its `ready`, and a receiver replaces an
instance only when it finds `ready` set.  So no receiver comes to free it. -/
structure Settled (m : TagAos.Mem) (A : CallId → Ann) (l : Addr) : Prop where
  ready : m.ready l = false
  linked : m.Linked l
  busy : ∀ d, (A d).busy ≠ some l

section Settled

variable {m m' : TagAos.Mem} {A A' : CallId → Ann} {c e : CallId} {l : Addr}

/-- An instance that a reader has found idle, with its mutex in hand, is settled. -/
theorem Settled.of_idle (h : Inv m A) (hi : (A c).idle = some l)
    (hread : (Sem.rcu l, Mode.read) ∈ (A c).held) : Settled m A l where
  ready := h.idle c l hi
  linked := by
    refine (h.superseded c l hread).resolve_right ?_
    rw [h.idle c l hi]
    exact Bool.false_ne_true
  busy d hd := by
    have hready := h.busy d l hd c hread
    rw [h.idle c l hi] at hready
    cases hready

/-- An instance stays settled as long as nobody sets its `ready`. -/
theorem Settled.step (hl : Settled m A l) (h : Inv m A) (hc : Change e m (A e) (A' e) m')
    (ho : ∀ d, d ≠ e → A' d = A d)
    (harm : (A e).idle = some l → (A e).mutex = some l → m'.ready l = false) :
    Settled m' A' l := by
  have hlt : l < m.brk := by
    obtain ⟨i, hi⟩ := hl.linked
    exact (h.table i l hi).1
  have frame : ((A' e).busy = none ∨ (A' e).busy = (A e).busy) → ∀ d, (A' d).busy ≠ some l :=
    fun hk d hd => hl.busy d (Inv.frame_opt (f := Ann.busy) ho hk hd)
  cases hc
  case armed y hi hm hrcu keep =>
    refine ⟨?_, hl.linked, frame keep.busy⟩
    by_cases hy : l = y
    · subst hy; exact harm hi hm
    · simpa [hy] using hl.ready
  case sawReady y hy keep =>
    refine ⟨hl.ready, hl.linked, fun d hd => ?_⟩
    by_cases hde : d = e
    · subst hde
      rcases keep.busy with hk | hk
      · rw [hk] at hd; cases hd
      · rw [hk] at hd; cases hd
        rw [hl.ready] at hy; cases hy
    · rw [ho d hde] at hd
      exact hl.busy d hd
  case reset y hrcu keep =>
    refine ⟨?_, hl.linked, frame keep.busy⟩
    by_cases hy : l = y
    · subst hy; simp
    · simpa [hy] using hl.ready
  case linked j y lock hy keep =>
    refine ⟨hl.ready, ?_, frame (.inl (keep.busy.elim id id))⟩
    obtain ⟨i, hi⟩ := hl.linked
    refine ⟨i, ?_⟩
    by_cases hij : i = j
    · subst hij
      rcases hy with ⟨-, -, z, hz, hbusy⟩ | hlink
      · obtain rfl : z = l := Option.some.inj ((h.link e i z hz).symm.trans hi)
        exact absurd hbusy (hl.busy e)
      · obtain rfl : y = l := Option.some.inj ((h.link e i y hlink).symm.trans hi)
        simp
    · simpa [hij] using hi
  case created j ep hf keep =>
    refine ⟨?_, hl.linked, frame keep.busy⟩
    have hne : l ≠ m.brk := ne_of_lt hlt
    simpa [TagAos.Mem.createLevel, hne] using hl.ready
  case' interrupted y hy keep => have keep := keep (h.fresh_ne hy)
  all_goals
    rename_i keep
    exact ⟨hl.ready, hl.linked, frame keep.busy⟩

end Settled

/-- The instance whose mutex a send has still to release after its copy has failed. -/
def failed : SendState → Option Addr
  | .faultUnlockRcu l | .faultUnlockTag l | .faultUnlockMutex l => some l
  | _ => none

section Failed

variable {s s' : State} {c : CallId} {y : TagAddr} {l : Addr}

theorem failed_mutex {p : SendState} (i : ℕ) (h : failed p = some l) :
    (p.ann i).mutex = some l ∧ (p.ann i).idle = none := by
  cases p <;> cases h <;> exact ⟨rfl, rfl⟩

/-- How a send comes to fail. -/
theorem failed_succ {b : SendArgs} {m m' : Mem} {d : ℕ} {x x' : Option TagAddr}
    {q p : SendState} (h : ExecOn c m d x (sendCode b q) m' x' p) (hp : failed p = some l) :
    x' = x ∧ (failed q = some l ∨ q = .copy l ∧ ∀ y, (m'.obj y).ready = (m.obj y).ready) := by
  cases q
  case start =>
    rw [sendCode] at h
    split at h <;> cases h <;> first | cases hp | contradiction
  case copy z =>
    have hready : ∀ y, (m'.obj y).ready = (m.obj y).ready := fun y => by
      rcases h.obj y with heq | ⟨-, hx⟩
      · rw [heq]
      · generalize m'.obj y = t at hx ⊢
        cases hx <;> rfl
    obtain ⟨w, t, rfl, rfl, -, hx⟩ := h.of_inTag rfl
    cases hx
    · cases hp
    · cases hp; exact ⟨rfl, .inr ⟨rfl, hready⟩⟩
  case testTagWaiting | testWaiting | unlockMutex =>
    obtain ⟨w, t, rfl, rfl, -, hx⟩ := h.of_inTag rfl
    cases hx
    beta_reduce at hp
    split_ifs at hp <;> cases hp
  all_goals
    cases h <;> first
      | exact ⟨rfl, .inl hp⟩
      | cases hp
      | (rename_i h; cases h <;> first | exact ⟨rfl, .inl hp⟩ | cases hp)

/-- **Nobody replaces the instance of a send that has failed.** -/
theorem Reachable.settled (h : Reachable s) {tag : ℤ} {b : SendArgs} {p : SendState}
    (hc : s.thread c = .user tag (some y) (.send b p)) (hp : failed p = some l) :
    Settled (s.mem.obj y) (s.annsOn y) l := by
  refine h.induction (P := fun s => ∀ c tag b p, s.thread c = .user tag (some y) (.send b p) →
    failed p = some l → Settled (s.mem.obj y) (s.annsOn y) l) (fun s h0 c tag b p hc hp => ?_)
    (fun s f t hr ih hs c tag b p hc hp => ?_) c tag b p hc hp
  · have hnone := h0.entry c
    rw [hc] at hnone
    cases hnone
  · have hy := hs.user_lt hr hc
    have hinv := hr.tag hy
    have hstep := fun hl harm => Settled.step (l := l) hl hinv (hs.changeOn hy)
      (fun d hd => hs.annsOn_of_ne hd y) harm
    by_cases hcf : c = f
    · subst hcf
      obtain ⟨x, q, ht, rfl | hx⟩ := hs.of_send hc
      · cases hp
      · obtain ⟨rfl, hq | ⟨rfl, hready⟩⟩ := failed_succ hx hp
        · refine hstep (ih c tag b q ht hq) fun hi => ?_
          rw [State.annsOn_of_user ht] at hi
          exact absurd (hi.symm.trans (failed_mutex b.lvl hq).2) (Option.some_ne_none l)
        · have hset : Settled (s.mem.obj y) (s.annsOn y) l := by
            refine Settled.of_idle hinv (c := c) ?_ ?_
            · rw [State.annsOn_of_user ht]
              rfl
            · rw [State.annsOn_of_user ht]
              exact Ann.mem_inside.2 ⟨by simp [TagAos.Thread.ann, SendState.ann], by simp⟩
          refine hstep hset fun _ _ => ?_
          rw [hready]
          exact hset.ready
    · have ht := hc
      rw [hs.thread_of_ne hcf] at ht
      refine hstep (ih c tag b p ht hp) fun _ hm => absurd ?_ hcf
      -- the mutex is in the hands of the send
      refine hinv.mutex_unique hm ?_
      rw [State.annsOn_of_user ht]
      exact (failed_mutex b.lvl hp).1

/-! ## Visits

Each operation of a visit accesses what the call has protected by a lock, with the one exception of
the release of `w_mutex` after a failed copy.  The condition of `visits_are_safe` is about the
deletion that meets this exception, in the state before the deletion frees the instance. -/

/-- What keeps an instance from being freed. -/
def Protects (a : Ann) (l : Addr) : Prop :=
  a.holdsTag = true ∧ ((∃ i, a.link = some (i, l)) ∨ (Sem.rcu l, Mode.read) ∈ a.held)

/-- Every access of a send to its tag or to an instance is made under `tag_lock` and under what
protects the instance, but for one: the release of the mutex after a copy that has failed. -/
theorem send_access {b : SendArgs} {p : SendState} :
    (touchesTag (sendCode b p) = true →
      working (.send b p) = true ∧ (p.ann b.lvl).holdsTag = true) ∧
    ∀ l, l ∈ (sendCode b p).touches → working (.send b p) = true ∧
      (Protects (p.ann b.lvl) l ∨ p = .faultUnlockMutex l) := by
  cases p
  case start =>
    rw [sendCode]
    split <;> simp [touchesTag, Instr.touches]
  all_goals
    simp [sendCode, touchesTag, Instr.touches, working, Protects, SendState.ann, Ann.holdsTag]

/-- Every access of an `AWAKE_ALL` command is protected. -/
theorem awake_access {e : ℕ} {p : AwakeState} :
    (touchesTag (awakeCode e p) = true →
      working (.awake e p) = true ∧ p.ann.holdsTag = true) ∧
    ∀ l, l ∈ (awakeCode e p).touches → working (.awake e p) = true ∧ Protects p.ann l := by
  cases p
  all_goals
    simp [awakeCode, touchesTag, Instr.touches, working, Protects, AwakeState.ann, Ann.holdsTag]

/-- Every access of a `dev_read` is protected. -/
theorem read_access {a : ReadArgs} {e : Registry.Entry} {p : ReadState} :
    (touchesTag (readCode a e p) = true → p.working = true ∧ p.ann.holdsTag = true) ∧
    ∀ l, l ∈ (readCode a e p).touches → p.working = true ∧ Protects p.ann l := by
  cases p
  all_goals
    simp [readCode, touchesTag, Instr.touches, ReadState.working, Protects, ReadState.ann,
      Ann.holdsTag]

/-- A visit accesses the tag that it has loaded under its `tag_lock`. -/
theorem State.visit_tag (h : (s.visit c).tag = true) :
    (s.thread c).working = true ∧ (s.thread c).ann.holdsTag = true := by
  cases hc : s.thread c with
  | user tag x t =>
    cases t with
    | receive a p => simp [State.visit, hc] at h
    | send b p =>
      simp only [State.visit, hc] at h
      exact send_access.1 h
    | awake e p =>
      simp only [State.visit, hc] at h
      exact awake_access.1 h
  | read a x p =>
    cases p
    case loadEntry v => exact ⟨rfl, rfl⟩
    all_goals
      simp only [State.visit, hc] at h
      exact read_access.1 h
  | get | delete => simp [State.visit, hc] at h

/-- A visit accesses an instance that something protects, unless it is a send that has failed. -/
theorem State.visit_level (h : l ∈ (s.visit c).levels) :
    (s.thread c).working = true ∧ (Protects (s.thread c).ann l ∨
      ∃ tag x b, s.thread c = .user tag x (.send b (.faultUnlockMutex l))) := by
  cases hc : s.thread c with
  | user tag x t =>
    cases t with
    | receive a p => simp [State.visit, hc] at h
    | send b p =>
      simp only [State.visit, hc] at h
      obtain ⟨hw, hp | rfl⟩ := send_access.2 l h
      · exact ⟨hw, .inl hp⟩
      · exact ⟨hw, .inr ⟨tag, x, b, rfl⟩⟩
    | awake e p =>
      simp only [State.visit, hc] at h
      exact (awake_access.2 l h).imp_right .inl
  | read a x p =>
    cases p
    case loadEntry v => simp [State.visit, hc] at h
    all_goals
      simp only [State.visit, hc] at h
      exact (read_access.2 l h).imp_right .inl
  | get | delete => simp [State.visit, hc] at h

/-- Who holds `tag_lock` of a tag that it has loaded uses the tag. -/
theorem uses_of_holdsTag {t : Thread} (hx : t.entry = some y) (h : t.ann.holdsTag = true) :
    ∃ d, t.uses = some (d, y) := by
  cases t with
  | user tag x t =>
    cases hx
    exact ⟨_, if_pos h⟩
  | read a x p =>
    cases hx
    exact ⟨_, if_pos h⟩
  | get | delete => cases h

/-- An instance that somebody protects has not been freed. -/
theorem Reachable.not_freed_of_protects (h : Reachable s) (hx : (s.thread c).entry = some y)
    (hp : Protects (s.thread c).ann l) : (s.mem.obj y).freed l = 0 ∧ s.mem.cleared y l = 0 := by
  obtain ⟨d, hu⟩ := uses_of_holdsTag hx hp.1
  refine ⟨?_, (h.not_freed_of_uses hu).2 l⟩
  have hy := h.bounds.entry c y hx
  have hann : s.annsOn y c = (s.thread c).ann.inside := by
    rw [State.annsOn, hx]
    exact onTag_self y _
  by_contra hne
  have hret := h.epochs.freed y hy l hne
  rcases hp.2 with ⟨i, hi⟩ | hread
  · refine hret.unlinked ⟨i, (h.tag hy).link c i l ?_⟩
    rw [hann]
    exact hi
  · refine hret.reader c ?_
    rw [hann]
    exact Ann.mem_inside.2 ⟨hread, by simp⟩

/-- The condition on a step: a deletion does not free an instance whose mutex a send has still to
release after it has given back `tag_lock`. -/
def SparesMutex (s : State) (c : CallId) : Prop :=
  ∀ tag u y i e l, s.thread c = .delete tag u (some y) i (.freeTag e) → i < levels →
    (s.mem.obj y).tagLevel i = some l →
    ∀ d tag' b, s.thread d ≠ .user tag' (some y) (.send b (.faultUnlockMutex l))

/-- A deletion frees the instances its tag points to. -/
theorem Step.clears (hs : Step s c s') (hl : s'.mem.cleared y l ≠ s.mem.cleared y l) :
    ∃ tag u i e, s.thread c = .delete tag u (some y) i (.freeTag e) ∧ i < levels ∧
      (s.mem.obj y).tagLevel i = some l := by
  have same : s'.mem.cleared = s.mem.cleared → False := fun heq => hl (by rw [heq])
  cases hc : s.thread c with
  | get a x p =>
    obtain ⟨m, x', p', hx, rfl⟩ := hs.get hc
    cases hx <;> exact (same rfl).elim
  | delete tag u x i p =>
    obtain ⟨m, x', i', p', hx, rfl⟩ := hs.delete hc
    cases hx with
    | @clearLevel e z hz hi =>
      subst hz
      rw [Config.set_mem, Mem.clearLevel] at hl
      split at hl
      · exact absurd rfl hl
      · rename_i w hw
        by_cases hy : y = z
        · subst hy
          by_cases hlw : l = w
          · subst hlw; exact ⟨tag, u, i, e, rfl, hi, hw⟩
          · simp [hlw] at hl
        · simp [hy] at hl
    | _ => exact (same rfl).elim
  | user tag x t =>
    obtain ⟨m, x', t', hx, rfl⟩ := hs.user hc
    exact (same hx.frame.cleared).elim
  | read a x p =>
    rcases hs.read hc with ⟨o, q, hq, rfl⟩ | ⟨m, x', q, hx, rfl⟩
    · exact (same rfl).elim
    · exact (same hx.frame.cleared).elim

/-- The send comes to the unprotected access from the release of `tag_lock`, with its tag as it was.
-/
theorem faultUnlockMutex_succ {b : SendArgs} {m m' : Mem} {d : ℕ} {x x' : Option TagAddr}
    {q : SendState} (h : ExecOn c m d x (sendCode b q) m' x' (.faultUnlockMutex l)) :
    q = .faultUnlockTag l ∧ x' = x := by
  obtain ⟨hx, hq | ⟨rfl, -⟩⟩ := failed_succ h rfl
  · refine ⟨?_, hx⟩
    cases q
    case faultUnlockTag => cases hq; rfl
    case faultUnlockRcu | faultUnlockMutex =>
      obtain ⟨w, t, -, -, -, hexec⟩ := h.of_inTag rfl
      cases hexec
    all_goals cases hq
  · obtain ⟨w, t, -, -, -, hexec⟩ := h.of_inTag rfl
    cases hexec

/-- The instance whose mutex a send has still to release has not been freed by a deletion. -/
theorem spared_of_run {s₀ : State} (h0 : Init s₀) (h : RunUnder Step SparesMutex s₀ s)
    {tag : ℤ} {b : SendArgs} (hc : s.thread c = .user tag (some y) (.send b (.faultUnlockMutex l))) :
    s.mem.cleared y l = 0 := by
  refine h.invariant_run (P := fun s => ∀ c tag b,
    s.thread c = .user tag (some y) (.send b (.faultUnlockMutex l)) → s.mem.cleared y l = 0)
    (fun c tag b hc => ?_) (fun u f v hu ih hg hs c tag b hc => ?_) c tag b hc
  · have hnone := h0.entry c
    rw [hc] at hnone
    cases hnone
  · by_cases hcf : c = f
    · subst hcf
      obtain ⟨x, q, ht, hq | hx⟩ := hs.of_send hc
      · cases hq
      · obtain ⟨rfl, rfl⟩ := faultUnlockMutex_succ hx
        rw [congrFun (congrFun hx.frame.cleared y) l]
        have hr : Reachable u := ⟨s₀, h0, hu.run⟩
        obtain ⟨d, hd⟩ := uses_of_holdsTag (t := u.thread c) (y := y) (by rw [ht]; rfl)
          (by rw [ht]; rfl)
        exact (hr.not_freed_of_uses hd).2 l
    · rw [hs.thread_of_ne hcf] at hc
      by_contra hne
      rw [← ih c tag b hc] at hne
      obtain ⟨tag', u', i, e, hf, hi, hlevel⟩ := hs.clears hne
      exact hg tag' u' y i e l hf hi hlevel c tag b hc

/-- Every access is safe in a run whose steps meet the condition. -/
theorem visitSafe_of_run {s₀ : State} (h0 : Init s₀) (h : RunUnder Step SparesMutex s₀ s) :
    VisitSafe s := by
  have hr : Reachable s := ⟨s₀, h0, h.run⟩
  constructor
  · intro c hc
    obtain ⟨hw, hheld⟩ := State.visit_tag hc
    obtain ⟨y, hy⟩ := Option.ne_none_iff_exists'.1 (hr.loaded c hw)
    obtain ⟨d, hu⟩ := uses_of_holdsTag hy hheld
    exact ⟨y, hy, (hr.not_freed_of_uses hu).1⟩
  · intro c l hl
    obtain ⟨hw, hp⟩ := State.visit_level hl
    obtain ⟨y, hy⟩ := Option.ne_none_iff_exists'.1 (hr.loaded c hw)
    refine ⟨y, hy, ?_⟩
    rcases hp with hp | ⟨tag, x, b, hc⟩
    · exact hr.not_freed_of_protects hy hp
    · rw [hc] at hy
      obtain rfl : x = some y := hy
      refine ⟨?_, spared_of_run h0 h hc⟩
      by_contra hne
      have hlt := hr.bounds.entry c y (by rw [hc]; rfl)
      exact (hr.epochs.freed y hlt l hne).unlinked (hr.settled hc rfl).linked

/-- A step that meets no condition makes the next operation of a send access freed memory. -/
theorem Step.not_visitSafe (hs : Step s c s') (hg : ¬ SparesMutex s c) : ¬ VisitSafe s' := by
  intro hsafe
  simp only [SparesMutex, not_forall, not_not] at hg
  obtain ⟨tag, u, y, i, e, l, hc, hi, hlevel, d, tag', b, hd⟩ := hg
  have hdc : d ≠ c := by
    rintro rfl
    rw [hc] at hd
    cases hd
  have hd' : s'.thread d = .user tag' (some y) (.send b (.faultUnlockMutex l)) := by
    rw [hs.thread_of_ne hdc, hd]
  obtain ⟨z, hz, -, hcleared⟩ := hsafe.level d l
    (by simp [State.visit, hd', sendCode, Instr.touches])
  rw [hd'] at hz
  cases hz
  obtain ⟨m, x', i', p', hx, rfl⟩ := hs.delete hc
  cases hx with
  | clearLevel hy _ =>
    cases hy
    simp [Mem.clearLevel, hlevel] at hcleared
  | freeTag _ hnot => exact hnot hi
  | registry hon => cases hon

/-- **Visits do not touch freed memory** in the runs in which no deletion frees an instance whose
mutex a send still has; a step that is not like this leads at once to a send whose next operation
is on freed memory. -/
theorem visits_are_safe {s₀ : State} (h0 : Init s₀) :
    (∀ s, RunUnder Step SparesMutex s₀ s → VisitSafe s) ∧
    ∀ s c s', Run Step s₀ s → Step s c s' → ¬ SparesMutex s c → ¬ VisitSafe s' :=
  ⟨fun _ h => visitSafe_of_run h0 h, fun _ _ _ _ hs hg => hs.not_visitSafe hg⟩

end Failed

/-! ## A mutex that has been freed

Four calls suffice, one of each kind.  The receive has to leave first, for a deletion gives way to
the calls that use the tag. -/

/-- A creation (call 0), a receive (call 1), a send whose message cannot be copied (call 2) and a
deletion. -/
def failing : CallId → Thread
  | 0 => .get ⟨5, Registry.tagCreat, Registry.tagPermAll, 0⟩ none .start
  | 1 => .user 0 none (.receive ⟨0, true, 2, 0⟩ .start)
  | 2 => .user 0 none (.send ⟨0, some [], 3, 0⟩ .start)
  | _ => .delete 0 0 none 0 .start

theorem failing_init : Init (State.start failing) where
  mem := rfl
  idle c := by
    show (failing c).idle = true
    unfold failing
    split <;> rfl
  entry c := by
    show (failing c).entry = none
    unfold failing
    split <;> rfl

/-- The receive is asleep, and the send has failed and given back `tag_lock`; then the receive is
interrupted and returns. -/
def leaving : List (CallId × Outcome) :=
  goes 0 39 ++ goes 1 15 ++ goes 2 11 ++ [(2, .fault 0)] ++ goes 2 2 ++ signalled 1 ++ goes 1 15

/-- The deletion has freed the instance of level 0, whose mutex the send is about to release. -/
def unlocking : State := (State.start failing).after (leaving ++ goes 3 11)

/-- In the state `unlocking` the tag has been deleted and its instances freed, and the next
operation of the send releases a mutex in one of them. -/
theorem visit_freed : ¬ ∀ s, Reachable s → VisitSafe s := by
  intro h
  obtain ⟨y, hy, -, hcleared⟩ := (h unlocking ⟨_, failing_init, run_after _ _⟩).level 2 0
    (by decide +kernel)
  have hentry : (unlocking.thread 2).entry = some 0 := by decide +kernel
  rw [hentry] at hy
  cases hy
  revert hcleared
  decide +kernel

/-- A test for `SparesMutex` when only the calls below `n` have begun. -/
def sparesMutex (n : ℕ) (s : State) (c : CallId) : Bool :=
  match s.thread c with
  | .delete _ _ (some y) i (.freeTag _) =>
    (List.range n).all fun d => match s.thread d with
      | .user _ (some z) (.send _ (.faultUnlockMutex l)) =>
        z != y || (s.mem.obj y).tagLevel i != some l
      | _ => true
  | _ => true

theorem sparesMutex_sound {n : ℕ} (s : State) (c : CallId)
    (hidle : ∀ d, n ≤ d → (s.thread d).idle = true) (h : sparesMutex n s c = true) :
    SparesMutex s c := by
  intro tag u y i e l hc hi hlevel d tag' b hd
  by_cases hn : d < n
  · simp only [sparesMutex, hc, List.all_eq_true, List.mem_range] at h
    have := h d hn
    simp [hd, hlevel] at this
  · have := hidle d (not_lt.1 hn)
    rw [hd] at this
    cases this

/-- The send releases its mutex before the deletion comes. -/
theorem visits_are_safe_unlocked :
    ((State.start failing).after (leaving ++ goes 2 1 ++ goes 3 43)).mem.tagFreed 0 = 1 ∧
      VisitSafe ((State.start failing).after (leaving ++ goes 2 1 ++ goes 3 43)) := by
  have hcalls : ∀ x ∈ leaving ++ goes 2 1 ++ goes 3 43, x.1 < 4 := by decide +kernel
  refine ⟨by decide +kernel, (visits_are_safe failing_init).1 _ ?_⟩
  refine runUnder_after (P := fun s => ∀ d, 4 ≤ d → (s.thread d).idle = true) sparesMutex_sound
    (fun x hx u t hu ht d hd => ?_) (fun d _ => failing_init.idle d) (by decide +kernel)
  have hs : Step u x.1 t := ⟨x.2, ht⟩
  rw [hs.thread_of_ne (ne_of_gt (lt_of_lt_of_le (hcalls x hx) hd))]
  exact hu d hd

end TagAos.Service
