import TagAos.Conc.Simulation
import TagAos.Service.Permission
import TagAos.Service.Visit

/-!
# Each tag by itself

`TagAos.Tag.System` follows the calls on one tag that is there from the beginning and is never
deleted.  Here every tag of the service is shown to be such a tag (`OnTag.step`, `tag_refines`).  A
call that has loaded the tag is at the point the service has it at; every other call has not begun.
When a call loads the tag, it makes its first two steps there at once.

A `dev_read` has no counterpart.  It takes locks of the tag, but only for reading, so what the
others can do with it around they can also do without it (`exec_view`), except one thing: the last
receiver of an instance may find the `rcu_lock` taken.  It tries again then, which changes nothing.
-/

set_option autoImplicit false

namespace TagAos

open Conc

/-! ## A tag without some of its readers

The calls in `U` hold locks of the tag for reading and change nothing.  If they were not there,
every other operation would go the same way, but for a trylock or an acquisition that fails because
of them.  So a state with such readers is related to the one without them, and they need no
counterpart. -/

/-- The memory of a tag as it would be without the readers in `U`, with `r` for its `tag_lock`. -/
def Mem.view (m : Mem) (U : CallId → Bool) (r : RwSem CallId) : Mem :=
  { m with sem := fun l => if l = .tag then r else (m.sem l).without U }

section View

variable {π : Type} {m m' : Mem} {U : CallId → Bool} {r : RwSem CallId} {c : CallId}

@[simp] theorem Mem.view_sem_tag : (m.view U r).sem .tag = r := rfl

theorem Mem.view_sem {l : Sem} (hl : l ≠ .tag) : (m.view U r).sem l = (m.sem l).without U :=
  if_neg hl

/-- What happens to a semaphore of the tag. -/
theorem Mem.view_update {l : Sem} (hl : l ≠ .tag) (v : RwSem CallId) :
    Mem.view { m with sem := Function.update m.sem l v } U r =
      { m.view U r with sem := Function.update (m.view U r).sem l (v.without U) } := by
  simp only [Mem.view, Mem.mk.injEq, true_and]
  refine ⟨funext fun k => ?_, trivial⟩
  by_cases hk : k = l
  · subst hk; simp [hl]
  · simp [hk]

/-- What happens to `tag_lock`. -/
theorem Mem.view_update_tag (v : RwSem CallId) :
    { m.view U r with sem := Function.update (m.view U r).sem .tag v } = m.view U v := by
  simp only [Mem.view, Mem.mk.injEq, true_and]
  refine ⟨funext fun k => ?_, trivial⟩
  by_cases hk : k = .tag
  · subst hk; simp
  · simp [hk]

/-- Whether an acquisition may be interrupted is seen in the view, for every lock but `tag_lock`. -/
theorem Mem.mayInterrupt_view {l : Sem} (hl : l ≠ .tag) :
    (m.view U r).mayInterrupt l = m.mayInterrupt l := by
  cases l with
  | rcu a => rw [mayInterrupt, mayInterrupt, Mem.view_sem hl, RwSem.isExclusive_without]
  | tag | level => rfl

/-- A new instance is seen in the view. -/
theorem Mem.view_createLevel (i : ℕ) (e : ℤ) :
    (m.createLevel i e).view U r = (m.view U r).createLevel i e := by
  simp only [Mem.view, Mem.createLevel, Mem.mk.injEq, true_and]
  refine ⟨funext fun k => ?_, trivial⟩
  by_cases hk : k = .rcu m.brk
  · subst hk; simp [RwSem.free, RwSem.without]
  · simp [hk]

/-- The instruction tries to acquire a semaphore and finds it taken. -/
def Busy (m m' : Mem) (i : Instr π) (p : π) : Prop :=
  ∃ l ok, i = .tryWrite l ok p ∧ m' = m

/-- **A tag without readers that only look on.**  What a call outside of `U` does to the tag, it
also does to the tag without the readers in `U`, unless it finds a semaphore taken. -/
theorem exec_view {i : Instr π} {o : Outcome} {p : π} (hi : Service.inTag i = true)
    (hc : U c = false) (h : exec c m i o = some (m', p)) :
    exec c (m.view U r) i o = some (m'.view U r, p) ∨ Busy m m' i p := by
  have other : ∀ {l : Sem}, l ≠ .tag → (m.view U r).sem l = (m.sem l).without U := Mem.view_sem
  cases i <;> cases o <;>
    simp only [exec, Option.map_eq_some_iff, Option.some.injEq, Prod.mk.injEq,
      reduceCtorEq] at h
  case downRead.go l ok intr =>
    obtain ⟨v, hv, rfl, rfl⟩ := h
    have hl : l ≠ .tag := by rintro rfl; cases hi
    left
    simp only [exec, other hl, RwSem.downRead_without hc, hv, Option.map_some, Mem.view_update hl]
  case upRead.go l q =>
    obtain ⟨rfl, rfl⟩ := h
    have hl : l ≠ .tag := by rintro rfl; cases hi
    left
    simp only [exec, other hl, Mem.view_update hl, RwSem.upRead_without]
  case downWrite.go l ok intr =>
    obtain ⟨v, hv, rfl, rfl⟩ := h
    have hl : l ≠ .tag := by rintro rfl; cases hi
    left
    simp only [exec, other hl, RwSem.downWrite_without hv, Option.map_some, Mem.view_update hl]
  case tryWrite.go l ok busy =>
    have hl : l ≠ .tag := by rintro rfl; cases hi
    split at h
    · rename_i v hv
      cases h
      left
      simp only [exec, other hl, RwSem.downWrite_without hv, Mem.view_update hl]
    · cases h
      exact .inr ⟨l, ok, rfl, rfl⟩
  case upWrite.go l q =>
    obtain ⟨rfl, rfl⟩ := h
    have hl : l ≠ .tag := by rintro rfl; cases hi
    left
    simp only [exec, other hl, Mem.view_update hl, RwSem.upWrite_without]
  case downRead.signal l ok intr | downWrite.signal l ok intr =>
    have hl : l ≠ .tag := by rintro rfl; cases hi
    left
    split at h
    · rename_i hw
      cases h
      exact if_pos ((Mem.mayInterrupt_view hl).trans hw)
    · cases h
  case createLevel.go i e failed ok =>
    obtain ⟨rfl, rfl⟩ := h
    exact .inl (by rw [exec, Mem.view_createLevel]; rfl)
  case loadTags.go => cases hi
  case tryMutex.go | loadLevel.go =>
    left
    split at h <;>
    · rename_i hm
      cases h
      simp [exec, Mem.view, hm]
  case copyFromUser.go | copyFromUser.fault | copyToUser.fault =>
    left
    split at h
    · rename_i hn
      cases h
      simp [exec, Mem.view, hn]
    · cases h
  case schedule.go =>
    left
    split at h
    · cases h
    · rename_i hn
      cases h
      simp [exec, Mem.view, hn]
  all_goals
    obtain ⟨rfl, rfl⟩ := h
    exact .inl rfl

/-- What a reader in `U` does to a semaphore cannot be seen. -/
theorem Mem.view_update_same {l : Sem} {v : RwSem CallId}
    (hv : l ≠ .tag → v.without U = (m.sem l).without U) :
    Mem.view { m with sem := Function.update m.sem l v } U r = m.view U r := by
  simp only [Mem.view, Mem.mk.injEq, true_and]
  refine ⟨funext fun k => ?_, trivial⟩
  by_cases hk : k = l
  · subst hk
    by_cases ht : k = .tag
    · simp [ht]
    · simp [ht, hv ht]
  · simp [hk]

theorem Exec.tags {i : Instr π} {p : π} (h : Exec c m i m' p) : m'.tags = m.tags := by
  cases h <;> rfl

/-- The tag is there in every state. -/
theorem Reachable.tags {s : State} (h : Reachable s) : s.mem.tags = true := by
  obtain ⟨s₀, h0, hr⟩ := h
  refine hr.invariant (P := fun s => s.mem.tags = true) ?_ fun u c v hu _ hs => ?_
  · obtain ⟨permission, euid, hm⟩ := h0.mem
    rw [hm]
    rfl
  · obtain ⟨m, p, hx, rfl⟩ := hs.exec
    exact hx.tags.trans hu

end View

/-! ## Before and while a call loads its tag

In the system of one tag a call is on the tag from its first operation on.  In the service it has
not decided on a tag before it loads the pointer: until then it could come to be on any tag that the
descriptor has by that time. -/

namespace Thread

/-- The call as it was before it began. -/
def before : Thread → Thread
  | receive a _ => receive a .start
  | send b _ => send b .start
  | awake e _ => awake e .start

/-- The call holds `tag_lock` and is about to load the tag. -/
def loading : Thread → Bool
  | receive _ .loadTag | send _ .loadTag | awake _ .loadTag => true
  | _ => false

/-- The input check. -/
def valid : Thread → Bool
  | receive a _ => a.valid
  | send b _ => b.valid
  | awake _ _ => true

/-- A call that is about to load its tag has made one step. -/
theorem code_before {t : Thread} (h : t.loading = true) (hv : t.valid = true) :
    ∃ intr, t.before.code = .downRead .tag t intr := by
  cases t with
  | receive a p =>
    cases p <;> cases h
    rw [valid] at hv
    exact ⟨_, by simp only [before, code, receiveCode, hv, if_true, Instr.map]; rfl⟩
  | send b p =>
    cases p <;> cases h
    rw [valid] at hv
    exact ⟨_, by simp only [before, code, sendCode, hv, if_true, Instr.map]; rfl⟩
  | awake e p =>
    cases p <;> cases h
    exact ⟨_, rfl⟩

/-- Only a call that begins acquires `tag_lock`. -/
theorem idle_of_downRead {t ok intr : Thread} (h : t.code = .downRead .tag ok intr) :
    t.idle = true ∧ ok.loading = true ∧ ok.valid = true := by
  cases t with
  | receive a p =>
    cases p
    case start =>
      simp only [code, receiveCode] at h
      split at h
      · rename_i hv
        cases h
        exact ⟨rfl, rfl, hv⟩
      · cases h
    case release rel res => cases rel <;> cases h
    all_goals cases h
  | send b p =>
    cases p
    case start =>
      simp only [code, sendCode] at h
      split at h
      · rename_i hv
        cases h
        exact ⟨rfl, rfl, hv⟩
      · cases h
    all_goals cases h
  | awake e p =>
    cases p
    case start => cases h; exact ⟨rfl, rfl, rfl⟩
    all_goals cases h

/-- Only a call that has just begun loads a tag. -/
theorem loading_of_loadTags {t null found : Thread} (h : t.code = .loadTags null found) :
    t.loading = true := by
  cases t with
  | receive a p =>
    cases p
    case start =>
      simp only [code, receiveCode] at h
      split at h <;> cases h
    case release rel res => cases rel <;> cases h
    case loadTag => rfl
    all_goals cases h
  | send b p =>
    cases p
    case start =>
      simp only [code, sendCode] at h
      split at h <;> cases h
    case loadTag => rfl
    all_goals cases h
  | awake e p =>
    cases p
    case loadTag => rfl
    all_goals cases h

/-- Whoever finds a semaphore taken tries again. -/
theorem eq_of_busy {t p : Thread} {m m' : Mem} (h : Busy m m' t.code p) : p = t := by
  obtain ⟨l, ok, ht, -⟩ := h
  cases t with
  | receive a q =>
    cases q
    case start =>
      simp only [code, receiveCode] at ht
      split at ht <;> cases ht
    case release rel res => cases rel <;> cases ht
    case tryLock l r => cases ht; rfl
    all_goals cases ht
  | send b q =>
    cases q
    case start =>
      simp only [code, sendCode] at ht
      split at ht <;> cases ht
    all_goals cases ht
  | awake e q => cases q <;> cases ht

end Thread

end TagAos

namespace TagAos.Service

open Conc

section Moves

variable {c : CallId} {m m' : Mem} {d : ℕ} {x x' : Option TagAddr} {t t' : TagAos.Thread}
  {o : Outcome}

theorem before_of_execOn (h : execOn c m d x t.code o = some (m', x', t')) :
    t'.before = t.before := by
  cases t <;>
  · simp only [Thread.code, execOn_map, Option.map_eq_some_iff] at h
    obtain ⟨⟨_, _, _⟩, -, heq⟩ := h
    cases heq
    rfl

/-- A receive never goes back to its first point, and loads its tag once, after its arguments have
been checked. -/
theorem receive_begun {a : ReceiveArgs} {p p' : ReceiveState}
    (h : ExecOn c m d x (receiveCode a p) m' x' p') :
    p' ≠ .start ∧ (p' = .loadTag → p = .start ∧ x' = none ∧ a.valid = true) := by
  cases p
  case start =>
    rw [receiveCode] at h
    split at h
    · rename_i hv
      cases h <;> first | contradiction | simp [hv]
    · cases h <;> first | contradiction | simp
  case condTagReady l pending => cases pending <;> rcases h.next with rfl | rfl <;> simp
  case readSize l =>
    obtain ⟨n, rfl⟩ := h.next
    rw [ReceiveState.afterSize]
    split <;> simp
  case leave rel r => cases rel <;> rcases h.next with rfl | rfl <;> simp [ReceiveState.afterLeave]
  case clear rel r =>
    obtain rfl := h.next
    cases rel <;> simp [ReceiveState.afterLeave]
  case release rel r =>
    cases rel <;>
    · obtain rfl := h.next
      simp
  case readEpoch | wipeSize =>
    obtain ⟨n, rfl⟩ := h.next
    simp
  case copy => obtain ⟨bs, rfl | rfl⟩ := h.next <;> simp
  case done => cases h.next
  all_goals
    first
      | (obtain rfl := h.next; simp)
      | (rcases h.next with rfl | rfl <;> simp)
      | (rcases h.next with rfl | ⟨_, rfl⟩ <;> simp)

/-- The same for a send. -/
theorem send_begun {b : SendArgs} {p p' : SendState}
    (h : ExecOn c m d x (sendCode b p) m' x' p') :
    p' ≠ .start ∧ (p' = .loadTag → p = .start ∧ x' = none ∧ b.valid = true) := by
  cases p
  case start =>
    rw [sendCode] at h
    split at h
    · rename_i hv
      cases h <;> first | contradiction | simp [hv]
    · cases h <;> first | contradiction | simp
  case testTagWaiting | testWaiting =>
    obtain ⟨n, rfl⟩ := h.next
    dsimp only
    split_ifs <;> simp
  case unlockMutex l rc =>
    obtain rfl := h.next
    split <;> simp
  case done => cases h.next
  all_goals
    first
      | (obtain rfl := h.next; simp)
      | (rcases h.next with rfl | rfl <;> simp)
      | (rcases h.next with rfl | ⟨_, rfl⟩ <;> simp)

/-- The same for an `AWAKE_ALL` command. -/
theorem awake_begun {e : ℕ} {p p' : AwakeState}
    (h : ExecOn c m d x (awakeCode e p) m' x' p') :
    p' ≠ .start ∧ (p' = .loadTag → p = .start ∧ x' = none) := by
  cases p
  case start => cases h <;> first | contradiction | simp
  case testTagWaiting | testWaiting =>
    obtain ⟨n, rfl⟩ := h.next
    dsimp only
    split <;> simp
  case unlockLevel i =>
    obtain rfl := h.next
    split <;> simp
  case done => cases h.next
  all_goals
    first
      | (obtain rfl := h.next; simp)
      | (rcases h.next with rfl | rfl <;> simp)
      | (rcases h.next with rfl | ⟨_, rfl⟩ <;> simp)

/-- A call that has moved has begun.  If it is about to load its tag then this was its first step,
and it has passed the input check. -/
theorem begun_of_execOn (h : execOn c m d x t.code o = some (m', x', t')) :
    t'.idle = false ∧ (t'.loading = true → t.idle = true ∧ x' = none ∧ t'.valid = true) := by
  cases t with
  | receive a p =>
    simp only [Thread.code, execOn_map, Option.map_eq_some_iff] at h
    obtain ⟨⟨_, _, p'⟩, hx, heq⟩ := h
    cases heq
    obtain ⟨hne, hload⟩ := receive_begun (.of_execOn hx)
    cases p'
    case start => exact absurd rfl hne
    case loadTag => obtain ⟨rfl, hx', hv⟩ := hload rfl; exact ⟨rfl, fun _ => ⟨rfl, hx', hv⟩⟩
    all_goals exact ⟨rfl, fun hl => by cases hl⟩
  | send b p =>
    simp only [Thread.code, execOn_map, Option.map_eq_some_iff] at h
    obtain ⟨⟨_, _, p'⟩, hx, heq⟩ := h
    cases heq
    obtain ⟨hne, hload⟩ := send_begun (.of_execOn hx)
    cases p'
    case start => exact absurd rfl hne
    case loadTag => obtain ⟨rfl, hx', hv⟩ := hload rfl; exact ⟨rfl, fun _ => ⟨rfl, hx', hv⟩⟩
    all_goals exact ⟨rfl, fun hl => by cases hl⟩
  | awake e p =>
    simp only [Thread.code, execOn_map, Option.map_eq_some_iff] at h
    obtain ⟨⟨_, _, p'⟩, hx, heq⟩ := h
    cases heq
    obtain ⟨hne, hload⟩ := awake_begun (.of_execOn hx)
    cases p'
    case start => exact absurd rfl hne
    case loadTag => obtain ⟨rfl, hx'⟩ := hload rfl; exact ⟨rfl, fun _ => ⟨rfl, hx', rfl⟩⟩
    all_goals exact ⟨rfl, fun hl => by cases hl⟩

end Moves

/-- A call has no tag before it has loaded one. -/
def IdleUnloaded (s : State) : Prop :=
  ∀ c tag x t, s.thread c = .user tag x t → t.idle = true ∨ t.loading = true →
    x = none ∧ (t.loading = true → t.valid = true)

theorem Init.unloaded {s : State} (h : Init s) : IdleUnloaded s := by
  intro c tag x t hc _
  have hidle := h.idle c
  have hx := h.entry c
  rw [hc] at hidle hx
  refine ⟨hx, fun hl => ?_⟩
  cases t with
  | receive a p => cases p <;> first | (cases hl; done) | cases hidle
  | send b p => cases p <;> first | (cases hl; done) | cases hidle
  | awake e p => rfl

/-- A call that has not begun has not loaded a tag. -/
theorem IdleUnloaded.step {s s' : State} {c : CallId} (h : IdleUnloaded s) (hs : Step s c s') :
    IdleUnloaded s' := by
  intro d tag x t hd ht
  by_cases hdc : d = c
  · subst hdc
    obtain ⟨x₀, t₀, hc⟩ := hs.of_user hd
    rcases hs.code hc with ⟨-, -, rfl⟩ | ⟨o, m, x', t', hx, rfl⟩ <;>
      rw [Config.set_thread_self] at hd <;> cases hd
    · cases t₀ <;> rcases ht with ht | ht <;> cases ht
    · obtain ⟨hidle, hload⟩ := begun_of_execOn hx
      rw [hidle] at ht
      have hl := ht.resolve_left Bool.false_ne_true
      exact ⟨(hload hl).2.1, fun hl => (hload hl).2.2⟩
  · rw [hs.thread_of_ne hdc] at hd
    exact h d tag x t hd ht

theorem Reachable.unloaded {s : State} (h : Reachable s) : IdleUnloaded s :=
  h.induction (fun _ h0 => h0.unloaded) fun _ _ _ _ hp hs => hp.step hs

/-! ## The tag by itself

`OnTag` is the relation between a state of the service and a state of the system of one tag.  Most
steps of the service are not about the tag at all and stutter. -/

/-- The call is a `dev_read`. -/
def Thread.isRead : Thread → Bool
  | read _ _ _ => true
  | _ => false

/-- The calls that are a `dev_read`. -/
def State.reads (s : State) (c : CallId) : Bool := (s.thread c).isRead

/-- The call as the tag `y` sees it: one that has not loaded the tag has not begun, and neither has
one that never uses a tag as a send or a receive does. -/
def Thread.onTag (y : TagAddr) : Thread → TagAos.Thread
  | user _ x t => if x = some y then t else t.before
  | _ => .awake 0 .start

/-- `σ` is what the tag `y` and the calls on it make up. -/
structure OnTag (s : State) (y : TagAddr) (σ : TagAos.State) : Prop where
  mem : ∃ r, σ.mem = (s.mem.obj y).view s.reads r
  thread : ∀ c, σ.thread c = (s.thread c).onTag y

section OnTag

variable {s s' : State} {c : CallId} {y : TagAddr} {σ : TagAos.State} {m : Mem} {t : Thread}

theorem State.reads_set (ht : t.isRead = (s.thread c).isRead) :
    State.reads (s.set c m t) = s.reads := by
  funext d
  by_cases hdc : d = c
  · subst hdc; rw [State.reads, Config.set_thread_self, ht, State.reads]
  · rw [State.reads, Config.set_thread_of_ne _ _ _ _ hdc, State.reads]

/-- A step of the service that the tag sees. -/
theorem OnTag.set {μ : TagAos.Mem} {p : TagAos.Thread} {r : RwSem CallId} (h : OnTag s y σ)
    (hmem : μ = (m.obj y).view s.reads r) (hthread : p = t.onTag y)
    (ht : t.isRead = (s.thread c).isRead) : OnTag (s.set c m t) y (σ.set c μ p) where
  mem := ⟨r, by rw [State.reads_set ht]; exact hmem⟩
  thread d := by
    by_cases hdc : d = c
    · subst hdc; rw [Config.set_thread_self, Config.set_thread_self, hthread]
    · rw [Config.set_thread_of_ne _ _ _ _ hdc, Config.set_thread_of_ne _ _ _ _ hdc, h.thread d]

/-- A step of the service that the tag does not see. -/
theorem OnTag.stutter (h : OnTag s y σ)
    (hmem : ∀ r, (m.obj y).view s.reads r = (s.mem.obj y).view s.reads r)
    (hthread : t.onTag y = (s.thread c).onTag y) (ht : t.isRead = (s.thread c).isRead) :
    ∃ σ', Run TagAos.Step σ σ' ∧ OnTag (s.set c m t) y σ' := by
  obtain ⟨r, hr⟩ := h.mem
  refine ⟨σ, RunUnder.refl σ, ?_⟩
  have hset := h.set (c := c) (hr.trans (hmem r).symm) ((h.thread c).trans hthread.symm) ht
  rwa [Config.set_self] at hset

/-- `tag_lock` is never held for writing by a call on the tag. -/
theorem tagLock_shared (h : TagAos.Reachable σ) : ∃ readers, σ.mem.sem .tag = .shared readers := by
  cases hl : σ.mem.sem .tag with
  | shared readers => exact ⟨readers, rfl⟩
  | exclusive w =>
    have hw : (σ.mem.sem .tag).Holds w .write := by rw [hl]; rfl
    have hann := (h.inv.sem .tag w .write).1 hw
    cases Thread.mode_of_tag (t := .user 0 none (σ.thread w)) hann

/-- `dev_read` does nothing to a tag that can be seen without its readers. -/
theorem view_of_readCode {U : CallId → Bool} {μ μ' : TagAos.Mem} {a : ReadArgs} {e : Registry.Entry}
    {p q : ReadState} (hc : U c = true) (h : Exec c μ (readCode a e p) μ' q) (r : RwSem CallId) :
    μ'.view U r = μ.view U r := by
  have down : ∀ {l : Sem} {v : RwSem CallId}, (μ.sem l).downRead c = some v →
      TagAos.Mem.view { μ with sem := Function.update μ.sem l v } U r = μ.view U r :=
    fun hv => TagAos.Mem.view_update_same fun _ => RwSem.without_of_downRead hc hv
  cases p <;> cases h
  all_goals first | rfl | (rename_i hv; exact down hv) | skip
  all_goals exact TagAos.Mem.view_update_same fun _ => RwSem.without_of_upRead hc _

theorem Thread.onTag_loaded (tag : ℤ) (t : TagAos.Thread) :
    (Thread.user tag (some y) t).onTag y = t := if_pos rfl

theorem Thread.onTag_of_ne {x : Option TagAddr} (hx : x ≠ some y) (tag : ℤ) (t : TagAos.Thread) :
    (Thread.user tag x t).onTag y = t.before := if_neg hx

/-- A call that has loaded the tag moves on it. -/
theorem OnTag.loaded_step {tag : ℤ} {x' : Option TagAddr} {t t' : TagAos.Thread} {o : Outcome}
    (hr : Reachable s) (h : OnTag s y σ) (hc : s.thread c = .user tag (some y) t)
    (hx : execOn c s.mem tag.toNat (some y) t.code o = some (m, x', t')) :
    ∃ σ', Run TagAos.Step σ σ' ∧ OnTag (s.set c m (.user tag x' t')) y σ' := by
  have hnew : ¬ (t.idle = true ∨ t.loading = true) := fun hnew => by
    cases (hr.unloaded c tag _ t hc hnew).1
  have hσ : σ.thread c = t := by rw [h.thread c, hc, Thread.onTag_loaded]
  obtain ⟨r, hmem⟩ := h.mem
  have hread : s.reads c = false := by rw [State.reads, hc]; rfl
  by_cases hi : inTag t.code = true
  · rw [execOn_of_inTag hi] at hx
    simp only [Option.bind_some, Option.map_eq_some_iff, Prod.mk.injEq] at hx
    obtain ⟨⟨μ, p⟩, hx, rfl, rfl, rfl⟩ := hx
    rcases exec_view (r := r) hi hread hx with hv | hbusy
    · refine ⟨_, Run.single (c := c) ⟨o, ?_⟩,
        h.set (μ := μ.view s.reads r) (p := p) (r := r) ?_ ?_ ?_⟩
      · rw [TagAos.step, hσ, hmem, hv]; rfl
      · simp only [Mem.setObj, Function.update_self]
      · exact (Thread.onTag_loaded tag p).symm
      · rw [hc]; rfl
    · obtain rfl : p = t := Thread.eq_of_busy hbusy
      obtain ⟨l, ok, -, rfl⟩ := hbusy
      refine h.stutter (fun r => ?_) (by rw [hc]) (by rw [hc])
      simp only [Mem.setObj, Function.update_self]
  · have hE := ExecOn.of_execOn hx
    generalize hcode : t.code = i at hE hi
    cases hE with
    | jump =>
      refine ⟨_, Run.single (c := c) ⟨.go, ?_⟩, h.set (μ := σ.mem) (p := t') hmem ?_ ?_⟩
      · rw [TagAos.step, hσ, hcode]; rfl
      · exact (Thread.onTag_loaded tag t').symm
      · rw [hc]; rfl
    | unlockTag =>
      refine ⟨_, Run.single (c := c) ⟨.go, ?_⟩, h.set (p := t')
        (r := (σ.mem.sem .tag).upRead c)
        (μ := { σ.mem with sem := Function.update σ.mem.sem .tag ((σ.mem.sem .tag).upRead c) })
        ?_ ?_ ?_⟩
      · rw [TagAos.step, hσ, hcode]; rfl
      · rw [hmem, Mem.view_update_tag]; rfl
      · exact (Thread.onTag_loaded tag t').symm
      · rw [hc]; rfl
    | lockTag | lockTagIntr => exact absurd (.inl (Thread.idle_of_downRead hcode).1) hnew
    | loadTags | loadTagsNull => exact absurd (.inr (Thread.loading_of_loadTags hcode)) hnew
    | tag hi' => exact absurd hi' hi

/-- A call that has not loaded the tag moves, and may load it. -/
theorem OnTag.unloaded_step {tag : ℤ} {x x' : Option TagAddr} {t t' : TagAos.Thread} {o : Outcome}
    (hr : Reachable s) (hσ : TagAos.Reachable σ) (h : OnTag s y σ)
    (hc : s.thread c = .user tag x t) (hne : x ≠ some y)
    (hx : execOn c s.mem tag.toNat x t.code o = some (m, x', t')) :
    ∃ σ', Run TagAos.Step σ σ' ∧ OnTag (s.set c m (.user tag x' t')) y σ' := by
  have hE := ExecOn.of_execOn hx
  have hobj : m.obj y = s.mem.obj y := (hE.obj y).resolve_right fun h => hne h.1
  have hbefore : t'.before = t.before := before_of_execOn hx
  by_cases hx' : x' = some y
  · subst hx'
    generalize hcode : t.code = i at hE
    cases hE with
    | loadTags hy =>
      -- the call acquires `tag_lock`, and loads the tag
      have hload := Thread.loading_of_loadTags hcode
      obtain ⟨intr, hfirst⟩ :=
        Thread.code_before hload ((hr.unloaded c tag x t hc (.inr hload)).2 hload)
      obtain ⟨readers, hshared⟩ := tagLock_shared hσ
      obtain ⟨r, hmem⟩ := h.mem
      have hstart : σ.thread c = t.before := by rw [h.thread c, hc, Thread.onTag_of_ne hne]
      have hset :
          { σ.mem with sem := Function.update σ.mem.sem .tag (.shared (insert c readers)) } =
            (s.mem.obj y).view s.reads (.shared (insert c readers)) := by
        rw [hmem, Mem.view_update_tag]
      generalize (s.mem.obj y).view s.reads (.shared (insert c readers)) = μ at hset
      have hlock : TagAos.Step σ c (σ.set c μ t) := by
        refine ⟨.go, ?_⟩
        rw [TagAos.step, hstart, hfirst, TagAos.exec, hshared, ← hset]
        rfl
      have htags : (σ.set c μ t).mem.tags = true := (hσ.step hlock).tags
      have hfind : TagAos.Step (σ.set c μ t) c (σ.set c μ t') := by
        refine ⟨.go, ?_⟩
        rw [TagAos.step, Config.set_thread_self, hcode, TagAos.exec, if_pos htags]
        exact congrArg some (Config.set_set ..)
      refine ⟨_, (Run.single hlock).step hfind, h.set (r := .shared (insert c readers)) ?_ ?_ ?_⟩
      · rw [← hset, hmem, Mem.view_update_tag]
      · exact (Thread.onTag_loaded tag t').symm
      · rw [hc]; rfl
    | tag _ hz => exact absurd rfl hne
    | jump | lockTagIntr | unlockTag => exact absurd rfl hne
  · refine h.stutter (fun r => by rw [hobj]) ?_ (by rw [hc]; rfl)
    rw [hc, Thread.onTag_of_ne hx', Thread.onTag_of_ne hne, hbefore]

/-- **A step of the service, seen from a tag**: it is some steps there, or none. -/
theorem OnTag.step (hr : Reachable s) (hy : y < s.mem.brk) (hσ : TagAos.Reachable σ)
    (h : OnTag s y σ) (hs : Step s c s') : ∃ σ', Run TagAos.Step σ σ' ∧ OnTag s' y σ' := by
  cases hc : s.thread c with
  | get a x p =>
    obtain ⟨m, x', p', hx, rfl⟩ := hs.get hc
    exact h.stutter (fun r => by rw [hx.obj hy]) (by rw [hc]; rfl) (by rw [hc]; rfl)
  | delete tag u x i p =>
    obtain ⟨m, x', i', p', hx, rfl⟩ := hs.delete hc
    exact h.stutter (fun r => by rw [hx.obj]) (by rw [hc]; rfl) (by rw [hc]; rfl)
  | read a x p =>
    rcases hs.read hc with ⟨o, q, -, rfl⟩ | ⟨m, x', q, hx, rfl⟩
    · exact h.stutter (fun r => rfl) (by rw [hc]; rfl) (by rw [hc]; rfl)
    · refine h.stutter (fun r => ?_) (by rw [hc]; rfl) (by rw [hc]; rfl)
      rcases hx.obj y with hobj | ⟨-, hx⟩
      · rw [hobj]
      · exact view_of_readCode (by rw [State.reads, hc]; rfl) hx r
  | user tag x t =>
    rcases hs.code hc with ⟨hidle, -, rfl⟩ | ⟨o, m, x', t', hx, rfl⟩
    · obtain ⟨rfl, -⟩ := hr.unloaded c tag x t hc (.inl hidle)
      refine h.stutter (fun r => rfl) ?_ (by rw [hc]; rfl)
      rw [hc]
      cases t <;> rfl
    · by_cases hxy : x = some y
      · subst hxy
        exact h.loaded_step hr hc hx
      · exact h.unloaded_step hr hσ hc hxy hx

end OnTag

/-! ## Every tag

A tag that is allocated makes up a fresh state of the system of one tag, and from then on every step
of the service keeps it a reachable one. -/

section Refines

variable {s s' : State} {c : CallId} {y : TagAddr}

theorem view_fresh (permission : ℤ) (euid : ℕ) (U : CallId → Bool) :
    (TagAos.Mem.fresh permission euid).view U .free = .fresh permission euid := by
  simp only [TagAos.Mem.view, TagAos.Mem.fresh, TagAos.Mem.mk.injEq, true_and]
  refine ⟨funext fun l => ?_, trivial⟩
  split <;> rfl

/-- A tag that has just been allocated is a fresh one, on which no call has begun. -/
theorem Step.onTag_of_alloc (hs : Step s c s') (hb : Bounds s) (hlt : s.mem.brk < s'.mem.brk) :
    ∃ σ, TagAos.Init σ ∧ OnTag s' s.mem.brk σ := by
  obtain ⟨a, x, d, hc, rfl⟩ := hs.alloc hlt
  refine ⟨⟨.fresh a.permission a.euid, fun e => Thread.onTag s.mem.brk
    ((s.set c (s.mem.newTag a d) (.get a (some s.mem.brk) (.publish d))).thread e)⟩,
    ⟨⟨_, _, rfl⟩, fun e => ?_⟩, ⟨.free, ?_⟩, fun _ => rfl⟩
  · dsimp only
    by_cases hec : e = c
    · subst hec
      rw [Config.set_thread_self]
      rfl
    · rw [Config.set_thread_of_ne _ _ _ _ hec]
      cases he : s.thread e with
      | user tag x t =>
        have hx : x ≠ some s.mem.brk := fun hx => lt_irrefl _ (hb.entry e _ (by rw [he]; exact hx))
        rw [Thread.onTag_of_ne hx]
        cases t <;> rfl
      | get | delete | read => rfl
  · simp only [Config.set_mem, Mem.newTag, Function.update_self]
    exact (view_fresh ..).symm

/-- Every tag that has been allocated makes up a state of the system of one tag. -/
theorem Reachable.onTag (h : Reachable s) :
    ∀ y < s.mem.brk, ∃ σ, TagAos.Reachable σ ∧ OnTag s y σ := by
  refine h.induction (P := fun s => ∀ y < s.mem.brk, ∃ σ, TagAos.Reachable σ ∧ OnTag s y σ)
    (fun s h0 y hy => ?_) fun s c t hr ih hs y hy => ?_
  · rw [h0.mem] at hy
    exact absurd hy (Nat.not_lt_zero y)
  · by_cases hold : y < s.mem.brk
    · obtain ⟨σ, hσ, hon⟩ := ih y hold
      obtain ⟨σ', hrun, hon'⟩ := hon.step hr hold hσ hs
      exact ⟨σ', hσ.run hrun, hon'⟩
    · have hlt := lt_of_le_of_lt (not_lt.1 hold) hy
      have hbrk : t.mem.brk = s.mem.brk + 1 := by
        obtain ⟨a, x, d, -, rfl⟩ := hs.alloc hlt
        rfl
      obtain rfl : y = s.mem.brk :=
        le_antisymm (Nat.lt_succ_iff.1 (lt_of_lt_of_eq hy hbrk)) (not_lt.1 hold)
      obtain ⟨σ, hσ, hon⟩ := hs.onTag_of_alloc hr.bounds hlt
      exact ⟨σ, .init hσ, hon⟩

/-- What happens in the service goes on to happen on the tag. -/
theorem OnTag.run {σ : TagAos.State} (h : OnTag s y σ) (hr : Reachable s) (hy : y < s.mem.brk)
    (hσ : TagAos.Reachable σ) (hrun : Run Step s s') :
    ∃ σ', Run TagAos.Step σ σ' ∧ OnTag s' y σ' := by
  obtain ⟨σ', hrun', -, -, -, hon⟩ := hrun.simulate_runs
    (R := fun s σ => Reachable s ∧ y < s.mem.brk ∧ TagAos.Reachable σ ∧ OnTag s y σ)
    (fun u c v σ ⟨hu, hyu, hσ, hon⟩ hs => by
      obtain ⟨σ', hrun, hon'⟩ := hon.step hu hyu hσ hs
      exact ⟨σ', hrun, hu.step hs, lt_of_lt_of_le hyu hs.brk_le, hσ.run hrun, hon'⟩)
    ⟨hr, hy, hσ, h⟩
  exact ⟨σ', hrun', hon⟩

/-- **Every tag of the service is a tag by itself.**  In every state some interleaving of calls
leads to, each tag that has been allocated is, with the calls that have loaded it, a reachable
state of the system of one tag; and whatever the service does next is, seen from there, a run of
that system.  The creation and the deletion of tags, the calls on other tags and the reads of the
device file change nothing about that. -/
theorem tag_refines (h : Reachable s) (hy : y < s.mem.brk) :
    ∃ σ, TagAos.Reachable σ ∧ OnTag s y σ ∧
      ∀ s', Run Step s s' → ∃ σ', Run TagAos.Step σ σ' ∧ OnTag s' y σ' := by
  obtain ⟨σ, hσ, hon⟩ := h.onTag y hy
  exact ⟨σ, hσ, hon, fun s' hrun => hon.run h hy hσ hrun⟩

end Refines

/-! ## Example

A tag that is created, waited on, and read through the device file. -/

/-- A creation (call 0), a receive (call 1), a send (call 2), and reads of the device file. -/
def traffic : CallId → Thread
  | 0 => .get ⟨5, Registry.tagCreat, Registry.tagPermAll, 0⟩ none .start
  | 1 => .user 0 none (.receive ⟨0, true, 2, 0⟩ .start)
  | 2 => .user 0 none (.send ⟨0, some [7, 8, 9], 3, 0⟩ .start)
  | _ => .read ⟨true, 4096, 0⟩ none .start

theorem traffic_init : Init (State.start traffic) where
  mem := rfl
  idle c := by
    show (traffic c).idle = true
    unfold traffic
    split <;> rfl
  entry c := by
    show (traffic c).entry = none
    unfold traffic
    split <;> rfl

/-- The tag has been created, the receive is asleep on level 0, and a `dev_read` looks at it. -/
def looking : State := (State.start traffic).after (goes 0 39 ++ goes 1 15 ++ goes 3 11)

/-- Tag 0 as a system by itself, with a receive asleep and a `dev_read` that holds its lock. -/
theorem tag_refines_looking :
    (looking.mem.obj 0).tagWaiting = 1 ∧
      ((looking.mem.obj 0).sem (.rcu 0)).Holds 3 .read ∧
      ∃ σ, TagAos.Reachable σ ∧ OnTag looking 0 σ ∧
        ∀ s', Run Step looking s' → ∃ σ', Run TagAos.Step σ σ' ∧ OnTag s' 0 σ' :=
  ⟨by decide +kernel, by decide +kernel,
    tag_refines ⟨_, traffic_init, run_after _ _⟩ (by decide +kernel)⟩

end TagAos.Service
