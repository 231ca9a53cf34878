import TagAos.Conc.Trace
import TagAos.Tag.Reclaim
import TagAos.Tag.Renaming

/-!
# An allocator that hands freed blocks out again

In `TagAos.Tag.System` every `create_level` yields an address of its own, so that an instance is
the allocation it comes from.  `kzalloc` may just as well return a block that has been freed.  Here
it does (`Mem.createLevelAt`): which of the blocks that are not in use it returns is up to the
environment.  A call that still refers to a freed instance then works on whatever instance has the
block now.

This is what the code does, and it is not what the rest of the development describes; but it is, as
long as no instance is freed to which another call still refers (`FreesUnused`).  A run that meets
this condition is a run of `TagAos.Tag.System` up to the names of the instances, moment by moment:

* `Slab.step` — the steps with this allocator.
* `Thread.refs` — the instances a call still refers to; `refsLive_of_run` says that under the
  condition none of them has been freed.
* `Slab.Related` — a state of one system beside a state of the other, and what the blocks are called
  there.
* `Slab.exists_trace` — every trace under the condition has one of `TagAos.Tag.System` beside it.

The other direction is simpler: an allocator that prefers blocks nobody has had before is one of
those considered here (`Slab.step_of_step`).
-/

set_option autoImplicit false

namespace TagAos

open Conc

/-! ## The allocator

Blocks are numbered in the order in which the allocator hands them out for the first time.  So it
returns either the next number, or a block that has been freed and not been handed out since;
`freed` counts the frees of a block since it was last handed out. -/

/-- `kzalloc` may return the block `x`. -/
def Mem.Available (m : Mem) (x : Addr) : Prop := x = m.brk ∨ x < m.brk ∧ m.freed x ≠ 0

instance (m : Mem) (x : Addr) : Decidable (m.Available x) :=
  inferInstanceAs (Decidable (_ ∨ _ ∧ _))

/-- The state `create_level` leaves a fresh instance in, in the block `x`. -/
def Mem.createLevelAt (m : Mem) (x : Addr) (i : ℕ) (e : ℤ) : Mem :=
  { m with
    level := Function.update m.level x i
    size := Function.update m.size x 0
    ready := Function.update m.ready x false
    epoch := Function.update m.epoch x e
    waiting := Function.update m.waiting x 0
    localWq := Function.update m.localWq x ∅
    wMutex := Function.update m.wMutex x none
    buffer := Function.update m.buffer x (List.replicate bufferSize 0)
    sem := Function.update m.sem (.rcu x) RwSem.free
    brk := max m.brk (x + 1)
    freed := Function.update m.freed x 0 }

/-- Run one instruction, with an allocator that returns the block `x` if it is asked for one. -/
def execAt {π : Type} (c : CallId) (m : Mem) (i : Instr π) (o : Outcome) (x : Addr) :
    Option (Mem × π) :=
  match i, o with
  | .createLevel k e _ ok, .go =>
    if m.Available x then some (m.createLevelAt x k e, ok x) else none
  | i, o => exec c m i o

/-- A block that may be handed out is not in use. -/
theorem Mem.Available.not_live {m : Mem} {x : Addr} (h : m.Available x) : ¬ m.Live x := by
  rintro ⟨hlt, hfreed⟩
  rcases h with rfl | ⟨-, hne⟩
  · exact lt_irrefl _ hlt
  · exact hne hfreed

/-- What `create_level` puts into a block, whatever was there before. -/
def TagLevel.new (i : ℕ) (e : ℤ) : TagLevel :=
  ⟨i, 0, false, e, 0, ∅, none, List.replicate bufferSize 0, RwSem.free⟩

theorem Mem.block_createLevelAt (m : Mem) (x : Addr) (i : ℕ) (e : ℤ) :
    (m.createLevelAt x i e).block = Function.update m.block x (.new i e) := by
  funext y
  by_cases hy : y = x
  · subst hy; simp [block, createLevelAt, TagLevel.new]
  · simp [block, createLevelAt, hy]

theorem Mem.block_createLevel (m : Mem) (i : ℕ) (e : ℤ) :
    (m.createLevel i e).block = Function.update m.block m.brk (.new i e) := by
  funext y
  by_cases hy : y = m.brk
  · subst hy; simp [block, createLevel, TagLevel.new]
  · simp [block, createLevel, hy]

/-- Nothing else has become of the other blocks. -/
theorem Mem.live_createLevelAt {m : Mem} {x y : Addr} {i : ℕ} {e : ℤ} (h : m.Live y) :
    (m.createLevelAt x i e).Live y := by
  refine ⟨lt_of_lt_of_le h.1 (le_max_left _ _), ?_⟩
  by_cases hy : y = x
  · subst hy; exact Function.update_self ..
  · exact (Function.update_of_ne hy ..).trans h.2

/-- **A new instance**, in a block of its own on one side and in any block on the other. -/
theorem Named.createLevel {ρ : Addr → Addr} {K : Addr → Prop} {μ m : Mem} {x : Addr} {i : ℕ} {e : ℤ}
    (h : Named ρ K μ m) (hx : μ.Available x) (hname : ρ m.brk = x) :
    Named ρ K (μ.createLevelAt x i e) (m.createLevel i e) := by
  -- an instance in use is the new one, or one that was in use before and has another name
  have old : ∀ b, (m.createLevel i e).InUse K b → b = m.brk ∨ m.InUse K b ∧ ρ b ≠ x := by
    rintro b ⟨⟨hlt, hfreed⟩, hKb⟩
    rcases Nat.lt_succ_iff_lt_or_eq.1 hlt with hlt | rfl
    · have hb : m.InUse K b := ⟨⟨hlt, hfreed⟩, hKb⟩
      refine .inr ⟨hb, ?_⟩
      rintro rfl
      exact hx.not_live (h.live b hb)
    · exact .inl rfl
  exact { h with
    tagLock := by simpa [Mem.createLevelAt, Mem.createLevel] using h.tagLock
    levelLock := fun j => by simpa [Mem.createLevelAt, Mem.createLevel] using h.levelLock j
    block := fun b hb => by
      rw [Mem.block_createLevelAt, Mem.block_createLevel]
      rcases old b hb with rfl | ⟨hb, hne⟩
      · rw [hname, Function.update_self, Function.update_self]
      · rw [Function.update_of_ne hne, Function.update_of_ne (ne_of_lt hb.1.1)]
        exact h.block b hb
    live := fun b hb => by
      rcases old b hb with rfl | ⟨hb, -⟩
      · rw [hname]
        exact ⟨lt_of_lt_of_le (Nat.lt_succ_self x) (le_max_right _ _), Function.update_self ..⟩
      · exact Mem.live_createLevelAt (h.live b hb)
    inj := fun b b' hb hb' heq => by
      rcases old b hb with rfl | ⟨hu, hne⟩ <;> rcases old b' hb' with rfl | ⟨hu', hne'⟩
      · rfl
      · exact absurd (heq.symm.trans hname) hne'
      · exact absurd (heq.trans hname) hne
      · exact h.inj b b' hu hu' heq }

/-- **One instruction under both allocators.** If the instances that it accesses are in use, it does
the same up to their names; the new instance that it may create is the one called `x`. -/
theorem Named.execAt_matches {π π' : Type} {ρ : Addr → Addr} {K : Addr → Prop} {f : π → π'} {μ μ' m : Mem}
    {c : CallId} {i : Instr π} {j : Instr π'} {o : Outcome} {x : Addr} {q : π'} (h : Named ρ K μ m)
    (hm : Instr.Matches ρ f i j) (huse : ∀ a ∈ i.touches, m.InUse K a)
    (hname : ∀ m' p, exec c m i o = some (m', p) → m.brk < m'.brk → ρ m.brk = x)
    (hx : execAt c μ j o x = some (μ', q)) :
    ∃ m' p, exec c m i o = some (m', p) ∧ Named ρ K μ' m' ∧ q = f p := by
  cases hm with
  | same hi =>
    have hx' : exec c μ ((i.rename ρ).map f) o = some (μ', q) := by
      cases i <;> first | exact hx | cases hi
    rw [exec_map, Option.map_eq_some_iff] at hx'
    obtain ⟨⟨μ'', p⟩, hp, heq⟩ := hx'
    cases heq
    obtain ⟨m', hm', hn⟩ := h.exec_rename hi huse hp
    exact ⟨m', p, hm', hn, rfl⟩
  | @loadLevel k null found found' hf =>
    cases o <;> simp only [execAt, exec, reduceCtorEq] at hx
    rw [h.tagLevel] at hx
    cases hl : m.tagLevel k with
    | none =>
      rw [hl] at hx
      cases hx
      exact ⟨m, null, by rw [exec, hl], h, rfl⟩
    | some a =>
      rw [hl] at hx
      cases hx
      exact ⟨m, found a, by rw [exec, hl], h, hf a⟩
  | @createLevel k e failed ok ok' hf =>
    cases o <;> simp only [execAt, exec, reduceCtorEq, Option.some.injEq,
      Prod.mk.injEq] at hx
    · split at hx
      · rename_i hav
        cases hx
        have hbrk := hname _ _ rfl (Nat.lt_succ_self m.brk)
        exact ⟨_, _, rfl, h.createLevel hav hbrk, by rw [← hbrk, hf]⟩
      · cases hx
    · obtain ⟨rfl, rfl⟩ := hx
      exact ⟨m, failed, rfl, h, rfl⟩

theorem Exec.brk_le {π : Type} {c : CallId} {m m' : Mem} {i : Instr π} {p : π}
    (h : Exec c m i m' p) : m.brk ≤ m'.brk := by
  cases h <;> first | exact le_rfl | exact Nat.le_succ _

/-- Names of instances that do not exist yet do not matter. -/
theorem Named.congr {ρ ρ' : Addr → Addr} {K : Addr → Prop} {μ m : Mem} (h : Named ρ K μ m)
    (htable : ∀ i a, m.tagLevel i = some a → a < m.brk) (hρ : ∀ a < m.brk, ρ' a = ρ a) :
    Named ρ' K μ m :=
  { h with
    tagLevel := fun i => by
      rw [h.tagLevel i]
      cases hl : m.tagLevel i with
      | none => rfl
      | some a => simp [hρ a (htable i a hl)]
    block := fun a ha => by rw [hρ a ha.1.1]; exact h.block a ha
    live := fun a ha => by rw [hρ a ha.1.1]; exact h.live a ha
    inj := fun a b ha hb heq => by
      rw [hρ a ha.1.1, hρ b hb.1.1] at heq
      exact h.inj a b ha hb heq }

/-- **One operation under both allocators.**  The block that the allocator would return is the name
of the next instance; if none is created, that name does not matter.  The continuation `q` is the
renamed `p`, whatever the instances that do not exist yet are called. -/
theorem Named.step {π π' : Type} {ρ : Addr → Addr} {K : Addr → Prop} {μ μ' m : Mem}
    {f : (Addr → Addr) → π → π'} {c : CallId} {i : Instr π} {j : Instr π'} {o : Outcome} {x : Addr}
    {q : π'} (h : Named ρ K μ m) (htable : ∀ i a, m.tagLevel i = some a → a < m.brk)
    (hm : ∀ ρ', (∀ a < m.brk, ρ' a = ρ a) → Instr.Matches ρ' (f ρ') i j)
    (huse : ∀ a ∈ i.touches, m.InUse K a) (hx : execAt c μ j o x = some (μ', q)) :
    ∃ m' p, exec c m i o = some (m', p) ∧ Named (Function.update ρ m.brk x) K μ' m' ∧
      ∀ ρ', (∀ a < m'.brk, ρ' a = Function.update ρ m.brk x a) → q = f ρ' p := by
  have hold : ∀ a < m.brk, Function.update ρ m.brk x a = ρ a :=
    fun a ha => Function.update_of_ne (ne_of_lt ha) ..
  -- the same for every way to name the instances that do not exist yet
  have key : ∀ ρ', (∀ a < m.brk, ρ' a = ρ a) →
      (∀ m' p, exec c m i o = some (m', p) → m.brk < m'.brk → ρ' m.brk = x) →
      ∃ m' p, exec c m i o = some (m', p) ∧ Named ρ' K μ' m' ∧ q = f ρ' p :=
    fun ρ' hρ hname => (h.congr htable hρ).execAt_matches (hm ρ' hρ) huse hname hx
  obtain ⟨m', p, hp, hmem, -⟩ := key _ hold fun _ _ _ _ => Function.update_self ..
  refine ⟨m', p, hp, hmem, fun ρ' hρ => ?_⟩
  have hbrk : m.brk ≤ m'.brk := (Exec.of_exec hp).brk_le
  obtain ⟨m'', p', hp', -, heq⟩ := key ρ' (fun a ha => (hρ a (lt_of_lt_of_le ha hbrk)).trans (hold a ha))
    fun m'' p'' hp'' hlt => by
      rw [hp] at hp''
      cases hp''
      rw [hρ _ hlt, Function.update_self]
  rw [hp] at hp'
  cases hp'
  exact heq

/-! ## The system

Everything but the allocator is that of `TagAos.Tag.System`. -/

/-- One operation of the call `c`, with an allocator that returns the block `w.2` if it is asked for
one. -/
def Slab.step (s : State) (c : CallId) (w : Outcome × Addr) : Option State :=
  (execAt c s.mem (s.thread c).code w.1 w.2).map fun r => s.set c r.1 r.2

/-- Some operation of the call `c`. -/
def Slab.Step (s : State) (c : CallId) (s' : State) : Prop := Moves Slab.step s c s'

/-- Only `create_level` depends on the allocator. -/
theorem execAt_eq {π : Type} {c : CallId} {m : Mem} {i : Instr π} {o : Outcome} {x : Addr}
    (h : ∀ k e failed ok, i ≠ .createLevel k e failed ok) : execAt c m i o x = exec c m i o := by
  unfold execAt
  split
  · exact absurd rfl (h _ _ _ _)
  · rfl

theorem execAt_map {π π' : Type} (f : π → π') (c : CallId) (m : Mem) (i : Instr π) (o : Outcome)
    (x : Addr) : execAt c m (i.map f) o x = (execAt c m i o x).map fun r => (r.1, f r.2) := by
  by_cases h : ∃ k e failed ok, i = .createLevel k e failed ok
  · obtain ⟨k, e, failed, ok, rfl⟩ := h
    cases o <;> try rfl
    simp only [Instr.map, execAt]
    split <;> rfl
  · rw [execAt_eq, execAt_eq, exec_map]
    · exact fun k e failed ok hi => h ⟨k, e, failed, ok, hi⟩
    · intro k e failed ok hi
      cases i <;> cases hi
      exact h ⟨_, _, _, _, rfl⟩

/-- A send keeps its arguments, and no other call becomes a send. -/
theorem Slab.Step.send_args {s s' : State} {c d : CallId} {b : SendArgs} {q : SendState}
    (hs : Slab.Step s c s') (hd : s'.thread d = .send b q) : ∃ q₀, s.thread d = .send b q₀ := by
  obtain ⟨w, hs⟩ := hs
  simp only [Slab.step, Option.map_eq_some_iff] at hs
  obtain ⟨⟨m, p⟩, hx, rfl⟩ := hs
  by_cases hdc : d = c
  · subst hdc
    rw [Config.set_thread_self] at hd
    subst hd
    cases ht : s.thread d with
    | receive a q =>
      rw [ht, Thread.code, execAt_map, Option.map_eq_some_iff] at hx
      obtain ⟨r, -, hr⟩ := hx
      cases hr
    | send b' q =>
      rw [ht, Thread.code, execAt_map, Option.map_eq_some_iff] at hx
      obtain ⟨r, -, hr⟩ := hx
      cases hr
      exact ⟨q, rfl⟩
    | awake f q =>
      rw [ht, Thread.code, execAt_map, Option.map_eq_some_iff] at hx
      obtain ⟨r, -, hr⟩ := hx
      cases hr
  · exact ⟨q, by rwa [Config.set_thread_of_ne _ _ _ _ hdc] at hd⟩

/-! ## References

A call comes by an instance through the pointer of a level or by creating it, and goes on referring
to it until its last access.  The receivers are in `TagAos.Tag.Reclaim`.  A send refers to its
instance until it has released the locks of it; when its copy has failed, the mutex is the last, and
is released after `tag_lock`. -/

/-- The instances the sender still refers to. -/
def SendState.refs : SendState → List Addr
  | lockRcu l | unlockLevel l | lockMutex l | testReady l | testWaiting l | copy l | setSize l
  | setReady l | unlockMutex l _ | wake l | unlockRcu l _ | faultUnlockRcu l | faultUnlockTag l
  | faultUnlockMutex l => [l]
  | _ => []

/-- The instances an `AWAKE_ALL` command still refers to. -/
def AwakeState.refs : AwakeState → List Addr
  | lockRcu _ l | testWaiting _ l | wake _ l | unlockRcu _ l => [l]
  | _ => []

/-- The instances a call still refers to. -/
def Thread.refs : Thread → List Addr
  | receive _ p => p.refs
  | send _ p => p.refs
  | awake _ p => p.refs

theorem Instr.touches_map {π π' : Type} (f : π → π') (i : Instr π) :
    (i.map f).touches = i.touches := by
  cases i <;> first | rfl | (rename_i l _; cases l <;> rfl) | (rename_i l _ _; cases l <;> rfl)

/-- A call touches only what it refers to. -/
theorem Thread.refs_of_touches {t : Thread} {x : Addr} (h : x ∈ t.code.touches) : x ∈ t.refs := by
  cases t with
  | receive a p =>
    rw [code, Instr.touches_map] at h
    exact ReceiveState.refs_of_touches h
  | send b p =>
    rw [code, Instr.touches_map] at h
    cases p
    case start =>
      rw [sendCode] at h
      split at h <;> cases h
    all_goals first | exact h | cases h
  | awake e p =>
    rw [code, Instr.touches_map] at h
    cases p <;> exact h

theorem Thread.refs_of_idle {t : Thread} (h : t.idle = true) : t.refs = [] := by
  cases t with
  | receive a p => cases p <;> first | rfl | cases h
  | send b p => cases p <;> first | rfl | cases h
  | awake f p => cases p <;> first | rfl | cases h

section Refs

variable {c : CallId} {m m' : Mem} {x : Addr}

theorem SendState.refs_succ {b : SendArgs} {q q' : SendState} (hx : Exec c m (sendCode b q) m' q')
    (hq' : x ∈ q'.refs) : x ∈ q.refs ∨ m.tagLevel b.lvl = some x := by
  cases q
  case start =>
    rw [sendCode] at hx
    split at hx <;> cases hx <;> cases hq'
  case testTagWaiting =>
    cases hx
    beta_reduce at hq'
    split at hq' <;> cases hq'
  case loadLevel =>
    cases hx with
    | loadLevelNull => cases hq'
    | loadLevel h => simp only [refs, List.mem_singleton] at hq'; exact .inr (hq' ▸ h)
  case testWaiting l =>
    cases hx
    beta_reduce at hq'
    split_ifs at hq' <;> exact .inl hq'
  case unlockMutex l rc =>
    cases hx
    split at hq' <;> exact .inl hq'
  all_goals cases hx <;> first | exact .inl hq' | cases hq'

theorem AwakeState.refs_succ {e : ℕ} {q q' : AwakeState} (hx : Exec c m (awakeCode e q) m' q')
    (hq' : x ∈ q'.refs) : x ∈ q.refs ∨ ∃ i, m.tagLevel i = some x := by
  cases q
  case testTagWaiting =>
    cases hx
    beta_reduce at hq'
    split at hq' <;> cases hq'
  case loadLevel i =>
    cases hx with
    | loadLevelNull => cases hq'
    | loadLevel h => simp only [refs, List.mem_singleton] at hq'; exact .inr ⟨i, hq' ▸ h⟩
  case testWaiting i l =>
    cases hx
    beta_reduce at hq'
    split at hq' <;> exact .inl hq'
  case unlockLevel i =>
    cases hx
    split at hq' <;> cases hq'
  all_goals cases hx <;> first | exact .inl hq' | cases hq'

/-- **How a call comes by an instance.** -/
theorem Thread.refs_succ {t t' : Thread} {o : Outcome} (h : exec c m t.code o = some (m', t'))
    (hx : x ∈ t'.refs) :
    x ∈ t.refs ∨ m.Linked x ∨ x = m.brk ∧ m.brk < m'.brk := by
  cases t with
  | receive a p =>
    rw [code, exec_map, Option.map_eq_some_iff] at h
    obtain ⟨⟨m₁, q⟩, hq, heq⟩ := h
    cases heq
    exact (ReceiveState.refs_succ (.of_exec hq) hx).imp_right (Or.imp_left fun h => ⟨a.lvl, h⟩)
  | send b p =>
    rw [code, exec_map, Option.map_eq_some_iff] at h
    obtain ⟨⟨m₁, q⟩, hq, heq⟩ := h
    cases heq
    exact (SendState.refs_succ (.of_exec hq) hx).imp_right fun h => .inl ⟨b.lvl, h⟩
  | awake e p =>
    rw [code, exec_map, Option.map_eq_some_iff] at h
    obtain ⟨⟨m₁, q⟩, hq, heq⟩ := h
    cases heq
    exact (AwakeState.refs_succ (.of_exec hq) hx).imp_right .inl

end Refs

/-- A call comes to refer to an instance by loading a pointer to it, or by creating it. -/
theorem Step.refs {s s' : State} {c : CallId} {x : Addr} (hs : Step s c s')
    (hx : x ∈ (s'.thread c).refs) :
    x ∈ (s.thread c).refs ∨ s.mem.Linked x ∨ x = s.mem.brk ∧ s.mem.brk < s'.mem.brk := by
  obtain ⟨o, ho⟩ := hs
  rw [step, Option.map_eq_some_iff] at ho
  obtain ⟨⟨m, t⟩, hexec, rfl⟩ := ho
  rw [Config.set_thread_self] at hx
  exact Thread.refs_succ hexec hx

/-! ## Freeing what nobody refers to

The condition, and the invariant that it gives: no call ever refers to an instance that has been
freed.  So the allocator cannot hand out a block that somebody still refers to. -/

/-- The condition on a step: an instance is freed when no other call refers to it.  It is
`FreesAlone`, extended to the sends that still have to release the mutex. -/
def FreesUnused (s : State) (c : CallId) : Prop :=
  ∀ a l r, s.thread c = .receive a (.free l r) → ∀ d, d ≠ c → l ∉ (s.thread d).refs

/-- An instance that no other call refers to is freed alone. -/
theorem FreesUnused.freesAlone {s : State} {c : CallId} (h : FreesUnused s c) : FreesAlone s c := by
  intro a l r hc d hd a' p hp
  have := h a l r hc d hd
  rwa [hp] at this

/-- What a call refers to has not been freed. -/
def RefsLive (s : State) : Prop := ∀ d, ∀ x ∈ (s.thread d).refs, s.mem.Live x

/-- The bound of the addresses handed out only grows. -/
theorem Step.brk_le {s s' : State} {c : CallId} (hs : Step s c s') : s.mem.brk ≤ s'.mem.brk := by
  obtain ⟨m, p, hx, rfl⟩ := hs.exec
  exact hx.brk_le

/-- An instance that a level points to has not been freed. -/
theorem Reachable.live_of_linked {s : State} (h : Reachable s) {x : Addr} (hx : s.mem.Linked x) :
    s.mem.Live x := by
  obtain ⟨i, hi⟩ := hx
  refine ⟨(h.inv.table i x hi).1, ?_⟩
  by_contra hne
  exact (h.epoch.freed x hne).unlinked ⟨i, hi⟩

/-- The next address has not been freed. -/
theorem Reachable.freed_brk {s : State} (h : Reachable s) : s.mem.freed s.mem.brk = 0 := by
  by_contra hne
  exact lt_irrefl _ (h.epoch.freed _ hne).lt

/-- A step keeps the references live: what is linked has not been freed, and no instance is freed to
which another call refers. -/
theorem RefsLive.step {s s' : State} {c : CallId} (hr : Reachable s) (hs : Step s c s')
    (hg : FreesUnused s c) (h : RefsLive s) : RefsLive s' := by
  intro d x hx
  -- the instance was live before the step, or it is the new one
  have hold : s.mem.Live x ∧ (d ≠ c → x ∈ (s.thread d).refs) ∨
      x = s.mem.brk ∧ s.mem.brk < s'.mem.brk := by
    by_cases hdc : d = c
    · subst hdc
      rcases hs.refs hx with hold | hlink | hnew
      · exact .inl ⟨h d x hold, fun hne => absurd rfl hne⟩
      · exact .inl ⟨hr.live_of_linked hlink, fun hne => absurd rfl hne⟩
      · exact .inr hnew
    · rw [hs.thread_of_ne hdc] at hx
      exact .inl ⟨h d x hx, fun _ => hx⟩
  rcases hs.freed with heq | ⟨a, l, r, hc, hc', hfreed⟩
  · rw [Mem.Live, heq]
    rcases hold with ⟨hlive, -⟩ | ⟨rfl, hlt⟩
    · exact ⟨lt_of_lt_of_le hlive.1 hs.brk_le, hlive.2⟩
    · exact ⟨hlt, hr.freed_brk⟩
  · -- the call that frees `l` refers to it no more, and no other does
    have hxl : x ≠ l := by
      rintro rfl
      by_cases hdc : d = c
      · subst hdc
        rw [hc'] at hx
        cases hx
      · rw [hs.thread_of_ne hdc] at hx
        exact hg a x r hc d hdc hx
    rw [Mem.Live, hfreed, Function.update_of_ne hxl]
    rcases hold with ⟨hlive, -⟩ | ⟨rfl, hlt⟩
    · exact ⟨lt_of_lt_of_le hlive.1 hs.brk_le, hlive.2⟩
    · exact ⟨hlt, hr.freed_brk⟩

/-- **Under the condition no call refers to an instance that has been freed.** -/
theorem refsLive_of_run {s₀ s : State} (h0 : Init s₀) (h : RunUnder Step FreesUnused s₀ s) :
    RefsLive s := by
  refine h.invariant_run (fun d x hx => ?_)
    fun u c v hu hi hg hs => hi.step ⟨s₀, h0, hu.run⟩ hs hg
  have hidle := h0.idle d
  cases ht : s₀.thread d with
  | receive a p => obtain rfl := h0.receive ht; rw [ht] at hx; cases hx
  | send b p => obtain rfl := h0.send ht; rw [ht] at hx; cases hx
  | awake e p => obtain rfl := h0.awake ht; rw [ht] at hx; cases hx

/-! ## A run of one allocator beside a run of the other

Next to a run with reuse runs one without, in which each instance has an address of its own.  The
names are chosen as the run goes: when an instance is created its name is the block it is given. -/

namespace Slab

/-- `s` is `σ`, up to the names of the instances: `ρ a` is the block that the instance `a` of `σ` is
in.  Calls know only instances that have been allocated, so what `ρ` does to the others does not
matter. -/
structure Related (ρ : Addr → Addr) (s σ : State) : Prop where
  mem : Named ρ (fun _ => False) s.mem σ.mem
  thread : ∀ ρ', (∀ a < σ.mem.brk, ρ' a = ρ a) → ∀ c, s.thread c = (σ.thread c).rename ρ'

theorem inUse_iff {m : Mem} {a : Addr} : m.InUse (fun _ => False) a ↔ m.Live a :=
  and_iff_left not_false

section Related

variable {ρ ρ' : Addr → Addr} {s s' σ : State} {c : CallId} {a : Addr}

theorem Related.thread_eq (h : Related ρ s σ) (c : CallId) :
    s.thread c = (σ.thread c).rename ρ := h.thread ρ (fun _ _ => rfl) c

/-- Names of instances that do not exist yet do not matter. -/
theorem Related.congr (h : Related ρ s σ) (hσ : TagAos.Reachable σ)
    (hρ : ∀ a < σ.mem.brk, ρ' a = ρ a) : Related ρ' s σ where
  mem := h.mem.congr (fun i a ha => (hσ.inv.table i a ha).1) hρ
  thread ρ'' hρ'' := h.thread ρ'' fun a ha => (hρ'' a ha).trans (hρ a ha)

theorem init_related (h : Init s) : Related id s s where
  mem := {
    tags := rfl
    permission := rfl
    euid := rfl
    tagReady := rfl
    tagWaiting := rfl
    tagLevel := fun i => Option.map_id'.symm
    tagLock := rfl
    levelLock := fun _ => rfl
    block := fun _ _ => rfl
    live := fun _ ha => ha.1
    inj := fun _ _ _ _ heq => heq }
  thread ρ' _ c := by
    cases hc : s.thread c with
    | receive a p => obtain rfl := h.receive hc; rfl
    | send b p => obtain rfl := h.send hc; rfl
    | awake e p => obtain rfl := h.awake hc; rfl

/-- What a renamed receive refers to. -/
theorem refs_receive (ρ : Addr → Addr) (p : ReceiveState) : (p.rename ρ).refs = p.refs.map ρ := by
  cases p
  case leave rel r | clear rel r | release rel r => cases rel <;> rfl
  case unlockLevelError rel r => cases rel <;> rfl
  all_goals rfl

/-- The references of a renamed call are the renamed references. -/
theorem refs_rename (ρ : Addr → Addr) (t : Thread) : (t.rename ρ).refs = t.refs.map ρ := by
  cases t with
  | receive a p => exact refs_receive ρ p
  | send b p => cases p <;> rfl
  | awake e p => cases p <;> rfl

/-- The condition is met on one side if it is on the other. -/
theorem Related.freesUnused (h : Related ρ s σ) (hg : FreesUnused s c) : FreesUnused σ c := by
  intro a l r hc d hd hl
  have hc' := h.thread_eq c
  rw [hc] at hc'
  refine hg a (ρ l) r hc' d hd ?_
  rw [h.thread_eq d, refs_rename]
  exact List.mem_map_of_mem hl

/-- **A step of one system beside a step of the other.**  The block that the allocator would return
is the name of the next instance; if none is created, that name does not matter. -/
theorem Related.step (h : Related ρ s σ) (hσ : TagAos.Reachable σ) (hlive : RefsLive σ)
    {w : Outcome × Addr} (hs : Slab.step s c w = some s') :
    ∃ σ', TagAos.step σ c w.1 = some σ' ∧ Related (Function.update ρ σ.mem.brk w.2) s' σ' := by
  obtain ⟨o, x⟩ := w
  simp only [Slab.step, Option.map_eq_some_iff] at hs
  obtain ⟨⟨μ', q⟩, hx, rfl⟩ := hs
  have hmatch : ∀ ρ', (∀ a < σ.mem.brk, ρ' a = ρ a) →
      Instr.Matches ρ' (Thread.rename ρ') (σ.thread c).code (s.thread c).code := fun ρ' hρ => by
    rw [h.thread ρ' hρ c]
    exact Thread.matches_code ρ' (σ.thread c)
  obtain ⟨m', p, hp, hmem, hq⟩ := h.mem.step (fun i a ha => (hσ.inv.table i a ha).1) hmatch
    (fun a ha => inUse_iff.2 (hlive c a (Thread.refs_of_touches ha))) hx
  have hbrk : σ.mem.brk ≤ m'.brk := (Exec.of_exec hp).brk_le
  refine ⟨σ.set c m' p, by rw [TagAos.step, hp]; rfl, hmem, fun ρ' hρ' d => ?_⟩
  by_cases hdc : d = c
  · subst hdc
    rw [Config.set_thread_self, Config.set_thread_self]
    exact hq ρ' hρ'
  · rw [Config.set_thread_of_ne _ _ _ _ hdc, Config.set_thread_of_ne _ _ _ _ hdc]
    refine h.thread ρ' (fun a ha => ?_) d
    exact (hρ' a (lt_of_lt_of_le ha hbrk)).trans (Function.update_of_ne (ne_of_lt ha) ..)

end Related

/-- `σ` is reached in step with `s`. -/
def Beside (s₀ : State) (ρ : Addr → Addr) (s σ : State) : Prop :=
  RunUnder TagAos.Step FreesUnused s₀ σ ∧ Related ρ s σ

/-- `ρ'` names the instances of `σ` as `ρ` does. -/
def Extends (σ : State) (ρ ρ' : Addr → Addr) : Prop := ∀ a < σ.mem.brk, ρ' a = ρ a

/-- One more step in both systems, with the name of a new instance where one is created. -/
theorem Beside.step {s₀ s s' σ : State} {ρ : Addr → Addr} {c : CallId} (h0 : Init s₀)
    (h : Beside s₀ ρ s σ) (hg : FreesUnused s c) (hs : Step s c s') :
    ∃ ρ' σ', FreesUnused σ c ∧ TagAos.Step σ c σ' ∧ Beside s₀ ρ' s' σ' ∧ Extends σ ρ ρ' := by
  obtain ⟨hrun, hrel⟩ := h
  obtain ⟨w, hs⟩ := hs
  obtain ⟨σ', hs', hrel'⟩ := hrel.step ⟨s₀, h0, hrun.run⟩ (refsLive_of_run h0 hrun) hs
  have hg' := hrel.freesUnused hg
  exact ⟨_, σ', hg', ⟨w.1, hs'⟩, ⟨hrun.tail hg' ⟨w.1, hs'⟩, hrel'⟩,
    fun a ha => Function.update_of_ne (ne_of_lt ha) ..⟩

theorem Beside.extend {s₀ s σ υ : State} {ρ ρ' : Addr → Addr} (h0 : Init s₀)
    (h : Beside s₀ ρ s σ) (hυ : Run TagAos.Step σ υ) (hext : Extends υ ρ ρ') :
    Beside s₀ ρ' s σ := by
  obtain ⟨hrun, hrel⟩ := h
  have hbrk : σ.mem.brk ≤ υ.mem.brk :=
    hυ.invariant (P := fun υ => σ.mem.brk ≤ υ.mem.brk) le_rfl
      fun _ _ _ hu _ hs => hu.trans hs.brk_le
  exact ⟨hrun, hrel.congr ⟨s₀, h0, hrun.run⟩ fun a ha => hext a (lt_of_lt_of_le ha hbrk)⟩

/-- **Every trace with the real allocator is one of `TagAos.Tag.System`**, up to the names of the
instances, as long as no instance is freed to which another call refers. -/
theorem exists_trace {n : ℕ} (e : Trace Step FreesUnused n) (h0 : Init (e.state 0)) :
    ∃ (ρ : Addr → Addr) (f : Trace TagAos.Step FreesUnused n), f.state 0 = e.state 0 ∧
      (∀ k < n, f.mover k = e.mover k) ∧ ∀ k ≤ n, Related ρ (e.state k) (f.state k) := by
  have hstep : ∀ ρ s σ c s', Beside (e.state 0) ρ s σ → FreesUnused s c → Step s c s' →
      ∃ ρ' σ', FreesUnused σ c ∧ TagAos.Step σ c σ' ∧ Beside (e.state 0) ρ' s' σ' ∧
        Extends σ ρ ρ' := fun _ _ _ _ _ h hg hs => h.step h0 hg hs
  have hext : ∀ ρ ρ' s σ υ, Beside (e.state 0) ρ s σ → Run TagAos.Step σ υ → Extends υ ρ ρ' →
      Beside (e.state 0) ρ' s σ := fun _ _ _ _ _ h hυ hext => h.extend h0 hυ hext
  have hfirst : Beside (e.state 0) id (e.state 0) (e.state 0) :=
    ⟨RunUnder.refl _, init_related h0⟩
  obtain ⟨ρ, f, hf0, hmover, hrel⟩ := Trace.simulate hstep hext e hfirst
  exact ⟨ρ, f, hf0, hmover, fun k hk => (hrel k hk).2⟩

/-- The same of the state a run ends in. -/
theorem exists_related {s₀ s : State} (h0 : Init s₀) (h : RunUnder Step FreesUnused s₀ s) :
    ∃ ρ σ, RunUnder TagAos.Step FreesUnused s₀ σ ∧ Related ρ s σ := by
  obtain ⟨n, e, rfl, rfl⟩ := h.exists_trace
  obtain ⟨ρ, f, hf0, -, hrel⟩ := exists_trace e h0
  exact ⟨ρ, f.state n, hf0 ▸ f.run (Nat.zero_le n) le_rfl, hrel n le_rfl⟩

/-- The trace `f` of `TagAos.Tag.System` beside the trace `e`. -/
structure Shadow {G : State → CallId → Prop} {n : ℕ} (ρ : Addr → Addr) (e : Trace Slab.Step G n)
    (f : Trace TagAos.Step FreesUnused n) : Prop where
  init : Init (f.state 0)
  mover : ∀ k < n, f.mover k = e.mover k
  related : ∀ k ≤ n, Related ρ (e.state k) (f.state k)

/-- **A run with reuse has one without beside it**, with the same calls at the same moments, if it
frees no instance to which another call refers. -/
theorem exists_shadow {G : State → CallId → Prop} {n : ℕ} (e : Trace Slab.Step G n)
    (hG : ∀ s c, G s c → FreesUnused s c) (h0 : Init (e.state 0)) :
    ∃ ρ f, Shadow ρ e f := by
  obtain ⟨ρ, f, hf0, hmover, hrel⟩ := exists_trace (e.mono hG) h0
  exact ⟨ρ, f, hf0 ▸ h0, hmover, hrel⟩

/-! ## What one system says about the other

The same calls at the same points, so whatever is said about the run beside can be said about the
run. -/

section Related

variable {ρ : Addr → Addr} {s σ : State} {c : CallId} {x y : Addr}

/-- The same receive in the other system. -/
theorem Related.receive (h : Related ρ s σ) {a : ReceiveArgs} {p : ReceiveState}
    (hc : s.thread c = .receive a p) : ∃ q, σ.thread c = .receive a q ∧ p = q.rename ρ := by
  rw [h.thread_eq] at hc
  cases hσ : σ.thread c with
  | receive a' q => rw [hσ] at hc; cases hc; exact ⟨q, rfl, rfl⟩
  | send b q => rw [hσ] at hc; cases hc
  | awake f q => rw [hσ] at hc; cases hc

/-- The same send in the other system. -/
theorem Related.send (h : Related ρ s σ) {b : SendArgs} {p : SendState}
    (hc : s.thread c = .send b p) : ∃ q, σ.thread c = .send b q ∧ p = q.rename ρ := by
  rw [h.thread_eq] at hc
  cases hσ : σ.thread c with
  | receive a q => rw [hσ] at hc; cases hc
  | send b' q => rw [hσ] at hc; cases hc; exact ⟨q, rfl, rfl⟩
  | awake f q => rw [hσ] at hc; cases hc

theorem Related.of_receive (h : Related ρ s σ) {a : ReceiveArgs} {q : ReceiveState}
    (hc : σ.thread c = .receive a q) : s.thread c = .receive a (q.rename ρ) := by
  rw [h.thread_eq, hc, Thread.rename]

theorem Related.of_send (h : Related ρ s σ) {b : SendArgs} {q : SendState}
    (hc : σ.thread c = .send b q) : s.thread c = .send b (q.rename ρ) := by
  rw [h.thread_eq, hc, Thread.rename]

/-- An instance that has not been freed is what the other system has in its block. -/
theorem Related.block (h : Related ρ s σ) (hx : σ.mem.Live x) :
    s.mem.block (ρ x) = σ.mem.block x := h.mem.block x (inUse_iff.2 hx)

/-- Instances that have not been freed are in different blocks. -/
theorem Related.inj (h : Related ρ s σ) (hx : σ.mem.Live x) (hy : σ.mem.Live y)
    (heq : ρ x = ρ y) : x = y := h.mem.inj x y (inUse_iff.2 hx) (inUse_iff.2 hy) heq

end Related

/-- **The other direction.**  An allocator that returns the next block does what
`TagAos.Tag.System` says. -/
theorem step_of_step {s s' : State} {c : CallId} {o : Outcome} (h : TagAos.Reachable s)
    (hs : TagAos.step s c o = some s') : Slab.step s c (o, s.mem.brk) = some s' := by
  have hlevel : ∀ i e, s.mem.createLevelAt s.mem.brk i e = s.mem.createLevel i e := fun i e => by
    simp only [Mem.createLevelAt, Mem.createLevel, max_eq_right (Nat.le_succ s.mem.brk),
      ← h.freed_brk, Function.update_eq_self]
  rw [TagAos.step] at hs
  rw [Slab.step, ← hs]
  congr 1
  generalize (s.thread c).code = i
  cases i <;> try rfl
  case createLevel k e failed ok =>
    cases o <;> try rfl
    simp [execAt, exec, Mem.Available, hlevel]

/-! ## Running a schedule

A move of a schedule now names the block that the allocator returns, if it is asked for one. -/

/-- A schedule during which the allocator would return the block `x`. -/
def givenBlock (x : Addr) (l : List (CallId × Outcome)) : List (CallId × Outcome × Addr) :=
  l.map fun y => (y.1, y.2, x)

/-- The state the calls are in after a schedule. -/
def after (calls : CallId → Thread) (l : List (CallId × Outcome × Addr)) : State :=
  Conc.after Slab.step (State.start calls) l

theorem thread_of_step {s t : State} {c d : CallId} {w : Outcome × Addr}
    (h : Slab.step s d w = some t) (hcd : c ≠ d) : t.thread c = s.thread c := by
  simp only [Slab.step, Option.map_eq_some_iff] at h
  obtain ⟨r, -, rfl⟩ := h
  exact Config.set_thread_of_ne _ _ _ _ hcd

theorem Step.thread_of_ne {s t : State} {c d : CallId} (h : Step s d t) (hcd : c ≠ d) :
    t.thread c = s.thread c := by
  obtain ⟨w, h⟩ := h
  exact thread_of_step h hcd

/-- A test for `FreesUnused` when only the calls below `n` have begun. -/
def freesUnused (n : ℕ) (s : State) (c : CallId) : Bool :=
  match s.thread c with
  | .receive _ (.free l _) =>
    (List.range n).all fun d => d == c || !(s.thread d).refs.contains l
  | _ => true

theorem freesUnused_of_test {n : ℕ} (s : State) (c : CallId)
    (hidle : ∀ d, n ≤ d → (s.thread d).idle = true) (h : freesUnused n s c = true) :
    FreesUnused s c := by
  intro a l r hc d hdc hmem
  by_cases hd : d < n
  · simp only [freesUnused, hc, List.all_eq_true, List.mem_range] at h
    have := h d hd
    simp [hdc, hmem] at this
  · rw [Thread.refs_of_idle (hidle d (not_lt.1 hd))] at hmem
    cases hmem

section Scheduled

variable {Good : State → CallId → Prop} {ok : State → CallId → Bool} {m : ℕ}
  {calls : CallId → Thread} {l : List (CallId × Outcome × Addr)}
  (hok : ∀ s c, (∀ d, m ≤ d → (s.thread d).idle = true) → ok s c = true → Good s c)
  (hcalls : ∀ c, (calls c).idle = true) (hl : ∀ x ∈ l, x.1 < m)

/-- The trace of a schedule of calls below `m`, all of whose moves can be made and pass a test. -/
def scheduled (h : runs Slab.step ok (State.start calls) l = true) :
    Trace Slab.Step Good l.length :=
  Trace.ofSchedule (P := fun s => ∀ d, m ≤ d → (s.thread d).idle = true) hok
    (fun x hx u t hu ht d hd => by
      rw [thread_of_step ht (ne_of_gt (lt_of_lt_of_le (hl x hx) hd))]
      exact hu d hd)
    (fun d _ => hcalls d) h

/-- The trace of a schedule all of whose moves can be made. -/
def played (h : runs Slab.step (fun _ _ => true) (State.start calls) l = true) :
    Trace Slab.Step (fun _ _ => True) l.length :=
  scheduled (fun _ _ _ _ => trivial) hcalls hl h

theorem scheduled_state (h : runs Slab.step ok (State.start calls) l = true) (k : ℕ) :
    (scheduled hok hcalls hl h).state k = after calls (l.take k) := rfl

theorem played_state (h : runs Slab.step (fun _ _ => true) (State.start calls) l = true) (k : ℕ) :
    (played hcalls hl h).state k = after calls (l.take k) := rfl

include hcalls hl

/-- A call that the schedule does not name has not begun. -/
theorem after_idle {c : CallId} (hc : m ≤ c) : ((after calls l).thread c).idle = true :=
  after_keeps (P := fun s : State => (s.thread c).idle = true)
    (fun x hx u t hu ht => by
      rw [thread_of_step ht (ne_of_gt (lt_of_lt_of_le (hl x hx) hc))]
      exact hu)
    (hcalls c)

theorem after_take_idle (k : ℕ) {c : CallId} (hc : m ≤ c) :
    ((after calls (l.take k)).thread c).idle = true :=
  after_idle hcalls (fun x hx => hl x (List.mem_of_mem_take hx)) hc

end Scheduled

/-! ### A last receiver that was overtaken

The runs in which a receiver still refers to an instance when it is freed, and its block is handed
out again. -/

/-- Sends (calls 1, 4 and 6) and receivers (the others) on level 0. -/
def traffic : CallId → Thread
  | 1 | 4 | 6 => .send ⟨0, some [7, 8, 9], 3, 0⟩ .start
  | _ => .receive ⟨0, true, 2, 0⟩ .start

theorem traffic_idle (c : CallId) : (traffic c).idle = true := by
  unfold traffic
  split <;> rfl

/-- Receiver 0 has been interrupted and is in its exit loop, receiver 2 is registered, both on the
instance 0; the first send sets `ready` there, and receiver 3 opens a new epoch in the block 32. -/
def rivals : List (CallId × Outcome × Addr) :=
  givenBlock 32 (goes 0 15 ++ signalled 0 ++ goes 0 4 ++ goes 2 15 ++ goes 1 18 ++ goes 3 24)

/-- Receiver 2 takes its message and is a last receiver too.  Receiver 0 frees the instance; after
another send receiver 5 opens a new epoch in its block and goes to sleep there.  Receiver 2 finds
its old epoch to be the newest and gets as far as the reset of `ready`. -/
def overtaken : List (CallId × Outcome × Addr) :=
  rivals ++ givenBlock 32 (goes 2 11 ++ goes 0 4 ++ goes 2 1 ++ goes 0 3 ++ goes 4 18) ++
    givenBlock 0 (goes 5 24 ++ goes 2 2)

end Slab

end TagAos
