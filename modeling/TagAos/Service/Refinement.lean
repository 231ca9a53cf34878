import TagAos.Service.Locks

/-!
# The service refines the registry

`TagAos.Registry` knows the tags by their fields and leaves the calls that use them out.  A state of
the service is a state of the registry when the addresses in `tags` are replaced by the fields of
the tags, and the readers of `tag_lock` are forgotten (`State.registry`).  Every step of the
service is then a step of the registry, or does not show there (`Step.registry`), so what
`TagAos.Registry.Consistency` proves holds here (`Reachable.registry`).  A deletion whose trylock
fails because of a reader is one that the registry finds busy.
-/

set_option autoImplicit false

namespace TagAos.Service

open Conc
open Registry (Lock GetArgs GetState DeleteState)

/-! ## The registry without readers

In `TagAos.Registry` nobody reads a `tag_lock`, so there the trylock of a deletion fails only
because of another deletion or a creation.  In the service a reader makes it fail too.  The registry
lets its environment decide that somebody is in the way, and this is how a deletion that meets a
reader is seen there. -/

/-- Nobody reads a `tag_lock`. -/
def writers (m : Registry.Mem) : Registry.Mem :=
  { m with sem := fun l => if l = .common then m.sem l else (m.sem l).onlyWriter }

/-- The registry's view of a call. -/
def Thread.registry : Thread → Registry.Thread
  | get a _ p => .get a p
  | delete tag euid _ _ p => .delete tag euid p
  -- a call that does not touch the registry might as well not have begun
  | user _ _ _ | read _ _ _ => .get ⟨0, 0, 0, 0⟩ .start

/-- The registry's view of the service. -/
def State.registry (s : State) : Registry.State :=
  ⟨writers s.mem.registry, fun c => (s.thread c).registry⟩

section Writers

variable {c : CallId} {m m' : Registry.Mem}

/-- A writer that gets a lock gets it without the readers as well. -/
theorem writers_downWrite {l : Lock} (h : m.downWrite c l = some m') :
    (writers m).downWrite c l = some (writers m') := by
  simp only [Registry.Mem.downWrite, Option.map_eq_some_iff] at h ⊢
  obtain ⟨s, hs, rfl⟩ := h
  by_cases hl : l = .common
  · subst hl
    refine ⟨s, by simpa [writers] using hs, ?_⟩
    simp only [writers]
    congr 1
    funext k
    by_cases hk : k = .common <;> simp [hk]
  · refine ⟨s.onlyWriter, by simpa [writers, hl] using RwSem.downWrite_onlyWriter hs, ?_⟩
    simp only [writers]
    congr 1
    funext k
    by_cases hk : k = l
    · subst hk; simp [hl]
    · simp [hk]

theorem writers_upWrite (m : Registry.Mem) (c : CallId) (l : Lock) :
    writers (m.upWrite c l) = (writers m).upWrite c l := by
  simp only [writers, Registry.Mem.upWrite]
  congr 1
  funext k
  by_cases hk : k = l
  · subst hk; by_cases hl : k = .common <;> simp [hl]
  · simp [hk]

theorem writers_downRead (h : m.downRead c .common = some m') :
    (writers m).downRead c .common = some (writers m') := by
  simp only [Registry.Mem.downRead, Option.map_eq_some_iff] at h ⊢
  obtain ⟨s, hs, rfl⟩ := h
  refine ⟨s, by simpa [writers] using hs, ?_⟩
  simp only [writers]
  congr 1
  funext k
  by_cases hk : k = .common <;> simp [hk]

theorem writers_upRead (m : Registry.Mem) (c : CallId) :
    writers (m.upRead c .common) = (writers m).upRead c .common := by
  simp only [writers, Registry.Mem.upRead]
  congr 1
  funext k
  by_cases hk : k = .common <;> simp [hk]

/-- The allocator of descriptors and the table do not depend on the locks. -/
theorem writers_reserve (m : Registry.Mem) (key : ℤ) (oom : Bool) :
    (writers m).reserve key oom = (writers (m.reserve key oom).1, (m.reserve key oom).2) := by
  have hbitmask : (writers m).bitmask = m.bitmask := rfl
  have htable : (writers m).table = m.table := rfl
  rw [Registry.Mem.reserve, Registry.Mem.reserve, hbitmask, htable]
  by_cases hfull : Registry.maxTags ≤ m.table.entries.length
  · rw [if_pos hfull, if_pos hfull]
  · rw [if_neg hfull, if_neg hfull]
    cases m.bitmask.getAvailNumber with
    | none => rfl
    | some db => dsimp only; split_ifs <;> rfl

theorem writers_clearCommon (m : Registry.Mem) (key : ℤ) (d : ℕ) :
    (writers m).clearCommon key d = writers (m.clearCommon key d) := by
  have hbitmask : (writers m).bitmask = m.bitmask := rfl
  have htable : (writers m).table = m.table := rfl
  rw [Registry.Mem.clearCommon, Registry.Mem.clearCommon, hbitmask, htable]
  by_cases hcleared : (m.bitmask.clearNumber d).1 = 1
  · rw [if_pos hcleared, if_pos hcleared]
    rfl
  · rw [if_neg hcleared, if_neg hcleared]
    by_cases hkey : key ≠ Registry.ipcPrivate
    · rw [if_pos hkey, if_pos hkey]
      rfl
    · rw [if_neg hkey, if_neg hkey]
      rfl

/-- `tag_get` does not notice that readers of `tag_lock` are forgotten. -/
theorem getStep_writers {a : GetArgs} {p p' : GetState} {o : Registry.Outcome}
    (h : Registry.getStep c m a p o = some (m', p')) :
    Registry.getStep c (writers m) a p o = some (writers m', p') := by
  cases p
  case lockCreate | lockClear d =>
    cases o <;> simp only [Registry.getStep, reduceCtorEq, Option.some.injEq, Prod.mk.injEq,
      Option.map_eq_some_iff] at h ⊢
    · obtain ⟨m₁, h, rfl, rfl⟩ := h; exact ⟨_, writers_downWrite h, rfl, rfl⟩
    · obtain ⟨rfl, rfl⟩ := h; exact ⟨rfl, rfl⟩
  case lockOpen =>
    cases o <;> simp only [Registry.getStep, reduceCtorEq, Option.some.injEq, Prod.mk.injEq,
      Option.map_eq_some_iff] at h ⊢
    · obtain ⟨m₁, h, rfl, rfl⟩ := h; exact ⟨_, writers_downRead h, rfl, rfl⟩
    · obtain ⟨rfl, rfl⟩ := h; exact ⟨rfl, rfl⟩
  case reserve =>
    cases o <;> simp only [Registry.getStep, reduceCtorEq, Option.some.injEq,
      Prod.mk.injEq] at h ⊢
    all_goals
      obtain ⟨rfl, rfl⟩ := h
      rw [writers_reserve]
      exact ⟨rfl, rfl⟩
  case unlockCreate r =>
    cases r <;> cases o <;>
      simp only [Registry.getStep, reduceCtorEq, Option.some.injEq, Prod.mk.injEq] at h ⊢
    all_goals obtain ⟨rfl, rfl⟩ := h; exact ⟨(writers_upWrite m c _).symm, rfl⟩
  case unlockClear =>
    cases o <;> simp only [Registry.getStep, reduceCtorEq, Option.some.injEq,
      Prod.mk.injEq] at h ⊢
    obtain ⟨rfl, rfl⟩ := h
    exact ⟨(writers_upWrite m c _).symm, rfl⟩
  case unlockOpen rc =>
    cases o <;> simp only [Registry.getStep, reduceCtorEq, Option.some.injEq,
      Prod.mk.injEq] at h ⊢
    obtain ⟨rfl, rfl⟩ := h
    exact ⟨(writers_upRead m c).symm, rfl⟩
  case clearCommon d =>
    cases o <;> simp only [Registry.getStep, reduceCtorEq, Option.some.injEq,
      Prod.mk.injEq] at h ⊢
    obtain ⟨rfl, rfl⟩ := h
    exact ⟨writers_clearCommon m _ _, rfl⟩
  case lookup =>
    cases o <;> simp only [Registry.getStep, reduceCtorEq] at h ⊢
    have htable : (writers m).table = m.table := rfl
    rw [htable]
    split at h <;> cases h <;> rfl
  all_goals
    cases o <;> simp only [Registry.getStep, reduceCtorEq, Option.some.injEq,
      Prod.mk.injEq] at h ⊢ <;>
      (obtain ⟨rfl, rfl⟩ := h; exact ⟨rfl, rfl⟩)

/-- A deletion takes the failure of its trylock for somebody being in the way. -/
theorem deleteStep_writers {tag : ℤ} {euid : ℕ} {p p' : DeleteState} {o : Registry.Outcome}
    (h : Registry.deleteStep c m tag euid p o = some (m', p')) :
    ∃ o', Registry.deleteStep c (writers m) tag euid p o' = some (writers m', p') := by
  cases p
  case tryLock =>
    cases o <;> simp only [Registry.deleteStep, reduceCtorEq] at h
    · split at h
      · rename_i hm
        cases h
        exact ⟨.go, by simp [Registry.deleteStep, writers_downWrite hm]⟩
      · cases h; exact ⟨.busy, rfl⟩
    · cases h; exact ⟨.busy, rfl⟩
  case loadTag =>
    cases o <;> simp only [Registry.deleteStep, reduceCtorEq] at h
    refine ⟨.go, ?_⟩
    have htags : (writers m).tags = m.tags := rfl
    simp only [Registry.deleteStep, htags]
    split at h <;> cases h <;> rfl
  case lockClear e =>
    refine ⟨o, ?_⟩
    cases o <;> simp only [Registry.deleteStep, reduceCtorEq, Option.some.injEq, Prod.mk.injEq,
      Option.map_eq_some_iff] at h ⊢
    · obtain ⟨m₁, h, rfl, rfl⟩ := h; exact ⟨_, writers_downWrite h, rfl, rfl⟩
    · obtain ⟨rfl, rfl⟩ := h; exact ⟨rfl, rfl⟩
  case clearCommon e =>
    refine ⟨o, ?_⟩
    cases o <;> simp only [Registry.deleteStep, reduceCtorEq, Option.some.injEq,
      Prod.mk.injEq] at h ⊢
    obtain ⟨rfl, rfl⟩ := h
    exact ⟨writers_clearCommon m _ _, rfl⟩
  case unlockTag e | unlockError rc | unlockClear e =>
    refine ⟨o, ?_⟩
    cases o <;> simp only [Registry.deleteStep, reduceCtorEq, Option.some.injEq,
      Prod.mk.injEq] at h ⊢
    obtain ⟨rfl, rfl⟩ := h
    exact ⟨(writers_upWrite m c _).symm, rfl⟩
  all_goals
    refine ⟨o, ?_⟩
    cases o <;> simp only [Registry.deleteStep, reduceCtorEq, Option.some.injEq,
      Prod.mk.injEq] at h ⊢ <;>
      (obtain ⟨rfl, rfl⟩ := h; exact ⟨rfl, rfl⟩)

end Writers

/-! ## The fields of a tag

The registry copies the fields of a tag where the source copies its address.  The two say the same
because the fields are assigned before the tag is published and never again. -/

section Fields

variable {s s' : State} {c : CallId}

/-- No instruction changes the permission or the owner of a tag. -/
theorem exec_owner {π : Type} {m m' : TagAos.Mem} {i : Instr π} {p : π} (h : Exec c m i m' p) :
    m'.permission = m.permission ∧ m'.euid = m.euid := by
  cases h <;> exact ⟨rfl, rfl⟩

/-- An instruction on a tag leaves the fields of all tags as they are. -/
theorem ExecOn.entry {π : Type} {m m' : Mem} {d : ℕ} {x x' : Option TagAddr} {i : Instr π} {p : π}
    (h : ExecOn c m d x i m' x' p) : m'.entry = m.entry := by
  cases h with
  | @tag z _ t _ hi hx h =>
    funext y
    obtain ⟨hp, he⟩ := exec_owner h
    by_cases hyz : y = z
    · subst hyz; simp [Mem.entry, Mem.setObj, hp, he]
    · simp [Mem.entry, Mem.setObj, hyz]
  | _ => rfl

/-- The fields of a tag are assigned once. -/
theorem Step.entry (hs : Step s c s') {y : TagAddr} (hy : y < s.mem.brk) :
    s'.mem.entry y = s.mem.entry y := by
  cases hc : s.thread c with
  | get a x p =>
    obtain ⟨m, x', p', hx, rfl⟩ := hs.get hc
    cases hx with
    | alloc => simp [Mem.entry, Mem.newTag, ne_of_lt hy]
    | publish | registry => rfl
  | delete tag e x i p =>
    obtain ⟨m, x', i', p', hx, rfl⟩ := hs.delete hc
    cases hx with
    | @clearLevel e z =>
      obtain ⟨f, hf⟩ := s.mem.clearLevel_same z i
      rw [Config.set_mem, hf]
      rfl
    | _ => rfl
  | user tag x t =>
    obtain ⟨m, x', t', hx, rfl⟩ := hs.user hc
    exact congrFun hx.entry y
  | read a x p =>
    rcases hs.read hc with ⟨o, q, hq, rfl⟩ | ⟨m, x', q, hx, rfl⟩
    · rfl
    · exact congrFun hx.entry y

/-- The tag that a deletion has loaded, as the registry knows it. -/
def carries : DeleteState → Option Registry.Entry
  | .checkPerm e | .clearTag e | .unlockTag e | .testWaiting e | .lockClear e | .clearCommon e
  | .unlockClear e | .restore e _ | .freeTag e => some e
  | _ => none

/-- The addresses that creations and deletions have are those of the tags that the registry says
they are about. -/
structure Named (s : State) : Prop where
  publish : ∀ c a x d, s.thread c = .get a x (.publish d) →
    ∃ y, x = some y ∧ s.mem.entry y = ⟨a.key, d, a.permission, a.euid⟩
  delete : ∀ c tag u x i p e, s.thread c = .delete tag u x i p → carries p = some e →
    ∃ y, x = some y ∧ s.mem.entry y = e

/-- A deletion that carries a tag after a step of its own has carried the same before, unless the
step loads one. -/
theorem carries_of_deleteStep {m m' : Registry.Mem} {tag : ℤ} {euid : ℕ} {p p' : DeleteState}
    {o : Registry.Outcome} (hp : onAddr p = false)
    (h : Registry.deleteStep c m tag euid p o = some (m', p')) {e : Registry.Entry}
    (he : carries p' = some e) : carries p = some e := by
  cases p
  case start =>
    cases o <;> simp only [Registry.deleteStep, reduceCtorEq, Option.some.injEq,
      Prod.mk.injEq] at h
    obtain ⟨-, rfl⟩ := h
    split_ifs at he <;> cases he
  case tryLock =>
    cases o <;> simp only [Registry.deleteStep, reduceCtorEq] at h
    · split at h <;> cases h <;> cases he
    · cases h; cases he
  case checkPerm e₀ =>
    cases o <;> simp only [Registry.deleteStep, reduceCtorEq, Option.some.injEq,
      Prod.mk.injEq] at h
    obtain ⟨-, rfl⟩ := h
    split_ifs at he
    · cases he
    · exact he
  case lockClear e₀ =>
    cases o <;> simp only [Registry.deleteStep, reduceCtorEq, Option.some.injEq, Prod.mk.injEq,
      Option.map_eq_some_iff] at h
    · obtain ⟨m₁, -, -, rfl⟩ := h; exact he
    · obtain ⟨-, rfl⟩ := h; exact he
  case unlockTag e₀ | clearCommon e₀ | unlockClear e₀ =>
    cases o <;> simp only [Registry.deleteStep, reduceCtorEq, Option.some.injEq,
      Prod.mk.injEq] at h
    obtain ⟨-, rfl⟩ := h
    exact he
  case unlockError rc =>
    cases o <;> simp only [Registry.deleteStep, reduceCtorEq, Option.some.injEq,
      Prod.mk.injEq] at h
    obtain ⟨-, rfl⟩ := h
    cases he
  case done rc => cases o <;> cases h
  all_goals cases hp

/-- A step keeps the addresses and the fields together.  They get together where `tag_get` has
allocated the tag and where a deletion has loaded it; from then on neither the call nor the fields
change. -/
theorem Named.step (hb : Bounds s) (hs : Step s c s') (h : Named s) : Named s' := by
  constructor
  · intro e a x d he
    by_cases hec : e = c
    · subst hec
      cases hc : s.thread e with
      | get a₀ x₀ p =>
        obtain ⟨m, x', p', hx, rfl⟩ := hs.get hc
        rw [Config.set_thread_self] at he
        cases he
        cases hx with
        | alloc => exact ⟨_, rfl, by simp [Mem.entry, Mem.newTag, TagAos.Mem.fresh]⟩
        | registry hp hp' => exact absurd rfl (hp' d)
      | delete tag u x₀ i p =>
        obtain ⟨m, x', i', p', -, rfl⟩ := hs.delete hc
        rw [Config.set_thread_self] at he; cases he
      | user tag x₀ t =>
        obtain ⟨m, x', t', -, rfl⟩ := hs.user hc
        rw [Config.set_thread_self] at he; cases he
      | read a₀ x₀ p =>
        rcases hs.read hc with ⟨o, q, -, rfl⟩ | ⟨m, x', q, -, rfl⟩ <;>
        · rw [Config.set_thread_self] at he; cases he
    · rw [hs.thread_of_ne hec] at he
      obtain ⟨y, rfl, hy⟩ := h.publish e a x d he
      exact ⟨y, rfl, (hs.entry (hb.entry e y (by rw [he]; rfl))).trans hy⟩
  · intro e tag u x i p f he hp
    by_cases hec : e = c
    · subst hec
      cases hc : s.thread e with
      | delete tag₀ u₀ x₀ i₀ p₀ =>
        have old : ∀ e₀, carries p₀ = some e₀ → ∃ y, x₀ = some y ∧ s'.mem.entry y = e₀ := by
          intro e₀ he₀
          obtain ⟨y, rfl, hy⟩ := h.delete e _ _ _ _ _ e₀ hc he₀
          exact ⟨y, rfl, (hs.entry (hb.entry e y (by rw [hc]; rfl))).trans hy⟩
        obtain ⟨m, x', i', p', hx, rfl⟩ := hs.delete hc
        rw [Config.set_thread_self] at he
        cases he
        cases hx with
        | loadTagNull => cases hp
        | loadTag h => cases hp; exact ⟨_, rfl, rfl⟩
        | restore | freeTag => cases hp
        | registry hon ho hreg => exact old f (carries_of_deleteStep hon hreg hp)
        | _ => cases hp; exact old _ rfl
      | get a₀ x₀ p₀ =>
        obtain ⟨m, x', p', -, rfl⟩ := hs.get hc
        rw [Config.set_thread_self] at he; cases he
      | user tag₀ x₀ t =>
        obtain ⟨m, x', t', -, rfl⟩ := hs.user hc
        rw [Config.set_thread_self] at he; cases he
      | read a₀ x₀ p₀ =>
        rcases hs.read hc with ⟨o, q, -, rfl⟩ | ⟨m, x', q, -, rfl⟩ <;>
        · rw [Config.set_thread_self] at he; cases he
    · rw [hs.thread_of_ne hec] at he
      obtain ⟨y, rfl, hy⟩ := h.delete e tag u x i p f he hp
      exact ⟨y, rfl, (hs.entry (hb.entry e y (by rw [he]; rfl))).trans hy⟩

/-- In every reachable state the addresses that creations and deletions have are those of their
tags. -/
theorem Reachable.named (h : Reachable s) : Named s := by
  refine h.induction (fun s h0 => ?_) fun s c t hr hp hs => hp.step hr.bounds hs
  constructor
  · intro c a x d hc
    have hidle := h0.idle c
    rw [hc] at hidle
    cases hidle
  · intro c tag u x i p e hc hp
    have hidle := h0.idle c
    rw [hc] at hidle
    cases p <;> cases hp <;> cases hidle

end Fields

/-! ## The refinement

Step by step.  A call that only uses a tag stutters; a creation and a deletion make the same step in
both systems. -/

section Refinement

variable {s s' : State} {c : CallId}

section Tags

variable {m m' : Registry.Mem}

/-- `tag_get` assigns `tags` only when it publishes a tag. -/
theorem getStep_tags {a : GetArgs} {p p' : GetState} {o : Registry.Outcome}
    (hp : ∀ d, p ≠ .publish d) (h : Registry.getStep c m a p o = some (m', p')) :
    m'.tags = m.tags := by
  cases p
  case publish d => exact absurd rfl (hp d)
  case lockCreate | lockClear d =>
    cases o <;> simp only [Registry.getStep, reduceCtorEq, Option.some.injEq, Prod.mk.injEq,
      Option.map_eq_some_iff] at h
    · obtain ⟨m₁, h, rfl, rfl⟩ := h; exact (Registry.Same.of_downWrite h).2
    · obtain ⟨rfl, rfl⟩ := h; rfl
  case lockOpen =>
    cases o <;> simp only [Registry.getStep, reduceCtorEq, Option.some.injEq, Prod.mk.injEq,
      Option.map_eq_some_iff] at h
    · obtain ⟨m₁, h, rfl, rfl⟩ := h; exact (Registry.Same.of_downRead h).2
    · obtain ⟨rfl, rfl⟩ := h; rfl
  case reserve =>
    cases o <;> simp only [Registry.getStep, reduceCtorEq, Option.some.injEq, Prod.mk.injEq] at h
    all_goals obtain ⟨rfl, rfl⟩ := h; exact m.reserve_tags _ _
  case unlockCreate r =>
    cases r <;> cases o <;>
      simp only [Registry.getStep, reduceCtorEq, Option.some.injEq, Prod.mk.injEq] at h
    all_goals obtain ⟨rfl, rfl⟩ := h; rfl
  case clearCommon d =>
    cases o <;> simp only [Registry.getStep, reduceCtorEq, Option.some.injEq, Prod.mk.injEq] at h
    obtain ⟨rfl, rfl⟩ := h
    exact m.clearCommon_tags _ _
  case lookup =>
    cases o <;> simp only [Registry.getStep, reduceCtorEq] at h
    split at h <;> cases h <;> rfl
  all_goals
    cases o <;> simp only [Registry.getStep, reduceCtorEq, Option.some.injEq, Prod.mk.injEq] at h <;>
      (obtain ⟨rfl, rfl⟩ := h; rfl)

/-- A deletion assigns `tags` only where it works with the address of its tag. -/
theorem deleteStep_tags {tag : ℤ} {euid : ℕ} {p p' : DeleteState} {o : Registry.Outcome}
    (hp : onAddr p = false) (h : Registry.deleteStep c m tag euid p o = some (m', p')) :
    m'.tags = m.tags := by
  cases p
  case tryLock =>
    cases o <;> simp only [Registry.deleteStep, reduceCtorEq] at h
    · split at h
      · rename_i hm; cases h; exact (Registry.Same.of_downWrite hm).2
      · cases h; rfl
    · cases h; rfl
  case lockClear e =>
    cases o <;> simp only [Registry.deleteStep, reduceCtorEq, Option.some.injEq, Prod.mk.injEq,
      Option.map_eq_some_iff] at h
    · obtain ⟨m₁, h, rfl, rfl⟩ := h; exact (Registry.Same.of_downWrite h).2
    · obtain ⟨rfl, rfl⟩ := h; rfl
  case clearCommon e =>
    cases o <;> simp only [Registry.deleteStep, reduceCtorEq, Option.some.injEq,
      Prod.mk.injEq] at h
    obtain ⟨rfl, rfl⟩ := h
    exact m.clearCommon_tags _ _
  case loadTag | clearTag | testWaiting | restore | freeTag => cases hp
  all_goals
    cases o <;> simp only [Registry.deleteStep, reduceCtorEq, Option.some.injEq,
      Prod.mk.injEq] at h <;>
      (obtain ⟨rfl, rfl⟩ := h; rfl)

end Tags

/-- What the registry does is seen in the service. -/
theorem Mem.registry_withRegistry {m : Mem} {r : Registry.Mem} (h : r.tags = m.registry.tags) :
    (m.withRegistry r).registry = r := by
  obtain ⟨bitmask, table, tags, sem⟩ := r
  dsimp only at h
  subst h
  rfl

/-- An assignment to `tags` is seen in the registry, with the fields of the tag for its address. -/
theorem Mem.registry_setTag (m : Mem) (d : ℕ) (x : Option TagAddr) :
    (m.setTag d x).registry =
      { m.registry with tags := Function.update m.registry.tags d (x.map m.entry) } := by
  simp only [Mem.registry, Mem.setTag]
  congr 1
  funext k
  by_cases hk : k = d
  · subst hk; simp; rfl
  · simp [hk]; rfl

/-- The view of a state after a step of one call. -/
theorem State.registry_set (s : State) (c : CallId) (m : Mem) (t : Thread) :
    State.registry (s.set c m t) = s.registry.set c (writers m.registry) t.registry := by
  simp only [State.registry, Config.set]
  congr 1
  funext d
  by_cases hd : d = c
  · subst hd; simp
  · simp [hd]

/-- A step of a creation, as the registry sees it. -/
theorem registry_get {a : GetArgs} {x x' : Option TagAddr} {p p' : GetState} {m : Mem}
    {o : Registry.Outcome} (hc : s.thread c = .get a x p)
    (h : Registry.getStep c (writers s.mem.registry) a p o = some (writers m.registry, p')) :
    Registry.Step s.registry c (State.registry (s.set c m (.get a x' p'))) := by
  refine ⟨o, ?_⟩
  have hthread : s.registry.thread c = .get a p := congrArg Thread.registry hc
  rw [Registry.step, hthread, State.registry_set]
  exact Option.map_eq_some_iff.2 ⟨_, h, rfl⟩

/-- A step of a deletion, as the registry sees it. -/
theorem registry_delete {tag : ℤ} {euid i i' : ℕ} {x x' : Option TagAddr} {p p' : DeleteState}
    {m : Mem} {o : Registry.Outcome} (hc : s.thread c = .delete tag euid x i p)
    (h : Registry.deleteStep c (writers s.mem.registry) tag euid p o =
      some (writers m.registry, p')) :
    Registry.Step s.registry c (State.registry (s.set c m (.delete tag euid x' i' p'))) := by
  refine ⟨o, ?_⟩
  have hthread : s.registry.thread c = .delete tag euid p := congrArg Thread.registry hc
  rw [Registry.step, hthread, State.registry_set]
  exact Option.map_eq_some_iff.2 ⟨_, h, rfl⟩

/-- A call that does not touch the registry does not show there. -/
theorem registry_same {m : Mem} {t : Thread} (ht : t.registry = (s.thread c).registry)
    (hm : writers m.registry = writers s.mem.registry) :
    State.registry (s.set c m t) = s.registry := by
  have hself : s.registry.set c s.registry.mem (s.registry.thread c) = s.registry :=
    Config.set_self ..
  rw [State.registry_set, ht, hm]
  exact hself

/-- The readers of `tag_lock` do not show. -/
theorem ExecOn.writers {π : Type} {m m' : Mem} {d : ℕ} {x x' : Option TagAddr} {i : Instr π}
    {p : π} (h : ExecOn c m d x i m' x' p) : writers m'.registry = writers m.registry := by
  have hframe := h.frame
  have hentry := h.entry
  have hlock : ∀ l, (if l = Lock.common then m'.lock l else (m'.lock l).onlyWriter) =
      if l = Lock.common then m.lock l else (m.lock l).onlyWriter := by
    intro l
    cases h with
    | lockTag h =>
      by_cases hl : l = .tag d
      · subst hl; simp [Mem.setLock, RwSem.onlyWriter_downRead h]
      · simp [Mem.setLock, hl]
    | unlockTag =>
      by_cases hl : l = .tag d
      · subst hl; simp [Mem.setLock]
      · simp [Mem.setLock, hl]
    | _ => rfl
  simp only [Service.writers, Mem.registry, hframe.bitmask, hframe.table, hframe.tags, hentry]
  congr 1
  funext l
  exact hlock l

/-- **Every step of the service is a step of the registry, or does not show there.** -/
theorem Step.registry (hr : Reachable s) (hs : Step s c s') :
    s'.registry = s.registry ∨ Registry.Step s.registry c s'.registry := by
  cases hc : s.thread c with
  | get a x p =>
    obtain ⟨m, x', p', hx, rfl⟩ := hs.get hc
    refine .inr ?_
    cases hx with
    -- the fields of a tag that nobody can find yet do not show
    | @alloc d =>
      have hm : (s.mem.newTag a d).registry = s.mem.registry := by
        simp only [Mem.registry, Mem.newTag]
        congr 1
        funext k
        cases hk : s.mem.tags k with
        | none => rfl
        | some y =>
          have hy := ne_of_lt (hr.bounds.tags k y hk)
          simp [Mem.entry, hy]
      exact registry_get (o := .go) hc (by rw [hm]; rfl)
    | @publish d =>
      obtain ⟨y, rfl, hy⟩ := hr.named.publish c a x d hc
      refine registry_get (o := .go) hc ?_
      rw [Mem.registry_setTag, Option.map_some, hy]
      rfl
    | @registry _ _ o r hp hp' h =>
      refine registry_get (o := o) hc ?_
      rw [Mem.registry_withRegistry (getStep_tags hp h)]
      exact getStep_writers h
  | delete tag u x i p =>
    obtain ⟨m, x', i', p', hx, rfl⟩ := hs.delete hc
    have tag_some : ∀ {y}, s.mem.tags tag.toNat = y →
        (writers s.mem.registry).tags tag.toNat = y.map s.mem.entry := fun h => by rw [← h]; rfl
    cases hx with
    | loadTagNull h =>
      refine .inr (registry_delete (o := .go) hc ?_)
      rw [Registry.deleteStep, tag_some h]
      rfl
    | loadTag h =>
      refine .inr (registry_delete (o := .go) hc ?_)
      rw [Registry.deleteStep, tag_some h]
      rfl
    | clearTag =>
      refine .inr (registry_delete (o := .go) hc ?_)
      rw [Mem.registry_setTag]
      rfl
    -- a tag with sleepers is busy for the registry, whose environment decides so
    | waiting => exact .inr (registry_delete (o := .busy) hc rfl)
    | notWaiting => exact .inr (registry_delete (o := .go) hc rfl)
    -- the pointer that is put back is that of the tag the deletion has carried all along
    | restore =>
      obtain ⟨y, rfl, rfl⟩ := hr.named.delete c tag u x i _ _ hc rfl
      refine .inr (registry_delete (o := .go) hc ?_)
      rw [Mem.registry_setTag]
      rfl
    | @clearLevel e y hy hi =>
      -- the registry frees the tag in one step
      obtain ⟨f, hf⟩ := s.mem.clearLevel_same y i
      refine .inl (registry_same (by rw [hc]; rfl) ?_)
      rw [hf]
      rfl
    | freeTag => exact .inr (registry_delete (o := .go) hc rfl)
    | registry hon ho h =>
      obtain ⟨o', h'⟩ := deleteStep_writers h
      refine .inr (registry_delete (o := o') hc ?_)
      rw [Mem.registry_withRegistry (deleteStep_tags hon h)]
      exact h'
  | user tag x t =>
    obtain ⟨m, x', t', hx, rfl⟩ := hs.user hc
    exact .inl (registry_same (by rw [hc]; rfl) hx.writers)
  | read a x p =>
    rcases hs.read hc with ⟨o, q, hq, rfl⟩ | ⟨m, x', q, hx, rfl⟩
    · exact .inl (registry_same (by rw [hc]; rfl) rfl)
    · exact .inl (registry_same (by rw [hc]; rfl) hx.writers)

/-- The service starts as the registry does. -/
theorem Init.registry (h : Init s) : Registry.Init s.registry where
  mem := by
    rw [State.registry, h.mem]
    simp only [Registry.Mem.initial, writers, Mem.registry, Mem.initial]
    congr 1
    funext l
    split <;> rfl
  idle c := by
    have hidle := h.idle c
    show (s.thread c).registry.idle = true
    cases hc : s.thread c with
    | get a x p => rw [hc] at hidle; cases p <;> first | rfl | cases hidle
    | delete tag u x i p => rw [hc] at hidle; cases p <;> first | rfl | cases hidle
    | user | read => rfl

/-- **The registry of the service is consistent.** -/
theorem Reachable.registry (h : Reachable s) : Registry.Inv s.registry := by
  refine h.induction (fun s h0 => h0.registry.inv) fun s c t hr hp hs => ?_
  rcases hs.registry hr with heq | hstep
  · rw [heq]; exact hp
  · exact hstep.inv hp

end Refinement

end TagAos.Service
