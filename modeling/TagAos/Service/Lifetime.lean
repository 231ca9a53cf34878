import TagAos.Service.Refinement

/-!
# How long a tag lives

A tag is linked while `tags` points to it.  Before it is published, and after a deletion has taken
it out, one call has it and may link it (`Thread.holds`).  From the moment a deletion has given the
descriptor back it only waits to be freed (`Thread.buries`); then nobody can link it any more
(`Dead`).  A call that has loaded a tag and holds its `tag_lock` uses it (`Thread.uses`).

`Lifetimes` says that these exclude each other; in particular a tag in use is linked, so that
it is neither being deleted nor freed.
-/

set_option autoImplicit false

namespace TagAos.Service

open Conc
open Registry (Lock GetArgs GetState DeleteState)

/-! ## Who has a tag

A tag is in one of four situations: `tags` points to it; one call has it and may link it; a deletion
is going to free it; or it has been freed.  The three functions read off the points of the calls
which of them it is, and `Lifetimes` says that no two of them are true at once. -/

/-- The tag that a call has and may link. -/
def Thread.holds : Thread → Option TagAddr
  | get _ x (.publish _) => x
  | delete _ _ x _ (.unlockTag _) | delete _ _ x _ (.testWaiting _)
  | delete _ _ x _ (.lockClear _) | delete _ _ x _ (.restore _ _) => x
  | _ => none

/-- The tag that a call is going to free. -/
def Thread.buries : Thread → Option TagAddr
  | delete _ _ x _ (.clearCommon _) | delete _ _ x _ (.unlockClear _)
  | delete _ _ x _ (.freeTag _) => x
  | _ => none

/-- The descriptor and the tag of a call that has loaded the tag, if it holds `tag_lock`. -/
def usesOf (d : ℕ) (x : Option TagAddr) (a : Ann) : Option (ℕ × TagAddr) :=
  if a.holdsTag then x.map fun y => (d, y) else none

/-- The descriptor and the tag that a call uses. -/
def Thread.uses : Thread → Option (ℕ × TagAddr)
  | delete tag _ x _ (.checkPerm _) | delete tag _ x _ (.clearTag _) =>
    x.map fun y => (tag.toNat, y)
  | user tag x t => usesOf tag.toNat x t.ann
  | read _ x p => usesOf p.desc x p.ann
  | _ => none

/-- Nobody can link the tag any more. -/
structure Dead (s : State) (y : TagAddr) : Prop where
  lt : y < s.mem.brk
  tags : ∀ d, s.mem.tags d ≠ some y
  holds : ∀ c, (s.thread c).holds ≠ some y

/-- **Who has a tag, and where it is linked.** The parts need each other: that a tag in use stays
linked is so because a deletion takes it out under the write lock of the descriptor, which excludes
the users; that no two calls may link the same tag is so because the first of them has taken it out
of `tags`, where it was linked only once.  What has been freed is dead, which is what
`not_freed_of_uses` and the books of `TagAos.Service.Accounts` use. -/
structure Lifetimes (s : State) : Prop where
  /-- A tag in use is linked. -/
  uses : ∀ c d y, (s.thread c).uses = some (d, y) → s.mem.tags d = some y
  /-- A tag that a call may link is not linked. -/
  holds : ∀ c y, (s.thread c).holds = some y → ∀ d, s.mem.tags d ≠ some y
  /-- No two calls may link the same tag. -/
  alone : ∀ c c' y, (s.thread c).holds = some y → (s.thread c').holds = some y → c = c'
  buries : ∀ c y, (s.thread c).buries = some y → Dead s y
  cleared : ∀ y l, s.mem.cleared y l ≠ 0 → Dead s y
  freed : ∀ y, s.mem.tagFreed y ≠ 0 → Dead s y

/-! ## What a step does

All calls once more, and what each of their operations means for the tag it is about.  After
`LifeStep` the code is not looked at again in this module. -/

section Step

variable {s s' : State} {c : CallId}

/-- The things a step can do to the lifetime of a tag, where `t` and `t'` are the mover before and
after it. -/
inductive LifeStep (m m' : Mem) (t t' : Thread) : Prop
  | quiet (tags : m'.tags = m.tags) (holds : t'.holds = none ∨ t'.holds = t.holds)
      (buries : t'.buries = none ∨ t'.buries = t.buries)
  /-- A tag has been allocated. -/
  | created (tags : m'.tags = m.tags) (holds : t'.holds = some m.brk) (buries : t'.buries = none)
  /-- A tag has been published, or put back. -/
  | linked (d : ℕ) (y : TagAddr) (holds : t.holds = some y) (free : m.tags d = none)
      (tags : m'.tags = Function.update m.tags d (some y)) (holds' : t'.holds = none)
      (buries : t'.buries = none)
  /-- A tag has been taken out by its deletion. -/
  | unlinked (d : ℕ) (y : TagAddr) (lock : t.lockHeld = some (.tag d, .write))
      (tag : m.tags d = some y) (tags : m'.tags = Function.update m.tags d none)
      (holds : t'.holds = some y) (buries : t'.buries = none)
  /-- A deletion can no longer be undone. -/
  | buried (y : TagAddr) (tags : m'.tags = m.tags) (holds : t.holds = some y)
      (holds' : t'.holds = none) (buries : t'.buries = some y)

/-- What the registry does with a deletion, seen from the tag. -/
theorem deleteStep_life {m m' : Registry.Mem} {tag : ℤ} {euid i : ℕ} {x : Option TagAddr}
    {p p' : DeleteState} {o : Registry.Outcome} (hp : onAddr p = false)
    (h : Registry.deleteStep c m tag euid p o = some (m', p')) :
    let t := Thread.delete tag euid x i p
    let t' := Thread.delete tag euid x i p'
    (t'.holds = none ∨ t'.holds = t.holds) ∧ (t'.buries = none ∨ t'.buries = t.buries) ∨
      t'.holds = none ∧ t'.buries = t.holds := by
  cases p
  case start =>
    cases o <;> simp only [Registry.deleteStep, reduceCtorEq, Option.some.injEq,
      Prod.mk.injEq] at h
    obtain ⟨-, rfl⟩ := h
    refine .inl ⟨.inl ?_, .inl ?_⟩ <;> split_ifs <;> rfl
  case tryLock =>
    cases o <;> simp only [Registry.deleteStep, reduceCtorEq] at h
    · split at h <;> cases h <;> exact .inl ⟨.inl rfl, .inl rfl⟩
    · cases h; exact .inl ⟨.inl rfl, .inl rfl⟩
  case checkPerm e =>
    cases o <;> simp only [Registry.deleteStep, reduceCtorEq, Option.some.injEq,
      Prod.mk.injEq] at h
    obtain ⟨-, rfl⟩ := h
    refine .inl ⟨.inl ?_, .inl ?_⟩ <;> split_ifs <;> rfl
  case lockClear e =>
    cases o <;> simp only [Registry.deleteStep, reduceCtorEq, Option.some.injEq, Prod.mk.injEq,
      Option.map_eq_some_iff] at h
    · obtain ⟨m₁, -, -, rfl⟩ := h; exact .inr ⟨rfl, rfl⟩
    · obtain ⟨-, rfl⟩ := h; exact .inl ⟨.inr rfl, .inl rfl⟩
  case unlockTag e | unlockError rc | clearCommon e | unlockClear e =>
    cases o <;> simp only [Registry.deleteStep, reduceCtorEq, Option.some.injEq,
      Prod.mk.injEq] at h
    obtain ⟨-, rfl⟩ := h
    first
      | exact .inl ⟨.inr rfl, .inl rfl⟩
      | exact .inl ⟨.inl rfl, .inr rfl⟩
  case done rc => cases o <;> cases h
  all_goals cases hp

/-- What a step of the service does to the holders of a tag, to `tags` and to the tags that have
been freed.  A creation and a deletion are the only calls that do anything to them. -/
theorem Step.life (hr : Reachable s) (hl : Lifetimes s) (hs : Step s c s') :
    LifeStep s.mem s'.mem (s.thread c) (s'.thread c) := by
  have free : ∀ d key, (s.thread c).registry.owns = some (d, key) → s.mem.tags d = none := by
    intro d key hown
    have := (hr.registry.owned c d key hown).1
    exact Option.map_eq_none_iff.1 this
  cases hc : s.thread c with
  | get a x p =>
    obtain ⟨m, x', p', hx, rfl⟩ := hs.get hc
    rw [Config.set_thread_self]
    cases hx with
    | alloc => exact .created rfl rfl rfl
    | @publish d =>
      obtain ⟨y, rfl, -⟩ := hr.named.publish c a x d hc
      exact .linked d y rfl (free d a.key (by rw [hc]; rfl)) rfl rfl rfl
    | registry hp hp' h =>
      refine .quiet rfl (.inl ?_) (.inl rfl)
      cases p' <;> first | rfl | exact absurd rfl (hp' _)
  | delete tag u x i p =>
    obtain ⟨m, x', i', p', hx, rfl⟩ := hs.delete hc
    rw [Config.set_thread_self]
    cases hx with
    | loadTagNull | loadTag => exact .quiet rfl (.inl rfl) (.inl rfl)
    | @clearTag e =>
      obtain ⟨y, rfl, -⟩ := hr.named.delete c tag u x i _ e hc rfl
      exact .unlinked tag.toNat y rfl (hl.uses c _ _ (by rw [hc]; rfl)) rfl rfl rfl
    | waiting | notWaiting => exact .quiet rfl (.inr rfl) (.inl rfl)
    | @restore e rc =>
      obtain ⟨y, rfl, -⟩ := hr.named.delete c tag u x i _ e hc rfl
      exact .linked tag.toNat y rfl (free _ e.key (by rw [hc]; rfl)) rfl rfl rfl
    | @clearLevel e y hy hi =>
      obtain ⟨f, hf⟩ := s.mem.clearLevel_same y i
      exact .quiet (by rw [Config.set_mem, hf]) (.inl rfl) (.inr rfl)
    | freeTag => exact .quiet rfl (.inl rfl) (.inl rfl)
    | @registry _ _ o r hon ho h =>
      rcases deleteStep_life (i := i) (x := x) hon h with ⟨hholds, hburies⟩ | ⟨hnone, hburies⟩
      · exact .quiet rfl hholds hburies
      · cases hh : (Thread.delete tag u x i p).holds with
        | none => exact .quiet rfl (.inl hnone) (.inl (hburies.trans hh))
        | some y => exact .buried y rfl hh hnone (hburies.trans hh)
  | user tag x t =>
    obtain ⟨m, x', t', hx, rfl⟩ := hs.user hc
    rw [Config.set_thread_self]
    exact .quiet hx.frame.tags (.inl rfl) (.inl rfl)
  | read a x p =>
    rcases hs.read hc with ⟨o, q, hq, rfl⟩ | ⟨m, x', q, hx, rfl⟩
    · rw [Config.set_thread_self]
      exact .quiet rfl (.inl rfl) (.inl rfl)
    · rw [Config.set_thread_self]
      exact .quiet hx.frame.tags (.inl rfl) (.inl rfl)

/-- A tag is freed by the call that buries it. -/
theorem Step.frees (hs : Step s c s') (y : TagAddr) :
    (s'.mem.cleared y = s.mem.cleared y ∧ s'.mem.tagFreed y = s.mem.tagFreed y) ∨
      (s.thread c).buries = some y := by
  cases hc : s.thread c with
  | get a x p =>
    obtain ⟨m, x', p', hx, rfl⟩ := hs.get hc
    cases hx <;> exact .inl ⟨rfl, rfl⟩
  | delete tag u x i p =>
    obtain ⟨m, x', i', p', hx, rfl⟩ := hs.delete hc
    cases hx with
    | @clearLevel e z hz hi =>
      by_cases hy : y = z
      · subst hy hz; exact .inr rfl
      · refine .inl ?_
        rw [Config.set_mem, Mem.clearLevel]
        split
        · exact ⟨rfl, rfl⟩
        · exact ⟨Function.update_of_ne hy .., rfl⟩
    | @freeTag e z hz hi =>
      by_cases hy : y = z
      · subst hy hz; exact .inr rfl
      · exact .inl ⟨rfl, Function.update_of_ne hy ..⟩
    | _ => exact .inl ⟨rfl, rfl⟩
  | user tag x t =>
    obtain ⟨m, x', t', hx, rfl⟩ := hs.user hc
    exact .inl ⟨congrFun hx.frame.cleared y, congrFun hx.frame.tagFreed y⟩
  | read a x p =>
    rcases hs.read hc with ⟨o, q, hq, rfl⟩ | ⟨m, x', q, hx, rfl⟩
    · exact .inl ⟨rfl, rfl⟩
    · exact .inl ⟨congrFun hx.frame.cleared y, congrFun hx.frame.tagFreed y⟩

/-- A call comes to use a tag by loading it. -/
theorem ExecOn.uses {π : Type} {ann : π → Ann} {a : Ann} {i : Instr π} {m m' : Mem} {d e : ℕ}
    {x x' : Option TagAddr} {p : π} {y : TagAddr} (hs : i.Sound ann a)
    (hf : ∀ y, x = some y → ∀ l, (m.obj y).mayInterrupt (.rcu l) = true → a.fresh ≠ some l)
    (h : ExecOn c m d x i m' x' p) (hu : usesOf d x' (ann p) = some (e, y)) :
    m.tags e = some y ∨ usesOf d x a = some (e, y) := by
  have keep : ∀ {b : Ann}, a.Keep b → b.holdsTag = a.holdsTag := fun hk => by
    rw [Ann.holdsTag, Ann.holdsTag, hk.held]
  cases h with
  | jump =>
    rw [usesOf, keep hs] at hu
    exact .inr hu
  | lockTag => simp [usesOf] at hu
  | lockTagIntr =>
    rw [usesOf, keep (hs.2.2.2 fun y hy => by cases hy)] at hu
    exact .inr hu
  | unlockTag =>
    have hfree : (ann p).holdsTag = false := by simp [Ann.holdsTag, hs.2.held, Ann.release]
    rw [usesOf, hfree] at hu
    cases hu
  | loadTags h =>
    rw [usesOf] at hu
    split at hu
    · cases hu; exact .inl h
    · cases hu
  | loadTagsNull => simp [usesOf] at hu
  | tag hi hx h =>
    rw [usesOf, holdsTag_of_exec hs hi h (hf _ hx)] at hu
    exact .inr hu

/-- A deletion comes to use a tag only where it loads one, not in its work on the registry. -/
theorem uses_of_deleteStep {m m' : Registry.Mem} {tag : ℤ} {euid i : ℕ} {x : Option TagAddr}
    {p p' : DeleteState} {o : Registry.Outcome} (hp : onAddr p = false)
    (h : Registry.deleteStep c m tag euid p o = some (m', p')) {d : ℕ} {y : TagAddr}
    (hu : (Thread.delete tag euid x i p').uses = some (d, y)) :
    (Thread.delete tag euid x i p).uses = some (d, y) := by
  cases p
  case start =>
    cases o <;> simp only [Registry.deleteStep, reduceCtorEq, Option.some.injEq,
      Prod.mk.injEq] at h
    obtain ⟨-, rfl⟩ := h
    split_ifs at hu <;> cases hu
  case tryLock =>
    cases o <;> simp only [Registry.deleteStep, reduceCtorEq] at h
    · split at h <;> cases h <;> cases hu
    · cases h; cases hu
  case checkPerm e =>
    cases o <;> simp only [Registry.deleteStep, reduceCtorEq, Option.some.injEq,
      Prod.mk.injEq] at h
    obtain ⟨-, rfl⟩ := h
    split_ifs at hu
    · cases hu
    · exact hu
  case lockClear e =>
    cases o <;> simp only [Registry.deleteStep, reduceCtorEq, Option.some.injEq, Prod.mk.injEq,
      Option.map_eq_some_iff] at h
    · obtain ⟨m₁, -, -, rfl⟩ := h; cases hu
    · obtain ⟨-, rfl⟩ := h; cases hu
  case unlockTag e | unlockError rc | clearCommon e | unlockClear e =>
    cases o <;> simp only [Registry.deleteStep, reduceCtorEq, Option.some.injEq,
      Prod.mk.injEq] at h
    obtain ⟨-, rfl⟩ := h
    cases hu
  case done rc => cases o <;> cases h
  all_goals cases hp

/-- A call comes to use a tag by loading it, and does not assign `tags` on the way. -/
theorem Step.uses (hr : Reachable s) (hs : Step s c s') {d : ℕ} {y : TagAddr}
    (hu : (s'.thread c).uses = some (d, y)) :
    s'.mem.tags = s.mem.tags ∧ (s.mem.tags d = some y ∨ (s.thread c).uses = some (d, y)) := by
  cases hc : s.thread c with
  | get a x p =>
    obtain ⟨m, x', p', hx, rfl⟩ := hs.get hc
    rw [Config.set_thread_self] at hu
    cases hu
  | delete tag u x i p =>
    obtain ⟨m, x', i', p', hx, rfl⟩ := hs.delete hc
    rw [Config.set_thread_self] at hu
    cases hx with
    | loadTag h => cases hu; exact ⟨rfl, .inl h⟩
    | registry hon ho h => exact ⟨rfl, .inr (uses_of_deleteStep hon h hu)⟩
    | _ => cases hu
  | user tag x t =>
    obtain ⟨m, x', t', hx, rfl⟩ := hs.user hc
    rw [Config.set_thread_self] at hu
    refine ⟨hx.frame.tags, hx.uses (user_sound tag t) (fun z hz l hl => ?_) hu⟩
    have := hr.disciplined.fresh_ne (c := c) (by rw [hc]; exact hz) hl
    rwa [hc] at this
  | read a x p =>
    rcases hs.read hc with ⟨o, q, hq, rfl⟩ | ⟨m, x', q, hx, rfl⟩
    · rw [Config.set_thread_self] at hu
      refine ⟨rfl, .inr ?_⟩
      have hkeep : q.ann.holdsTag = p.ann.holdsTag := by
        rw [Ann.holdsTag, Ann.holdsTag, (readFails_keep hq).held]
      have hlock := readFails_lock hq
      simp only [Thread.uses, usesOf, tagLock] at hu hlock ⊢
      rw [hkeep] at hu hlock
      split at hu
      · rename_i hheld
        rw [if_pos hheld, if_pos hheld] at hlock
        rw [if_pos hheld, ← hu]
        have hdesc : q.desc = p.desc := by
          have := congrArg Prod.fst (Option.some.inj hlock)
          exact Registry.Lock.tag.inj this
        rw [hdesc]
      · cases hu
    · rw [Config.set_thread_self] at hu
      have hdesc : usesOf p.desc x' q.ann = some (d, y) := by
        rw [← hu, Thread.uses, usesOf, usesOf]
        split
        · rename_i hq; rw [read_desc hx hq]
        · rfl
      refine ⟨hx.frame.tags, hx.uses (read_sound a _ p) (fun z hz l hl => ?_) hdesc⟩
      have := hr.disciplined.fresh_ne (c := c) (by rw [hc]; exact hz) hl
      rwa [hc] at this

/-- Who uses a tag holds the lock of its descriptor. -/
theorem Thread.lockHeld_of_uses {t : Thread} {d : ℕ} {y : TagAddr} (h : t.uses = some (d, y)) :
    ∃ md, t.lockHeld = some (.tag d, md) := by
  have locked : ∀ {e : ℕ} {x : Option TagAddr} {a : Ann}, usesOf e x a = some (d, y) →
      tagLock e a = some (.tag d, .read) := by
    intro e x a hu
    rw [usesOf] at hu
    split at hu
    · rename_i hheld
      obtain ⟨z, -, hz⟩ := Option.map_eq_some_iff.1 hu
      cases hz
      exact if_pos hheld
    · cases hu
  cases t with
  | get a x p => cases h
  | delete tag u x i p =>
    cases p
    case checkPerm e =>
      obtain ⟨z, -, hz⟩ := Option.map_eq_some_iff.1 h
      cases hz
      exact ⟨.write, rfl⟩
    case clearTag e =>
      obtain ⟨z, -, hz⟩ := Option.map_eq_some_iff.1 h
      cases hz
      exact ⟨.write, rfl⟩
    all_goals cases h
  | user tag x t => exact ⟨.read, locked h⟩
  | read a x p => exact ⟨.read, locked h⟩

/-- A tag is taken out only under the write lock of its descriptor. -/
theorem LifeStep.tags {m m' : Mem} {t t' : Thread} (h : LifeStep m m' t t') {d : ℕ} {y : TagAddr}
    (hd : m.tags d = some y) :
    m'.tags d = some y ∨ t.lockHeld = some (.tag d, .write) := by
  cases h with
  | quiet tags | created tags | buried _ tags => exact .inl (by rw [tags]; exact hd)
  | linked e z holds free tags =>
    have hne : d ≠ e := by
      rintro rfl
      rw [free] at hd; cases hd
    exact .inl (by rw [tags, Function.update_of_ne hne]; exact hd)
  | unlinked e z lock tag tags =>
    by_cases hde : d = e
    · subst hde; exact .inr lock
    · exact .inl (by rw [tags, Function.update_of_ne hde]; exact hd)

/-- A descriptor is that of the tag it leads to. -/
theorem Reachable.tagKey_eq (hr : Reachable s) {d : ℕ} {y : TagAddr}
    (hd : s.mem.tags d = some y) : s.mem.tagKey y = d := by
  have hreg : s.registry.mem.tags d = some (s.mem.entry y) := by
    show (s.mem.tags d).map s.mem.entry = _
    rw [hd]
    rfl
  exact (hr.registry.live d _ hreg).1

theorem Thread.entry_of_holds {t : Thread} {y : TagAddr} (h : t.holds = some y) :
    t.entry = some y := by
  cases t with
  | get a x p => cases p <;> first | exact h | cases h
  | delete tag u x i p => cases p <;> first | exact h | cases h
  | user | read => cases h

theorem Thread.entry_of_buries {t : Thread} {y : TagAddr} (h : t.buries = some y) :
    t.entry = some y := by
  cases t with
  | delete tag u x i p => cases p <;> first | exact h | cases h
  | get | user | read => cases h

theorem Thread.entry_of_uses {t : Thread} {d : ℕ} {y : TagAddr} (h : t.uses = some (d, y)) :
    t.entry = some y := by
  have loaded : ∀ {x : Option TagAddr} {e : ℕ}, (x.map fun y => (e, y)) = some (d, y) →
      x = some y := by
    intro x e hx
    obtain ⟨z, hz, hzy⟩ := Option.map_eq_some_iff.1 hx
    cases hzy
    exact hz
  have onLock : ∀ {x : Option TagAddr} {e : ℕ} {a : Ann}, usesOf e x a = some (d, y) →
      x = some y := by
    intro x e a hu
    rw [usesOf] at hu
    split at hu
    · exact loaded hu
    · cases hu
  cases t with
  | get => cases h
  | delete tag u x i p => cases p <;> first | exact loaded h | cases h
  | user tag x t => exact onLock h
  | read a x p => exact onLock h

section Keep

variable (hr : Reachable s) (h : Lifetimes s) (hs : Step s c s')

include hr h hs

/-- A tag in use stays linked: whoever takes it out of `tags` holds its lock for writing, and the
user holds it for reading. -/
theorem uses_step (f : CallId) (d : ℕ) (y : TagAddr) (hf : (s'.thread f).uses = some (d, y)) :
    s'.mem.tags d = some y := by
  by_cases hfc : f = c
  · subst hfc
    obtain ⟨htags, hd | hd⟩ := hs.uses hr hf
    · rw [htags]; exact hd
    · rw [htags]; exact h.uses f d y hd
  · rw [hs.thread_of_ne hfc] at hf
    rcases (hs.life hr h).tags (h.uses f d y hf) with hd | hlock
    · exact hd
    · -- the user of the tag keeps every deletion out
      obtain ⟨md, hmd⟩ := Thread.lockHeld_of_uses hf
      exact absurd (hr.locks.alone hlock hmd).1 hfc

/-- Who may link a tag after a step: who already could, or the mover, which has just allocated it
or taken it out. -/
theorem holds_succ {f : CallId} {y : TagAddr} (hf : (s'.thread f).holds = some y) :
    (s.thread f).holds = some y ∨ f = c ∧ (y = s.mem.brk ∧ s'.mem.tags = s.mem.tags ∨
      ∃ d, s.mem.tags d = some y ∧ s'.mem.tags = Function.update s.mem.tags d none) := by
  by_cases hfc : f = c
  · subst hfc
    cases hs.life hr h with
    | quiet tags holds =>
      rcases holds with holds | holds
      · rw [holds] at hf; cases hf
      · exact .inl (holds ▸ hf)
    | created tags holds =>
      rw [holds] at hf
      cases hf
      exact .inr ⟨rfl, .inl ⟨rfl, tags⟩⟩
    | linked _ _ _ _ _ holds' | buried _ _ _ holds' => rw [holds'] at hf; cases hf
    | unlinked d z lock tag tags holds =>
      rw [holds] at hf
      cases hf
      exact .inr ⟨rfl, .inr ⟨d, tag, tags⟩⟩
  · rw [hs.thread_of_ne hfc] at hf
    exact .inl hf

/-- What `tags` points to after a step it has pointed to before, unless the mover has linked it. -/
theorem tags_succ {d : ℕ} {y : TagAddr} (hd : s'.mem.tags d = some y) :
    s.mem.tags d = some y ∨ (s.thread c).holds = some y ∧ (s'.thread c).holds = none := by
  cases hs.life hr h with
  | quiet tags | created tags | buried _ tags => exact .inl (by rw [← tags]; exact hd)
  | linked e z holds free tags holds' =>
    rw [tags] at hd
    by_cases hde : d = e
    · subst hde
      rw [Function.update_self] at hd
      exact .inr ⟨holds.trans hd, holds'⟩
    · rw [Function.update_of_ne hde] at hd
      exact .inl hd
  | unlinked e z lock tag tags =>
    rw [tags] at hd
    by_cases hde : d = e
    · subst hde
      rw [Function.update_self] at hd
      cases hd
    · rw [Function.update_of_ne hde] at hd
      exact .inl hd

/-- A tag that a call holds, and may link, is linked nowhere yet. -/
theorem holds_step (f : CallId) (y : TagAddr) (hf : (s'.thread f).holds = some y) (d : ℕ) :
    s'.mem.tags d ≠ some y := by
  intro hd
  rcases tags_succ hr h hs hd with hold | ⟨hc, hnone⟩
  · rcases holds_succ hr h hs hf with hf' | ⟨rfl, ⟨rfl, -⟩ | ⟨e, he, htags⟩⟩
    · exact h.holds f y hf' d hold
    · exact lt_irrefl _ (hr.bounds.tags d _ hold)
    · have hde : d = e := (hr.tagKey_eq hold).symm.trans (hr.tagKey_eq he)
      subst hde
      rw [htags, Function.update_self] at hd
      cases hd
  · by_cases hfc : f = c
    · subst hfc; rw [hnone] at hf; cases hf
    · rw [hs.thread_of_ne hfc] at hf
      exact hfc (h.alone f c y hf hc)

/-- A tag is held by one call at most. -/
theorem alone_step (f g : CallId) (y : TagAddr) (hf : (s'.thread f).holds = some y)
    (hg : (s'.thread g).holds = some y) : f = g := by
  have old : ∀ {e : CallId}, (s.thread e).holds = some y → y < s.mem.brk :=
    fun he => hr.bounds.entry _ y (Thread.entry_of_holds he)
  rcases holds_succ hr h hs hf with hf' | ⟨rfl, hnew⟩
  · rcases holds_succ hr h hs hg with hg' | ⟨rfl, ⟨rfl, -⟩ | ⟨d, hd, -⟩⟩
    · exact h.alone f g y hf' hg'
    · exact absurd (old hf') (lt_irrefl _)
    · exact absurd hd (h.holds f y hf' d)
  · rcases holds_succ hr h hs hg with hg' | ⟨rfl, -⟩
    · rcases hnew with ⟨rfl, -⟩ | ⟨d, hd, -⟩
      · exact absurd (old hg') (lt_irrefl _)
      · exact absurd hd (h.holds g y hg' d)
    · rfl

/-- **Dead tags stay dead.** -/
theorem Dead.step {y : TagAddr} (hy : Dead s y) : Dead s' y := by
  refine ⟨?_, fun d hd => ?_, fun f hf => ?_⟩
  · cases hs.addr with
    | same brk | store _ _ _ brk => rw [brk]; exact hy.lt
    | alloc brk => rw [brk]; exact Nat.lt_succ_of_lt hy.lt
  · rcases tags_succ hr h hs hd with hold | ⟨hc, -⟩
    · exact hy.tags d hold
    · exact hy.holds c hc
  · rcases holds_succ hr h hs hf with hf' | ⟨-, ⟨rfl, -⟩ | ⟨d, hd, -⟩⟩
    · exact hy.holds f hf'
    · exact absurd hy.lt (lt_irrefl _)
    · exact hy.tags d hd

/-- The tag that a deletion is going to free is dead.  The deletion has held it alone and gives up
the possibility to link it again. -/
theorem buries_step (f : CallId) (y : TagAddr) (hf : (s'.thread f).buries = some y) :
    Dead s' y := by
  by_cases hfc : f = c
  · subst hfc
    cases hs.life hr h with
    | quiet tags holds buries =>
      rcases buries with buries | buries
      · rw [buries] at hf; cases hf
      · exact (h.buries f y (buries ▸ hf)).step hr h hs
    | created _ _ buries | linked _ _ _ _ _ _ buries | unlinked _ _ _ _ _ _ buries =>
      rw [buries] at hf; cases hf
    | buried z tags holds holds' buries =>
      obtain rfl : z = y := Option.some.inj (buries.symm.trans hf)
      refine ⟨?_, fun d hd => ?_, fun g hg => ?_⟩
      · have hlt := hr.bounds.entry f z (Thread.entry_of_holds holds)
        cases hs.addr with
        | same brk | store _ _ _ brk => rw [brk]; exact hlt
        | alloc brk => rw [brk]; exact Nat.lt_succ_of_lt hlt
      · rw [tags] at hd
        exact h.holds f z holds d hd
      · by_cases hgf : g = f
        · subst hgf; rw [holds'] at hg; cases hg
        · rw [hs.thread_of_ne hgf] at hg
          exact hgf (h.alone g f z hg holds)
  · rw [hs.thread_of_ne hfc] at hf
    exact (h.buries f y hf).step hr h hs

/-- A step keeps the lifetimes apart, field by field. -/
theorem Lifetimes.step : Lifetimes s' where
  uses := uses_step hr h hs
  holds := holds_step hr h hs
  alone := alone_step hr h hs
  buries := buries_step hr h hs
  cleared y l hy := by
    rcases hs.frees y with ⟨heq, -⟩ | hb
    · rw [heq] at hy
      exact (h.cleared y l hy).step hr h hs
    · exact (h.buries c y hb).step hr h hs
  freed y hy := by
    rcases hs.frees y with ⟨-, heq⟩ | hb
    · rw [heq] at hy
      exact (h.freed y hy).step hr h hs
    · exact (h.buries c y hb).step hr h hs

end Keep

/-- No tag is there when the module has just been loaded. -/
theorem Init.lifetimes (h : Init s) : Lifetimes s := by
  have unused : ∀ {c : CallId} {y : TagAddr}, (s.thread c).entry ≠ some y := fun {c y} he => by
    rw [h.entry c] at he
    cases he
  refine ⟨fun c d y hc => absurd (Thread.entry_of_uses hc) unused,
    fun c y hc => absurd (Thread.entry_of_holds hc) unused,
    fun c _ y hc => absurd (Thread.entry_of_holds hc) unused,
    fun c y hc => absurd (Thread.entry_of_buries hc) unused, fun y l hy => ?_, fun y hy => ?_⟩
  · rw [h.mem] at hy
    exact absurd rfl hy
  · rw [h.mem] at hy
    exact absurd rfl hy

/-- **The lifetimes of tags exclude each other** in every reachable state. -/
theorem Reachable.lifetimes (h : Reachable s) : Lifetimes s :=
  h.induction (fun _ h0 => h0.lifetimes) fun _ _ _ hr hp hs => hp.step hr hs

/-- A tag in use is not freed, and neither is any of its instances. -/
theorem Reachable.not_freed_of_uses (h : Reachable s) {d : ℕ} {y : TagAddr}
    (hu : (s.thread c).uses = some (d, y)) :
    s.mem.tagFreed y = 0 ∧ ∀ l, s.mem.cleared y l = 0 := by
  have hl := h.lifetimes
  have htag := hl.uses c d y hu
  refine ⟨?_, fun l => ?_⟩
  · by_contra hne
    exact (hl.freed y hne).tags d htag
  · by_contra hne
    exact (hl.cleared y l hne).tags d htag

end Step

/-! ## Loaded tags

A call uses `tag_entry` only after it has loaded it, and has found that there is a tag.  In the
model that is a fact about every reachable state, since the local variable is an `Option`. -/

/-- The call has loaded its tag and works on it. -/
def working : TagAos.Thread → Bool
  | .receive _ .start | .receive _ .loadTag | .receive _ (.unlockTag _) | .receive _ (.done _)
  | .send _ .start | .send _ .loadTag | .send _ (.unlockTag _) | .send _ (.done _)
  | .awake _ .start | .awake _ .loadTag | .awake _ (.unlockTag _) | .awake _ (.done _) => false
  | _ => true

/-- `dev_read` has loaded a tag and works on it. -/
def ReadState.working : ReadState → Bool
  | loadEntry _ | lockLevel _ | loadLevel _ | unlockLevelSkip _ | lockRcu _ _ | unlockLevel _ _
  | allocTemp _ _ | readWaiting _ _ | append _ _ _ | unlockRcuSkip _ _ | unlockRcuError _ _
  | unlockRcu _ _ => true
  | _ => false

/-- The call works on the tag `tag_entry`. -/
def Thread.working : Thread → Bool
  | user _ _ t => Service.working t
  | read _ _ p => p.working
  | _ => false

section Loaded

variable {s s' : State} {c : CallId} {m m' : Mem} {d : ℕ} {x x' : Option TagAddr}

/-- A receive that works on a tag after a step has loaded it. -/
theorem receive_loaded {a : ReceiveArgs} {p p' : ReceiveState}
    (h : ExecOn c m d x (receiveCode a p) m' x' p')
    (hx : working (.receive a p) = true → x ≠ none) (hp : working (.receive a p') = true) :
    x' ≠ none := by
  cases p
  case start =>
    rw [receiveCode] at h
    split at h
    · cases h <;> first | cases hp | contradiction
    · cases h <;> first | cases hp | contradiction
  case loadTag =>
    cases h
    · simp
    · cases hp
    · contradiction
  case unlockTag | done => cases h <;> first | cases hp | contradiction
  case release rel r => cases rel <;> cases h <;> exact hx rfl
  all_goals (cases h; exact hx rfl)

/-- The same for a send. -/
theorem send_loaded {b : SendArgs} {p p' : SendState}
    (h : ExecOn c m d x (sendCode b p) m' x' p')
    (hx : working (.send b p) = true → x ≠ none) (hp : working (.send b p') = true) :
    x' ≠ none := by
  cases p
  case start =>
    rw [sendCode] at h
    split at h
    · cases h <;> first | cases hp | contradiction
    · cases h <;> first | cases hp | contradiction
  case loadTag =>
    cases h
    · simp
    · cases hp
    · contradiction
  case unlockTag | done => cases h <;> first | cases hp | contradiction
  all_goals cases h <;> exact hx rfl

/-- The same for an `AWAKE_ALL` command. -/
theorem awake_loaded {e : ℕ} {p p' : AwakeState}
    (h : ExecOn c m d x (awakeCode e p) m' x' p')
    (hx : working (.awake e p) = true → x ≠ none) (hp : working (.awake e p') = true) :
    x' ≠ none := by
  cases p
  case start => cases h <;> first | cases hp | contradiction
  case loadTag =>
    cases h
    · simp
    · cases hp
    · contradiction
  case unlockTag | done => cases h <;> first | cases hp | contradiction
  all_goals (cases h; exact hx rfl)

/-- The same for a `dev_read`. -/
theorem read_loaded {a : ReadArgs} {e : Registry.Entry} {p p' : ReadState}
    (h : ExecOn c m d x (readCode a e p) m' x' p') (hx : p.working = true → x ≠ none)
    (hp : p'.working = true) : x' ≠ none := by
  have tag : ∀ v : ReadVars, (ReadState.nextTag v).working = false := fun v => by
    rw [ReadState.nextTag]
    split <;> rfl
  cases p
  case start =>
    cases h
    · rw [ReadArgs.failed] at hp
      split_ifs at hp <;> cases hp
    · contradiction
  case lockTag v =>
    cases h
    · cases hp
    · rw [tag] at hp; cases hp
    · contradiction
  case loadTag v =>
    cases h
    · simp
    · cases hp
    · contradiction
  case unlockTag v =>
    cases h
    · rw [tag] at hp; cases hp
    · contradiction
  case copyOut v =>
    cases h
    · split at hp <;> cases hp
    · contradiction
  case allocBuffer | allocHeader | allocDivider | appendDivider | unlockTagError | unlockTagExit
      | done =>
    cases h <;> first | cases hp | contradiction
  all_goals cases h <;> exact hx rfl

theorem readFails_working {a : ReadArgs} {p q : ReadState} {o : Outcome}
    (h : readFails a p o = some q) (hq : q.working = true) : p.working = true := by
  cases p <;> cases o <;> simp only [readFails, reduceCtorEq, Option.some.injEq,
    Option.ite_none_right_eq_some, ReadArgs.failed] at h
  case allocTemp.nomem => rfl
  case append.nomem => rfl
  case appendDivider.nomem | copyOut.fault => obtain ⟨-, rfl⟩ := h; cases hq
  all_goals subst h; cases hq

theorem Thread.not_working_of_idle {t : Thread} (h : t.idle = true) : t.working = false := by
  cases t with
  | user tag x t =>
    cases t with
    | receive a p => cases p <;> first | rfl | cases h
    | send b p => cases p <;> first | rfl | cases h
    | awake e p => cases p <;> first | rfl | cases h
  | read a x p => cases p <;> first | rfl | cases h
  | get | delete => rfl

/-- Every call that works on a tag has loaded it. -/
def AllLoaded (s : State) : Prop :=
  ∀ c, (s.thread c).working = true → (s.thread c).entry ≠ none

theorem Init.allLoaded (h : Init s) : AllLoaded s := by
  intro c hw
  rw [Thread.not_working_of_idle (h.idle c)] at hw
  cases hw

/-- A step keeps this, by cases on the call that moves. -/
theorem AllLoaded.step (h : AllLoaded s) (hs : Step s c s') : AllLoaded s' := by
  intro d hw
  by_cases hdc : d = c
  · subst hdc
    have old := h d
    cases hc : s.thread d with
    | user tag x t =>
      rw [hc] at old
      cases t with
      | receive a p =>
        rcases hs.receive hc with ⟨-, rfl⟩ | ⟨m, x', p', hx, rfl⟩ <;>
          rw [Config.set_thread_self] at hw ⊢
        · cases hw
        · exact receive_loaded hx old hw
      | send b p =>
        rcases hs.send hc with ⟨-, rfl⟩ | ⟨m, x', p', hx, rfl⟩ <;>
          rw [Config.set_thread_self] at hw ⊢
        · cases hw
        · exact send_loaded hx old hw
      | awake e p =>
        rcases hs.awake hc with ⟨-, rfl⟩ | ⟨m, x', p', hx, rfl⟩ <;>
          rw [Config.set_thread_self] at hw ⊢
        · cases hw
        · exact awake_loaded hx old hw
    | read a x p =>
      rw [hc] at old
      rcases hs.read hc with ⟨o, q, hq, rfl⟩ | ⟨m, x', q, hx, rfl⟩ <;>
        rw [Config.set_thread_self] at hw ⊢
      · exact old (readFails_working hq hw)
      · exact read_loaded hx old hw
    | get a x p =>
      obtain ⟨m, x', p', -, rfl⟩ := hs.get hc
      rw [Config.set_thread_self] at hw; cases hw
    | delete tag u x i p =>
      obtain ⟨m, x', i', p', -, rfl⟩ := hs.delete hc
      rw [Config.set_thread_self] at hw; cases hw
  · rw [hs.thread_of_ne hdc] at hw ⊢
    exact h d hw

/-- **A call that works on a tag has loaded it.** -/
theorem Reachable.loaded (h : Reachable s) : AllLoaded s :=
  h.induction (fun _ h0 => h0.allLoaded) fun _ _ _ _ hp hs => hp.step hs

end Loaded

end TagAos.Service
