import TagAos.Service.System

/-!
# The calls on each tag obey the locking discipline

`TagAos.Tag.Ownership` draws its invariant from the annotations of the calls on one tag.  Here
there are many tags, and a call is on the one it has loaded.  `State.annsOn y` gives the
annotations as the tag `y` sees them: a call on another tag owns nothing there, and `tag_lock` is
not part of the tag.  Every step of the service is then a `Change` on every tag
(`Step.changeOn`), and the invariant of `TagAos.Tag.Ownership` holds of every tag
(`Reachable.tag`).

The locks outside of the tags are `common_lock` and `tag_lock`; a call holds at most one of them
(`Reachable.locks`).
-/

set_option autoImplicit false

/-! ## Annotations without `tag_lock`

The annotations of `TagAos.Tag.Discipline` were made for one tag, where `tag_lock` is a lock like
the others.  In the service it belongs to a descriptor and outlives the tag, so a tag is shown what
an annotation says about the locks inside of it only.  Every operation on annotations goes through
to that. -/

namespace TagAos

open Conc

namespace Ann

/-- The annotation without `tag_lock`. -/
def inside (a : Ann) : Ann := { a with held := a.held.filter fun l => l.1 ≠ .tag }

/-- `tag_lock` is held. -/
def holdsTag (a : Ann) : Bool := (.tag, .read) ∈ a.held

theorem mem_inside {a : Ann} {l : Sem} {md : Mode} :
    (l, md) ∈ a.inside.held ↔ (l, md) ∈ a.held ∧ l ≠ .tag := by simp [inside]

@[simp] theorem inside_empty : ({} : Ann).inside = {} := rfl

/-- An operation that keeps the annotations keeps those inside of the tag. -/
theorem Keep.inside {a b : Ann} (h : a.Keep b) : a.inside.Keep b.inside where
  held := by rw [Ann.inside, h.held, Ann.inside]
  mutex := h.mutex
  counted := h.counted
  clearing := h.clearing
  reg := h.reg
  link := h.link
  busy := h.busy
  idle := h.idle
  fresh := h.fresh
  own := h.own

theorem Keep.refl (a : Ann) : a.Keep a := by simp [keep_iff]

/-- Who owns and knows nothing keeps nothing. -/
theorem Keep.eq_empty {b : Ann} (h : ({} : Ann).Keep b) : b = {} := by
  obtain ⟨held, mutex, counted, clearing, reg, link, busy, idle, fresh, own⟩ := b
  obtain ⟨h1, h2, h3, h4, h5, h6, h7, h8, h9, h10⟩ := h
  dsimp only at *
  have hown : own = [] := List.eq_nil_iff_forall_not_mem.2 fun x hx => by cases h10 x hx
  subst h1 h2 h3 h4 h5 hown
  simp only [or_self] at h6 h7 h8 h9
  subst h6 h7 h8 h9
  rfl

theorem acquire_inside {a : Ann} {l : Sem} {md : Mode} (hl : l ≠ .tag) :
    (a.acquire l md).inside = a.inside.acquire l md := by simp [acquire, inside, hl]

theorem release_inside (a : Ann) (l : Sem) (md : Mode) :
    (a.release l md).inside = a.inside.release l md := by
  simp only [release, inside, List.filter_filter]
  congr 2
  funext x
  rw [Bool.and_comm]

/-- The release of `tag_lock` is not visible inside. -/
theorem release_tag_inside (a : Ann) (md : Mode) : (a.release .tag md).inside = a.inside := by
  simp only [release, inside, List.filter_filter]
  congr 2
  funext x
  by_cases hx : x.1 = .tag <;> simp [hx, Prod.ext_iff]

theorem WF.inside {a : Ann} (h : a.WF) : a.inside.WF where
  link i x hx := by
    obtain ⟨md, hmd⟩ := h.link i x hx
    exact ⟨md, mem_inside.2 ⟨hmd, by simp⟩⟩
  busy x hx := by
    obtain ⟨i, hl, hmd⟩ := h.busy x hx
    exact ⟨i, hl, mem_inside.2 ⟨hmd, by simp⟩⟩
  idle x hx := (h.idle x hx).imp (fun hm => ⟨hm.1, mem_inside.2 ⟨hm.2, by simp⟩⟩)
    fun hw => mem_inside.2 ⟨hw, by simp⟩
  rcu x md hx := h.rcu x md (mem_inside.1 hx).1
  reg := h.reg
  mutex := h.mutex
  fresh := h.fresh

end Ann

namespace Service

open Registry (Lock GetState DeleteState)

section Instr

variable {π : Type} {ann : π → Ann} {a : Ann} {i : Instr π}

/-- An instruction on the tag obeys the discipline when `tag_lock` is left out of account. -/
theorem sound_inside (hs : i.Sound ann a) (hi : inTag i = true) :
    i.Sound (fun p => (ann p).inside) a.inside := by
  cases i
  case downRead l ok intr =>
    have hl : l ≠ .tag := by rintro rfl; cases hi
    obtain ⟨h1, h2, h3, h4⟩ := hs
    exact ⟨fun md hmd => h1 md (Ann.mem_inside.1 hmd).1, h2,
      Ann.acquire_inside hl ▸ h3.inside, fun hf => (h4 hf).inside⟩
  case upRead l p =>
    have hl : l ≠ .tag := by rintro rfl; cases hi
    exact ⟨Ann.mem_inside.2 ⟨hs.1, hl⟩, Ann.release_inside a l _ ▸ hs.2.inside⟩
  case downWrite l ok intr =>
    have hl : l ≠ .tag := by rintro rfl; cases hi
    obtain ⟨h1, h2, h3, h4⟩ := hs
    exact ⟨fun md hmd => h1 md (Ann.mem_inside.1 hmd).1, h2,
      Ann.acquire_inside hl ▸ h3.inside, h4.inside⟩
  case tryWrite l ok busy =>
    have hl : l ≠ .tag := by rintro rfl; cases hi
    obtain ⟨h1, h2, h3, h4, h5⟩ := hs
    exact ⟨fun md hmd => h1 md (Ann.mem_inside.1 hmd).1, h2, h3,
      Ann.acquire_inside hl ▸ h4.inside, h5.inside⟩
  case upWrite l p =>
    have hl : l ≠ .tag := by rintro rfl; cases hi
    exact ⟨Ann.mem_inside.2 ⟨hs.1, hl⟩, hs.2.1, Ann.release_inside a l _ ▸ hs.2.2.inside⟩
  case storeTagReady v p =>
    cases v
    · exact ⟨hs.1, hs.2.inside⟩
    · exact ⟨hs.1, hs.2.inside⟩
  case storeReady x v p =>
    cases v
    · exact ⟨Ann.mem_inside.2 ⟨hs.1, by simp⟩, hs.2.inside⟩
    · exact ⟨hs.1, hs.2.1, Ann.mem_inside.2 ⟨hs.2.2.1, by simp⟩, hs.2.2.2.inside⟩
  case incWaiting x p => exact ⟨hs.1, Ann.mem_inside.2 ⟨hs.2.1, by simp⟩, hs.2.2.inside⟩
  case loadLevel j null found =>
    refine ⟨hs.1.inside, fun x => (hs.2 x).imp Ann.Keep.inside fun hk => ⟨?_, hk.2.inside⟩⟩
    obtain ⟨md, hmd⟩ := hk.1
    exact ⟨md, Ann.mem_inside.2 ⟨hmd, by simp⟩⟩
  case storeLevel j x p => exact ⟨Ann.mem_inside.2 ⟨hs.1, by simp⟩, hs.2.1, hs.2.2.inside⟩
  case createLevel j e failed ok => exact ⟨hs.1, hs.2.1.inside, fun x => (hs.2.2 x).inside⟩
  case decTagWaiting z nz => exact ⟨hs.1, hs.2.1, hs.2.2.1.inside, hs.2.2.2.inside⟩
  case decWaiting x z nz => exact ⟨hs.1, hs.2.1.inside, hs.2.2.inside⟩
  case tryMutex x ok busy => exact ⟨hs.1, hs.2.1.inside, hs.2.2.inside⟩
  case copyFromUser x data n ok fault => exact ⟨hs.1, hs.2.1.inside, hs.2.2.inside⟩
  case copyToUser x n ok fault => exact fun bs => ⟨(hs bs).1.inside, (hs bs).2.inside⟩
  case ret => trivial
  all_goals first
    | exact hs.inside
    | exact fun n => (hs n).inside
    | exact ⟨hs.1, hs.2.inside⟩
    | exact ⟨hs.1.inside, hs.2.inside⟩

variable {c : CallId} {p : π}

/-- An instruction on the tag leaves `tag_lock` as it is. -/
theorem holdsTag_of_exec {m m' : TagAos.Mem} (hs : i.Sound ann a) (hi : inTag i = true)
    (h : Exec c m i m' p) (hf : ∀ x, m.mayInterrupt (.rcu x) = true → a.fresh ≠ some x) :
    (ann p).holdsTag = a.holdsTag := by
  have keep : ∀ {l : List (Sem × Mode)}, (ann p).held = l →
      (ann p).holdsTag = decide ((Sem.tag, Mode.read) ∈ l) := fun hk => by rw [Ann.holdsTag, hk]
  cases h
  case downRead l s intr h =>
    rw [keep hs.2.2.1.held]
    cases l <;> simp_all [Ann.holdsTag, Ann.acquire, inTag]
  case downWrite l s intr h =>
    rw [keep hs.2.2.1.held]
    cases l <;> simp_all [Ann.holdsTag, Ann.acquire, inTag]
  case tryWrite l s busy h =>
    rw [keep hs.2.2.2.1.held]
    cases l <;> simp_all [Ann.holdsTag, Ann.acquire, inTag]
  case upRead l =>
    rw [keep hs.2.held]
    cases l <;> simp_all [Ann.holdsTag, Ann.release, inTag]
  case upWrite l =>
    rw [keep hs.2.2.held]
    cases l <;> simp_all [Ann.holdsTag, Ann.release, inTag]
  case downReadIntr l ok h => exact keep (hs.2.2.2 fun x hx => hf x (hx ▸ h)).held
  case storeTagReady v =>
    cases v
    · exact keep hs.2.held
    · exact keep hs.2.held
  case storeReady x v =>
    cases v
    · exact keep hs.2.held
    · exact keep hs.2.2.2.held
  case loadLevel j x null found h =>
    rcases hs.2 x with hk | ⟨-, hk⟩
    · exact keep hk.held
    · exact keep hk.held
  all_goals first
    | exact keep hs.held
    | exact keep (hs _).held
    | exact keep (hs _).1.held
    | exact keep (hs _).2.held
    | exact keep hs.1.held
    | exact keep hs.2.held
    | exact keep hs.2.1.held
    | exact keep hs.2.2.held
    | exact keep (hs.2.2 _).held
    | exact keep hs.2.2.1.held
    | exact keep hs.2.2.2.held
    | exact keep hs.2.2.2.2.held

end Instr

/-! ## The annotations on one tag

A call works on the tag it has loaded, and no other tag can tell that it is there.  `onTag` turns
this into a definition, so that the invariant of one tag can be applied to each tag by itself. -/

/-- The annotation of a call that has loaded `x`, as the tag `y` sees it. -/
def onTag (y : TagAddr) (x : Option TagAddr) (a : Ann) : Ann := if x = some y then a.inside else {}

@[simp] theorem onTag_none (y : TagAddr) (a : Ann) : onTag y none a = {} := rfl

@[simp] theorem onTag_self (y : TagAddr) (a : Ann) : onTag y (some y) a = a.inside := if_pos rfl

theorem onTag_of_ne {y : TagAddr} {x : Option TagAddr} (h : x ≠ some y) (a : Ann) :
    onTag y x a = {} := if_neg h

@[simp] theorem onTag_empty (y : TagAddr) (x : Option TagAddr) : onTag y x {} = {} := by
  rw [onTag]
  split <;> rfl

/-- The annotations on a tag are kept where those of the call are. -/
theorem onTag_keep (y : TagAddr) (x : Option TagAddr) {a b : Ann} (h : a.inside.Keep b.inside) :
    (onTag y x a).Keep (onTag y x b) := by
  rw [onTag, onTag]
  split
  · exact h
  · exact .refl _

theorem onTag_wf (y : TagAddr) (x : Option TagAddr) {a : Ann} (h : a.WF) : (onTag y x a).WF := by
  rw [onTag]
  split
  · exact h.inside
  · constructor <;> simp

section ExecOn

variable {π : Type} {ann : π → Ann} {a : Ann} {i : Instr π} {c : CallId} {m m' : Mem} {d : ℕ}
  {x x' : Option TagAddr} {p : π}

/-- A call owns nothing inside a tag when it acquires `tag_lock`, and when it loads the tag. -/
def Outside (a : Ann) : Instr π → Prop
  | .downRead .tag _ _ | .loadTags _ _ => a.inside = {}
  | _ => True

/-- What an instruction does to each tag. -/
theorem ExecOn.changeOn (hs : i.Sound ann a) (hout : Outside a i)
    (h : ExecOn c m d x i m' x' p) (y : TagAddr) :
    Change c (m.obj y) (onTag y x a) (onTag y x' (ann p)) (m'.obj y) := by
  cases h with
  | jump => exact .quiet (onTag_keep y x (Ann.Keep.inside hs))
  | lockTag h =>
    rw [onTag, show a.inside = {} from hout, ite_self]
    exact .quiet (.refl _)
  | lockTagIntr => exact .quiet (onTag_keep y x (hs.2.2.2 fun y hy => by cases hy).inside)
  | unlockTag =>
    exact .quiet (onTag_keep y x (Ann.release_tag_inside a .read ▸ hs.2.inside))
  | loadTags h =>
    have hp : (ann p).inside = {} := by
      have := hs.2.inside
      rw [show a.inside = {} from hout] at this
      exact this.eq_empty
    rw [onTag, onTag, show a.inside = {} from hout, hp, ite_self, ite_self]
    exact .quiet (.refl _)
  | loadTagsNull h =>
    rw [onTag, show a.inside = {} from hout, ite_self]
    exact .quiet (.refl _)
  | @tag z _ t _ hi hx h =>
    subst hx
    by_cases hyz : y = z
    · subst hyz
      simp only [onTag_self, Mem.setObj, Function.update_self]
      have hs' : i.Sound (fun p => (ann p).inside) a.inside := sound_inside hs hi
      exact (Change.of_exec hs' h :)
    · have hne : some z ≠ some y := fun h => hyz (Option.some.inj h).symm
      simp only [onTag_of_ne hne, Mem.setObj, Function.update_of_ne hyz]
      exact .quiet (.refl _)

/-- What an instruction does to a tag, seen from the tag. -/
theorem ExecOn.obj (h : ExecOn c m d x i m' x' p) (y : TagAddr) :
    m'.obj y = m.obj y ∨ x = some y ∧ Exec c (m.obj y) i (m'.obj y) p := by
  cases h with
  | @tag z _ t _ hi hx h =>
    by_cases hyz : y = z
    · subst hyz
      exact .inr ⟨hx, by simpa [Mem.setObj] using h⟩
    · exact .inl (Function.update_of_ne hyz ..)
  | _ => exact .inl rfl

/-- The `tag_lock` of a descriptor, if it is held. -/
def tagLock (d : ℕ) (a : Ann) : Option (Lock × Mode) :=
  if a.holdsTag then some (.tag d, .read) else none

theorem tagLock_keep (d : ℕ) {a b : Ann} (h : a.Keep b) : tagLock d b = tagLock d a := by
  rw [tagLock, tagLock, Ann.holdsTag, Ann.holdsTag, h.held]

/-- What an instruction does to the locks outside of the tags. -/
theorem ExecOn.lock (hs : i.Sound ann a)
    (hf : ∀ y, x = some y → ∀ l, (m.obj y).mayInterrupt (.rcu l) = true → a.fresh ≠ some l)
    (h : ExecOn c m d x i m' x' p) :
    Registry.LockStep c m.registry m'.registry (tagLock d a) (tagLock d (ann p)) := by
  cases h with
  | jump => rw [tagLock_keep d hs]; exact .same rfl
  | lockTag h =>
    have hfree : tagLock d a = none := by simp [tagLock, Ann.holdsTag, hs.1 .read]
    have hheld : tagLock d (ann p) = some (.tag d, .read) := by
      simp [tagLock, Ann.holdsTag, hs.2.2.1.held, Ann.acquire]
    rw [hfree, hheld]
    exact .read h rfl
  | lockTagIntr =>
    rw [tagLock_keep d (hs.2.2.2 fun y hy => by cases hy)]
    exact .same rfl
  | unlockTag =>
    have hheld : tagLock d a = some (.tag d, .read) := by simp [tagLock, Ann.holdsTag, hs.1]
    have hfree : tagLock d (ann p) = none := by
      simp [tagLock, Ann.holdsTag, hs.2.held, Ann.release]
    rw [hheld, hfree]
    exact .unread rfl
  | loadTags h => rw [tagLock_keep d hs.2]; exact .same rfl
  | loadTagsNull h => rw [tagLock_keep d hs.1]; exact .same rfl
  | tag hi hx h =>
    have hheld : tagLock d (ann p) = tagLock d a := by
      rw [tagLock, tagLock, holdsTag_of_exec hs hi h (hf _ hx)]
    rw [hheld]
    exact .same rfl

end ExecOn
/-! ## The calls

What a call owns at each point, in two parts: the locks inside of its tag, for which the proof
outlines of `TagAos.Tag.Discipline` are used again, and the one lock outside of the tags.  Creations
and deletions own nothing inside of a tag. -/

/-- The same for a `dev_read`. -/
theorem read_outside (a : ReadArgs) (e : Registry.Entry) (p : ReadState) :
    Outside p.ann (readCode a e p) := by
  cases p <;> trivial

/-- `dev_read` keeps to one descriptor while it holds its lock. -/
theorem read_desc {a : ReadArgs} {e : Registry.Entry} {c : CallId} {m m' : Mem} {d : ℕ}
    {x x' : Option TagAddr} {p q : ReadState} (h : ExecOn c m d x (readCode a e p) m' x' q)
    (hq : q.ann.holdsTag = true) : q.desc = p.desc := by
  have level : ∀ v : ReadVars, (ReadState.nextLevel v).desc = v.i := fun v => by
    rw [ReadState.nextLevel]
    split <;> rfl
  have tag : ∀ v : ReadVars, (ReadState.nextTag v).ann.holdsTag = false := fun v => by
    rw [ReadState.nextTag]
    split <;> rfl
  cases p
  case start =>
    cases h
    · rw [ReadArgs.failed] at hq
      split_ifs at hq <;> cases hq
    · contradiction
  case loadTag v =>
    cases h
    · split <;> rfl
    · rfl
    · contradiction
  case unlockRcu v l =>
    cases h
    rename_i h
    cases h
    split
    · rfl
    · exact level v
  case copyOut v =>
    cases h
    · split at hq <;> cases hq
    · contradiction
  case lockTag v =>
    cases h
    · rfl
    · rw [tag] at hq; cases hq
    · contradiction
  case unlockTag v =>
    cases h
    · rw [tag] at hq; cases hq
    · contradiction
  case readWaiting v l =>
    cases h with | tag hi hx h => cases h; rfl
  all_goals cases h
  all_goals first
    | rfl
    | contradiction
    | (rename_i h; cases h <;> first | rfl | exact level _)

/-- Every operation of a call on its tag is sound, as in `TagAos.Tag.Discipline`. -/
theorem user_sound (tag : ℤ) (t : TagAos.Thread) :
    (userCode tag t).Sound TagAos.Thread.ann t.ann := by
  rw [userCode]
  split
  · rename_i h
    rw [Bool.and_eq_true] at h
    rw [Thread.ann_of_idle h.1]
    cases t <;> exact .refl _
  · exact thread_sound t

/-- An operation outside of the tag leaves the annotations inside alone. -/
theorem user_outside (tag : ℤ) (t : TagAos.Thread) : Outside t.ann (userCode tag t) := by
  rw [userCode]
  split
  · trivial
  · cases t with
    | receive a p =>
      cases p
      case start =>
        simp only [TagAos.Thread.code, receiveCode]
        split <;> trivial
      case release rel r h => cases rel <;> trivial
      all_goals trivial
    | send b p =>
      cases p
      case start =>
        simp only [TagAos.Thread.code, sendCode]
        split <;> trivial
      all_goals trivial
    | awake e p => cases p <;> trivial

namespace Thread

/-- What the call owns and knows, `tag_lock` included. -/
def ann : Thread → Ann
  | user _ _ t => t.ann
  | read _ _ p => p.ann
  | _ => {}

/-- The lock outside of the tags that the call holds. -/
def lockHeld : Thread → Option (Lock × Mode)
  | get _ _ p => p.held
  | delete tag _ _ _ p => p.held tag.toNat
  | user tag _ t => tagLock tag.toNat t.ann
  | read _ _ p => tagLock p.desc p.ann

theorem ann_wf (t : Thread) : t.ann.WF := by
  cases t with
  | user tag x t => exact thread_wf t
  | read a x p => exact read_wf p
  | get | delete => constructor <;> simp [ann]

/-- `tag_lock` is held for reading by the calls that use a tag. -/
theorem mode_of_tag {t : Thread} {md : Mode} (h : (.tag, md) ∈ t.ann.held) :
    md = .read := by
  cases t with
  | get | delete => cases h
  | user tag x t =>
    cases t with
    | receive a p =>
      cases p
      case leave rel r | clear rel r | release rel r | unlockLevelError rel r =>
        cases rel <;> simp_all [ann, TagAos.Thread.ann, ReceiveState.ann,
          Release.held]
      all_goals simp_all [ann, TagAos.Thread.ann, ReceiveState.ann]
    | send b p => cases p <;> simp_all [ann, TagAos.Thread.ann, SendState.ann]
    | awake e p => cases p <;> simp_all [ann, TagAos.Thread.ann, AwakeState.ann]
  | read a x p => cases p <;> simp_all [ann, ReadState.ann]

theorem lockHeld_of_idle {t : Thread} (h : t.idle = true) : t.lockHeld = none := by
  cases t with
  | get a x p => cases p <;> first | rfl | cases h
  | delete tag e x i p => cases p <;> first | rfl | cases h
  | user tag x t =>
    have hann : t.ann = {} := TagAos.Thread.ann_of_idle h
    rw [lockHeld, hann]
    rfl
  | read a x p => cases p <;> first | rfl | cases h

end Thread

/-- What every call owns and knows of the tag `y`. -/
def State.annsOn (s : State) (y : TagAddr) (c : CallId) : Ann :=
  onTag y (s.thread c).entry (s.thread c).ann

theorem State.annsOn_wf (s : State) (y : TagAddr) (c : CallId) : (s.annsOn y c).WF :=
  onTag_wf y _ (s.thread c).ann_wf

theorem Step.annsOn_of_ne {s s' : State} {c d : CallId} (h : Step s c s') (hd : d ≠ c)
    (y : TagAddr) : s'.annsOn y d = s.annsOn y d := by
  rw [State.annsOn, State.annsOn, h.thread_of_ne hd]

/-! ## What a step does to memory

A step of the service either leaves a tag as it is or does to it one of the changes that a step of
the system of one tag can do.  `Step.changeOn` is the one case distinction over all calls; whatever
else is proved about a tag goes through its result. -/

section Step

variable {s s' : State} {c : CallId}

/-- A creation does not change the tags that are there. -/
theorem GetMove.obj {m m' : Mem} {a : Registry.GetArgs} {x x' : Option TagAddr}
    {p p' : GetState} (h : GetMove c m a x p m' x' p') {y : TagAddr} (hy : y < m.brk) :
    m'.obj y = m.obj y := by
  cases h with
  | alloc => simp [Mem.newTag, ne_of_lt hy]
  | publish | registry => rfl

/-- `clear_tag_level` counts what it frees, and changes nothing else. -/
theorem Mem.clearLevel_same (m : Mem) (y : TagAddr) (i : ℕ) :
    ∃ f, m.clearLevel y i = { m with cleared := f } := by
  rw [Mem.clearLevel]
  split
  · exact ⟨m.cleared, rfl⟩
  · exact ⟨_, rfl⟩

/-- A deletion does not change the fields of any tag. -/
theorem DeleteMove.obj {m m' : Mem} {tag : ℤ} {euid i i' : ℕ} {x x' : Option TagAddr}
    {p p' : DeleteState} (h : DeleteMove c m tag euid x i p m' x' i' p') : m'.obj = m.obj := by
  cases h with
  | @clearLevel e y => obtain ⟨f, hf⟩ := m.clearLevel_same y i; rw [hf]
  | _ => rfl

/-- **What a step does to a tag**: one of the changes of `TagAos.Tag.Discipline`, made by the call
that moves. -/
theorem Step.changeOn (hs : Step s c s') {y : TagAddr} (hy : y < s.mem.brk) :
    Change c (s.mem.obj y) (s.annsOn y c) (s'.annsOn y c) (s'.mem.obj y) := by
  cases hc : s.thread c with
  | get a x p =>
    obtain ⟨m, x', p', hx, rfl⟩ := hs.get hc
    simp only [State.annsOn, Config.set_thread_self, Config.set_mem, hc, Thread.ann, onTag_empty,
      hx.obj hy]
    exact .quiet (.refl _)
  | delete tag e x i p =>
    obtain ⟨m, x', i', p', hx, rfl⟩ := hs.delete hc
    simp only [State.annsOn, Config.set_thread_self, Config.set_mem, hc, Thread.ann, onTag_empty,
      hx.obj]
    exact .quiet (.refl _)
  | user tag x t =>
    obtain ⟨m, x', t', hx, rfl⟩ := hs.user hc
    simp only [State.annsOn, Config.set_thread_self, Config.set_mem, hc]
    exact hx.changeOn (user_sound tag t) (user_outside tag t) y
  | read a x p =>
    rcases hs.read hc with ⟨o, q, hq, rfl⟩ | ⟨m, x', q, hx, rfl⟩
    · simp only [State.annsOn, Config.set_thread_self, Config.set_mem, hc]
      exact .quiet (onTag_keep y x (readFails_keep hq).inside)
    · simp only [State.annsOn, Config.set_thread_self, Config.set_mem, hc]
      exact hx.changeOn (read_sound a _ p) (read_outside a _ p) y

/-! ## Addresses

A call never has the address of a tag that has not been allocated, so the tag that a creation is
about to fill in is nobody's yet. -/

/-- Everything but the locks and the tags themselves is as before. -/
structure Frame (m m' : Mem) : Prop where
  bitmask : m'.bitmask = m.bitmask
  table : m'.table = m.table
  tags : m'.tags = m.tags
  key : m'.key = m.key
  tagKey : m'.tagKey = m.tagKey
  brk : m'.brk = m.brk
  cleared : m'.cleared = m.cleared
  tagFreed : m'.tagFreed = m.tagFreed

/-- What a call that uses a tag leaves alone. -/
theorem ExecOn.frame {π : Type} {i : Instr π} {m m' : Mem} {d : ℕ} {x x' : Option TagAddr} {p : π}
    (h : ExecOn c m d x i m' x' p) : Frame m m' := by
  cases h <;> exact ⟨rfl, rfl, rfl, rfl, rfl, rfl, rfl, rfl⟩

/-- Only addresses that have been handed out are in use. -/
structure Bounds (s : State) : Prop where
  tags : ∀ d y, s.mem.tags d = some y → y < s.mem.brk
  entry : ∀ c y, (s.thread c).entry = some y → y < s.mem.brk

/-- What a step does with the addresses of tags, where `x` and `x'` are `tag_entry` of the mover. -/
inductive AddrStep (m m' : Mem) (x x' : Option TagAddr) : Prop
  /-- No address is stored, but the mover may load one or drop the one it has. -/
  | same (brk : m'.brk = m.brk) (tags : m'.tags = m.tags)
      (entry : x' = x ∨ x' = none ∨ ∃ d, x' = m.tags d)
  | alloc (brk : m'.brk = m.brk + 1) (tags : m'.tags = m.tags) (entry : x' = some m.brk)
  /-- `tags[d]` is assigned: 0, or the address that the mover has. -/
  | store (d : ℕ) (z : Option TagAddr) (hz : z = none ∨ z = x) (brk : m'.brk = m.brk)
      (tags : m'.tags = Function.update m.tags d z) (entry : x' = x)

/-- A call on a tag loads its address from `tags`, or keeps the one it has. -/
theorem ExecOn.addr {π : Type} {i : Instr π} {m m' : Mem} {d : ℕ} {x x' : Option TagAddr} {p : π}
    (h : ExecOn c m d x i m' x' p) : AddrStep m m' x x' := by
  cases h with
  | lockTag => exact .same rfl rfl (.inr (.inl rfl))
  | loadTags h => exact .same rfl rfl (.inr (.inr ⟨d, h.symm⟩))
  | loadTagsNull => exact .same rfl rfl (.inr (.inl rfl))
  | _ => exact .same rfl rfl (.inl rfl)

/-- What a step does to the addresses: it keeps them, stores one, or allocates the next. -/
theorem Step.addr (hs : Step s c s') :
    AddrStep s.mem s'.mem (s.thread c).entry (s'.thread c).entry := by
  cases hc : s.thread c with
  | get a x p =>
    obtain ⟨m, x', p', hx, rfl⟩ := hs.get hc
    rw [Config.set_thread_self]
    cases hx with
    | alloc => exact .alloc rfl rfl rfl
    | publish => exact .store _ x (.inr rfl) rfl rfl rfl
    | registry => exact .same rfl rfl (.inl rfl)
  | delete tag e x i p =>
    obtain ⟨m, x', i', p', hx, rfl⟩ := hs.delete hc
    rw [Config.set_thread_self]
    cases hx with
    | loadTagNull => exact .same rfl rfl (.inr (.inl rfl))
    | loadTag h => exact .same rfl rfl (.inr (.inr ⟨_, h.symm⟩))
    | clearTag => exact .store _ none (.inl rfl) rfl rfl rfl
    | restore => exact .store _ x (.inr rfl) rfl rfl rfl
    | @clearLevel e y =>
      obtain ⟨f, hf⟩ := s.mem.clearLevel_same y i
      exact .same (by rw [Config.set_mem, hf]) (by rw [Config.set_mem, hf]) (.inl rfl)
    | _ => exact .same rfl rfl (.inl rfl)
  | user tag x t =>
    obtain ⟨m, x', t', hx, rfl⟩ := hs.user hc
    rw [Config.set_thread_self]
    exact hx.addr
  | read a x p =>
    rcases hs.read hc with ⟨o, q, hq, rfl⟩ | ⟨m, x', q, hx, rfl⟩
    · rw [Config.set_thread_self]
      exact .same rfl rfl (.inl rfl)
    · rw [Config.set_thread_self]
      exact hx.addr

/-- A step keeps all addresses below the next one. -/
theorem Bounds.step (h : Bounds s) (hs : Step s c s') : Bounds s' := by
  have hle : s.mem.brk ≤ s'.mem.brk := by
    cases hs.addr with
    | same brk | store _ _ _ brk => exact brk.ge
    | alloc brk => rw [brk]; exact Nat.le_succ _
  constructor
  · intro d y hy
    refine lt_of_lt_of_le ?_ hle
    cases hs.addr with
    | same brk tags | alloc brk tags => rw [tags] at hy; exact h.tags d y hy
    | store d₀ z hz brk tags =>
      rw [tags] at hy
      by_cases hd : d = d₀
      · subst hd
        rw [Function.update_self] at hy
        rcases hz with rfl | rfl
        · cases hy
        · exact h.entry c y hy
      · rw [Function.update_of_ne hd] at hy
        exact h.tags d y hy
  · intro d y hy
    by_cases hdc : d = c
    · subst hdc
      cases hs.addr with
      | same brk tags entry =>
        refine lt_of_lt_of_le ?_ hle
        rcases entry with entry | entry | ⟨d₀, entry⟩
        · exact h.entry d y (entry ▸ hy)
        · rw [entry] at hy; cases hy
        · exact h.tags d₀ y (entry ▸ hy)
      | alloc brk tags entry =>
        rw [entry] at hy
        cases hy
        rw [brk]
        exact Nat.lt_succ_self _
      | store d₀ z hz brk tags entry => exact lt_of_lt_of_le (h.entry d y (entry ▸ hy)) hle
    · rw [hs.thread_of_ne hdc] at hy
      exact lt_of_lt_of_le (h.entry d y hy) hle

theorem Init.bounds (h : Init s) : Bounds s := by
  constructor
  · intro d y hy
    rw [h.mem] at hy
    cases hy
  · intro c y hy
    rw [h.entry c] at hy
    cases hy

/-! ## The invariant of every tag -/

/-- A new tag satisfies the invariant. -/
theorem fresh_inv (permission : ℤ) (euid : ℕ) :
    Inv (TagAos.Mem.fresh permission euid) fun _ => {} := by
  constructor <;> simp +contextual [TagAos.Mem.fresh, Census.empty]

/-- Only a creation hands out an address. -/
theorem Step.alloc (hs : Step s c s') (hlt : s.mem.brk < s'.mem.brk) :
    ∃ a x d, s.thread c = .get a x (.allocEntry d) ∧
      s' = s.set c (s.mem.newTag a d) (.get a (some s.mem.brk) (.publish d)) := by
  have same : s'.mem.brk ≠ s.mem.brk := (ne_of_lt hlt).symm
  cases hc : s.thread c with
  | get a x p =>
    obtain ⟨m, x', p', hx, rfl⟩ := hs.get hc
    cases hx with
    | alloc => exact ⟨a, x, _, rfl, rfl⟩
    | publish | registry => exact (same rfl).elim
  | delete tag e x i p =>
    obtain ⟨m, x', i', p', hx, rfl⟩ := hs.delete hc
    cases hx with
    | @clearLevel e y =>
      obtain ⟨f, hf⟩ := s.mem.clearLevel_same y i
      exact (same (by rw [Config.set_mem, hf])).elim
    | _ => exact (same rfl).elim
  | user tag x t =>
    obtain ⟨m, x', t', hx, rfl⟩ := hs.user hc
    exact (same hx.frame.brk).elim
  | read a x p =>
    rcases hs.read hc with ⟨o, q, hq, rfl⟩ | ⟨m, x', q, hx, rfl⟩
    · exact (same rfl).elim
    · exact (same hx.frame.brk).elim

/-- **A step keeps the invariant of every tag.** On the tag it works on it is a change in the sense
of `TagAos.Tag.Ownership`; the others do not notice. -/
theorem tag_step (hb : Bounds s) (hs : Step s c s')
    (h : ∀ y < s.mem.brk, Inv (s.mem.obj y) (s.annsOn y)) :
    ∀ y < s'.mem.brk, Inv (s'.mem.obj y) (s'.annsOn y) := by
  intro y hy
  by_cases hold : y < s.mem.brk
  · exact (h y hold).change_inv (s.annsOn_wf y) (hs.changeOn hold) fun d hd => hs.annsOn_of_ne hd y
  · obtain ⟨a, x, d, hc, rfl⟩ := hs.alloc (lt_of_le_of_lt (not_lt.1 hold) hy)
    obtain rfl : y = s.mem.brk := le_antisymm (Nat.lt_succ_iff.1 hy) (not_lt.1 hold)
    -- nobody has loaded the tag that has just been allocated
    have hA : State.annsOn (s.set c (s.mem.newTag a d) (.get a (some s.mem.brk) (.publish d)))
        s.mem.brk = fun _ => {} := by
      funext e
      by_cases hec : e = c
      · subst hec
        rw [State.annsOn, Config.set_thread_self]
        exact onTag_empty _ _
      · rw [State.annsOn, Config.set_thread_of_ne _ _ _ _ hec]
        exact onTag_of_ne (fun he => lt_irrefl _ (hb.entry e _ he)) _
    rw [hA]
    simp only [Config.set_mem, Mem.newTag, Function.update_self]
    exact fresh_inv _ _

/-- A tag that has not been allocated is not touched. -/
theorem Step.obj_of_brk_le (hs : Step s c s') (hb : Bounds s) {y : TagAddr}
    (hy : s'.mem.brk ≤ y) : s.mem.brk ≤ y ∧ s'.mem.obj y = s.mem.obj y := by
  have hle : s.mem.brk ≤ y := by
    cases hs.addr with
    | same brk | store _ _ _ brk => exact brk ▸ hy
    | alloc brk => rw [brk] at hy; exact Nat.le_of_succ_le hy
  refine ⟨hle, ?_⟩
  have hne : (s.thread c).entry ≠ some y := fun he => absurd (hb.entry c y he) (not_lt.2 hle)
  cases hc : s.thread c with
  | get a x p =>
    obtain ⟨m, x', p', hx, rfl⟩ := hs.get hc
    cases hx with
    | alloc => exact Function.update_of_ne (ne_of_gt hy) ..
    | publish | registry => rfl
  | delete tag e x i p =>
    obtain ⟨m, x', i', p', hx, rfl⟩ := hs.delete hc
    rw [Config.set_mem, hx.obj]
  | user tag x t =>
    obtain ⟨m, x', t', hx, rfl⟩ := hs.user hc
    rw [hc] at hne
    exact (hx.obj y).resolve_right fun h => hne h.1
  | read a x p =>
    rcases hs.read hc with ⟨o, q, hq, rfl⟩ | ⟨m, x', q, hx, rfl⟩
    · rfl
    · rw [hc] at hne
      exact (hx.obj y).resolve_right fun h => hne h.1

/-- **The invariant of the tags.** Every tag that has been allocated satisfies the invariant of
`TagAos.Tag.Ownership`, for the annotations as that tag sees them: a semaphore or a mutex of the tag
is held by the calls at the points that say so, a counter counts the calls that say they are
counted, and what a call knows of an instance is true.  It speaks of all tags that have been
allocated, whether `tags` still points to them or not, since the calls that have loaded a tag do not
learn what becomes of the pointer.

The addresses that have not been handed out hold fresh tags, so that a creation starts from a state
in which the invariant holds of the new tag. -/
structure Disciplined (s : State) : Prop where
  bounds : Bounds s
  unborn : ∀ y, s.mem.brk ≤ y → s.mem.obj y = .fresh 0 0
  tag : ∀ y < s.mem.brk, Inv (s.mem.obj y) (s.annsOn y)

theorem Init.disciplined (h : Init s) : Disciplined s where
  bounds := h.bounds
  unborn y _ := by rw [h.mem]; rfl
  tag y hy := by
    rw [h.mem] at hy
    exact absurd hy (Nat.not_lt_zero y)

/-- A step keeps the discipline. -/
theorem Disciplined.step (h : Disciplined s) (hs : Step s c s') : Disciplined s' where
  bounds := h.bounds.step hs
  unborn y hy := by
    obtain ⟨hle, hobj⟩ := hs.obj_of_brk_le h.bounds hy
    exact hobj.trans (h.unborn y hle)
  tag := tag_step h.bounds hs h.tag

/-- A call that only moves on, with the same tag, owning the same, keeps the discipline. -/
theorem Disciplined.set (h : Disciplined s) {t : Thread} (hx : t.entry = (s.thread c).entry)
    (ha : t.ann = (s.thread c).ann) : Disciplined (s.set c s.mem t) := by
  have hentry : ∀ d, ((s.set c s.mem t).thread d).entry = (s.thread d).entry := by
    intro d
    rw [Config.set_thread]
    split
    · rename_i hd; rw [hx, hd]
    · rfl
  have hann : ∀ d, ((s.set c s.mem t).thread d).ann = (s.thread d).ann := by
    intro d
    rw [Config.set_thread]
    split
    · rename_i hd; rw [ha, hd]
    · rfl
  refine ⟨⟨h.bounds.tags, fun d y hy => h.bounds.entry d y (hentry d ▸ hy)⟩, h.unborn,
    fun y hy => ?_⟩
  have hA : State.annsOn (s.set c s.mem t) y = s.annsOn y := by
    funext d
    rw [State.annsOn, State.annsOn, hentry, hann]
  rw [hA]
  exact h.tag y hy

theorem Reachable.disciplined (h : Reachable s) : Disciplined s :=
  h.induction (fun _ h0 => h0.disciplined) fun _ _ _ _ hp hs => hp.step hs

theorem Reachable.bounds (h : Reachable s) : Bounds s := h.disciplined.bounds

/-- **The invariant of `TagAos.Tag.Ownership` holds of every tag.** -/
theorem Reachable.tag (h : Reachable s) {y : TagAddr} (hy : y < s.mem.brk) :
    Inv (s.mem.obj y) (s.annsOn y) := h.disciplined.tag y hy

/-- A call holds the semaphores inside of its tag that it is annotated with. -/
theorem Disciplined.holds_iff (h : Disciplined s) {y : TagAddr} {l : Sem} {md : Mode} :
    ((s.mem.obj y).sem l).Holds c md ↔
      (s.thread c).entry = some y ∧ (l, md) ∈ (s.thread c).ann.held ∧ l ≠ .tag := by
  by_cases hy : y < s.mem.brk
  · rw [(h.tag y hy).sem l c md, State.annsOn, onTag]
    split
    · rename_i hx
      rw [Ann.mem_inside, hx]
      exact ⟨fun hl => ⟨rfl, hl⟩, fun hl => hl.2⟩
    · rename_i hx
      simp [hx]
  · have hx : (s.thread c).entry ≠ some y := fun hx => hy (h.bounds.entry c y hx)
    rw [h.unborn y (not_lt.1 hy)]
    simp [TagAos.Mem.fresh, hx]

theorem Disciplined.mutex_iff (h : Disciplined s) {y : TagAddr} {l : Addr} :
    (s.mem.obj y).wMutex l = some c ↔
      (s.thread c).entry = some y ∧ (s.thread c).ann.mutex = some l := by
  by_cases hy : y < s.mem.brk
  · rw [(h.tag y hy).mutex l c, State.annsOn, onTag]
    split
    · rename_i hx
      rw [hx]
      exact ⟨fun hl => ⟨rfl, hl⟩, fun hl => hl.2⟩
    · rename_i hx
      simp [hx]
  · have hx : (s.thread c).entry ≠ some y := fun hx => hy (h.bounds.entry c y hx)
    rw [h.unborn y (not_lt.1 hy)]
    simp [TagAos.Mem.fresh, hx]

/-! ## The locks outside of the tags

The same for `common_lock` and the `tag_lock`s, which belong to no tag.  A call holds at most one of
them, so what it holds is one `Option` and not a list. -/

theorem lockStep_congr {m m' m'' : Registry.Mem} {held held' : Option (Lock × Mode)}
    (h : Registry.LockStep c m m' held held') (hsem : m''.sem = m'.sem) :
    Registry.LockStep c m m'' held held' := by
  cases h with
  | same sem => exact .same (hsem.trans sem)
  | read acq sem => exact .read acq (hsem.trans sem)
  | write acq sem => exact .write acq (hsem.trans sem)
  | unread sem => exact .unread (hsem.trans sem)
  | unwrite sem => exact .unwrite (hsem.trans sem)

/-- A call whose wait for an `rcu_lock` can be interrupted does not wait for a fresh instance. -/
theorem Disciplined.fresh_ne (h : Disciplined s) {y : TagAddr}
    (hx : (s.thread c).entry = some y) {l : Addr}
    (hl : (s.mem.obj y).mayInterrupt (.rcu l) = true) : (s.thread c).ann.fresh ≠ some l := by
  have hne := (h.tag y (h.bounds.entry c y hx)).fresh_ne (c := c) hl
  rwa [State.annsOn, hx, onTag_self] at hne

/-- An operation of a `dev_read` that fails keeps its `tag_lock`. -/
theorem readFails_lock {a : ReadArgs} {p q : ReadState} {o : Outcome}
    (h : readFails a p o = some q) : tagLock q.desc q.ann = tagLock p.desc p.ann := by
  cases p <;> cases o <;> simp only [readFails, reduceCtorEq, Option.some.injEq,
    Option.ite_none_right_eq_some, ReadArgs.failed] at h
  case append.nomem | appendDivider.nomem | copyOut.fault => obtain ⟨-, rfl⟩ := h; rfl
  all_goals subst h; rfl

/-- What a step does to the locks outside of the tags. -/
theorem Disciplined.lock (hd : Disciplined s) (hs : Step s c s') :
    Registry.LockStep c s.mem.registry s'.mem.registry (s.thread c).lockHeld
      (s'.thread c).lockHeld := by
  cases hc : s.thread c with
  | get a x p =>
    obtain ⟨m, x', p', hx, rfl⟩ := hs.get hc
    rw [Config.set_thread_self]
    cases hx with
    | alloc | publish => exact .same rfl
    | registry hp hp' h => exact lockStep_congr (Registry.getStep_lock h) rfl
  | delete tag e x i p =>
    obtain ⟨m, x', i', p', hx, rfl⟩ := hs.delete hc
    rw [Config.set_thread_self]
    cases hx with
    | @clearLevel e y =>
      obtain ⟨f, hf⟩ := s.mem.clearLevel_same y i
      refine .same ?_
      rw [Config.set_mem, hf]
      rfl
    | registry hp ho h => exact lockStep_congr (Registry.deleteStep_lock h) rfl
    | _ => exact .same rfl
  | user tag x t =>
    obtain ⟨m, x', t', hx, rfl⟩ := hs.user hc
    rw [Config.set_thread_self]
    refine hx.lock (user_sound tag t) fun y hy l hl => ?_
    have := hd.fresh_ne (c := c) (by rw [hc]; exact hy) hl
    rwa [hc] at this
  | read a x p =>
    rcases hs.read hc with ⟨o, q, hq, rfl⟩ | ⟨m, x', q, hx, rfl⟩
    · rw [Config.set_thread_self]
      rw [Thread.lockHeld, Thread.lockHeld, readFails_lock hq]
      exact .same rfl
    · rw [Config.set_thread_self]
      have hlock := hx.lock (read_sound a _ p) fun y hy l hl => by
        have := hd.fresh_ne (c := c) (by rw [hc]; exact hy) hl
        rwa [hc] at this
      have hdesc : tagLock q.desc q.ann = tagLock p.desc q.ann := by
        rw [tagLock, tagLock]
        split
        · rename_i hq; rw [read_desc hx hq]
        · rfl
      rw [Thread.lockHeld, Thread.lockHeld, hdesc]
      exact hlock

/-- **Who holds `common_lock` and the `tag_lock`s.** Each of them is held by exactly the calls that
are at a point where they hold it, and in the mode that the point says.  One direction gives mutual
exclusion (`LocksHeld.alone`): a call at a point where it writes has the lock.  The other one gives
progress: when no call is at such a point nobody has the lock, so an acquisition of it succeeds.
`TagAos.Service.Queue` and `TagAos.Service.Drain` live on that. -/
def LocksHeld (s : State) : Prop :=
  ∀ l d md, (s.mem.lock l).Holds d md ↔ (s.thread d).lockHeld = some (l, md)

theorem Init.locks (h : Init s) : LocksHeld s := by
  intro l d md
  simp [h.mem, Mem.initial, Thread.lockHeld_of_idle (h.idle d)]

/-- A step keeps the locks and the points of the calls together. -/
theorem LocksHeld.step (h : LocksHeld s) (hd : Disciplined s) (hs : Step s c s') :
    LocksHeld s' := by
  intro l d md
  refine ((hd.lock hs).holds (fun l md => h l c md) l d md).trans ?_
  by_cases hdc : d = c
  · subst hdc; simp
  · rw [if_neg hdc, hs.thread_of_ne hdc]
    exact h l d md

theorem LocksHeld.set (h : LocksHeld s) {t : Thread} (ht : t.lockHeld = (s.thread c).lockHeld) :
    LocksHeld (s.set c s.mem t) := by
  intro l d md
  refine (h l d md).trans ?_
  rw [Config.set_thread]
  split
  · rename_i hd; rw [ht, hd]
  · rfl

theorem Reachable.locks (h : Reachable s) : LocksHeld s :=
  h.induction (fun _ h0 => h0.locks) fun _ _ _ hr hp hs => hp.step hr.disciplined hs

/-- **A writer is alone.** -/
theorem LocksHeld.alone (h : LocksHeld s) {l : Lock} {d : CallId} {md : Mode}
    (hc : (s.thread c).lockHeld = some (l, .write)) (hd : (s.thread d).lockHeld = some (l, md)) :
    d = c ∧ md = .write := ((h l c .write).2 hc).eq_of_write ((h l d md).2 hd)

end Step

/-! ## The locks by name

One type for the five kinds of locks, so that the order they are acquired in and the wait for them
can be spoken of (`TagAos.Service.Queue`). -/

/-- The locks of the module. -/
inductive LockName
  | common
  | tag (d : ℕ)
  | level (y : TagAddr) (i : ℕ)
  | rcu (y : TagAddr) (a : Addr)
  | wMutex (y : TagAddr) (a : Addr)
  deriving DecidableEq

/-- The call holds the lock in the given mode. -/
def HoldsLock (m : Mem) (c : CallId) : LockName → Mode → Prop
  | .common, md => (m.lock .common).Holds c md
  | .tag d, md => (m.lock (.tag d)).Holds c md
  | .level y i, md => ((m.obj y).sem (.level i)).Holds c md
  | .rcu y a, md => ((m.obj y).sem (.rcu a)).Holds c md
  | .wMutex y a, md => md = .write ∧ (m.obj y).wMutex a = some c

/-- The name of a semaphore for a call on the descriptor `d` that has loaded the tag `x`. -/
def semName (d : ℕ) (x : Option TagAddr) : Sem → Option LockName
  | .tag => some (.tag d)
  | .level i => x.map fun y => .level y i
  | .rcu a => x.map fun y => .rcu y a

end Service
end TagAos
