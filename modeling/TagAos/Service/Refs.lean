import TagAos.Service.OneTag
import TagAos.Tag.Slab

/-!
# Instances that a call still refers to

A call of the service refers to instances of the tag that it has loaded (`Refers`), as it does in
`TagAos.Tag.Slab`, and so does a `dev_read`.  An instance is freed by a last receiver, or by a
deletion together with its tag.  As long as no other call refers to it then (`FreesUnused`), no call
ever refers to an instance that has been freed (`refsLive_of_run`).

A call holds `tag_lock` whenever it comes by an instance, so the tag is linked then and no deletion
has freed anything of it (`Step.refers`).
-/

set_option autoImplicit false

namespace TagAos

open Conc

theorem Thread.refs_of_loading {t : Thread} (h : t.loading = true) : t.refs = [] := by
  cases t with
  | receive a p => cases p <;> first | rfl | cases h
  | send b p => cases p <;> first | rfl | cases h
  | awake e p => cases p <;> first | rfl | cases h

namespace Service

/-! ## References

A reference is an address in a local variable that the call may still follow.  A call that has
copied what it needs and will not follow the address again has no reference any more. -/

/-- The instance that a `dev_read` still refers to. -/
def ReadState.refs : ReadState → List Addr
  | lockRcu _ l | unlockLevel _ l | allocTemp _ l | readWaiting _ l | append _ l _
  | unlockRcuSkip _ l | unlockRcuError _ l | unlockRcu _ l => [l]
  | _ => []

/-- The instances a call still refers to. -/
def Thread.refs : Thread → List Addr
  | user _ _ t => t.refs
  | read _ _ p => p.refs
  | _ => []

/-- The call `c` refers to the instance `l` of the tag `y`. -/
def Refers (s : State) (y : TagAddr) (l : Addr) (c : CallId) : Prop :=
  (s.thread c).entry = some y ∧ l ∈ (s.thread c).refs

section Reading

variable {c : CallId} {m m' : Mem} {d : ℕ} {x x' : Option TagAddr} {a : ReadArgs}
  {e : Registry.Entry} {p q : ReadState} {l : Addr}

theorem ReadState.refs_nextTag (v : ReadVars) : (nextTag v).refs = [] := by
  rw [nextTag]
  split <;> rfl

theorem ReadState.refs_nextLevel (v : ReadVars) : (nextLevel v).refs = [] := by
  rw [nextLevel]
  split <;> rfl

/-- An operation of a `dev_read` that fails refers to nothing new. -/
theorem readFails_refs {o : Outcome} (h : readFails a p o = some q) (hl : l ∈ q.refs) :
    l ∈ p.refs := by
  cases p <;> cases o <;> simp only [readFails, reduceCtorEq, Option.some.injEq,
    Option.ite_none_right_eq_some, ReadArgs.failed] at h
  case allocTemp.nomem => subst h; exact hl
  case append.nomem => obtain ⟨-, rfl⟩ := h; exact hl
  case appendDivider.nomem | copyOut.fault => obtain ⟨-, rfl⟩ := h; cases hl
  all_goals subst h; cases hl

/-- A `dev_read` comes by an instance through the pointer of a level, under `tag_lock`. -/
theorem read_refs (h : ExecOn c m d x (readCode a e p) m' x' q) (hl : l ∈ q.refs) :
    x' = x ∧ (l ∈ p.refs ∨
      p.ann.holdsTag = true ∧ ∃ y, x = some y ∧ (m.obj y).Linked l) := by
  have tag := ReadState.refs_nextTag
  have level := ReadState.refs_nextLevel
  cases p
  case start =>
    cases h
    · rw [ReadArgs.failed] at hl
      split_ifs at hl <;> cases hl
    · contradiction
  case lockTag v | unlockTag v =>
    cases h <;> first | contradiction | cases hl | (rw [tag] at hl; cases hl)
  case loadTag v =>
    cases h
    · split at hl <;> cases hl
    · cases hl
    · contradiction
  case copyOut v =>
    cases h
    · split at hl <;> cases hl
    · contradiction
  case lockLevel v | unlockLevelSkip v =>
    rcases h with _ | _ | _ | _ | _ | _ | ⟨hi, hx, h⟩
    cases h <;> first | (rw [level] at hl; cases hl) | cases hl
  case loadLevel v =>
    rcases h with _ | _ | _ | _ | _ | _ | ⟨hi, hx, h⟩
    cases h with
    | loadLevelNull => cases hl
    | loadLevel h =>
      obtain rfl := List.mem_singleton.1 hl
      exact ⟨rfl, .inr ⟨rfl, _, hx, v.j, h⟩⟩
  case unlockRcu v l₀ =>
    rcases h with _ | _ | _ | _ | _ | _ | ⟨hi, hx, h⟩
    cases h
    split at hl
    · cases hl
    · rw [level] at hl; cases hl
  case unlockRcuSkip v l₀ =>
    rcases h with _ | _ | _ | _ | _ | _ | ⟨hi, hx, h⟩
    cases h
    rw [level] at hl; cases hl
  case readWaiting v l₀ | lockRcu v l₀ | unlockLevel v l₀ | unlockRcuError v l₀ =>
    rcases h with _ | _ | _ | _ | _ | _ | ⟨hi, hx, h⟩
    cases h <;> first | exact ⟨rfl, .inl hl⟩ | cases hl
  all_goals cases h <;> first | contradiction | exact ⟨rfl, .inl hl⟩

end Reading

section Outside

variable {c : CallId} {m m' : Mem} {d : ℕ} {x x' : Option TagAddr} {t t' : TagAos.Thread}
  {o : Outcome} {l : Addr}

/-- A memory without instances. -/
def noInstances (tags : Bool) : TagAos.Mem :=
  { TagAos.Mem.fresh 0 0 with tags := tags, tagLevel := fun _ => none }

/-- Outside of its tag a call comes by no instance. -/
theorem refs_outside (hi : inTag t.code = false)
    (h : execOn c m d x t.code o = some (m', x', t')) (hl : l ∈ t'.refs) :
    x' = x ∧ l ∈ t.refs := by
  -- the same in a memory without instances
  have old : ∀ {b o μ}, exec c (noInstances b) t.code o = some (μ, t') →
      μ.brk = (noInstances b).brk → l ∈ t.refs := by
    intro b o μ hx hbrk
    rcases Thread.refs_succ hx hl with hl | ⟨i, hi⟩ | ⟨-, hlt⟩
    · exact hl
    · cases hi
    · exact absurd hbrk (ne_of_gt hlt)
  have hx := ExecOn.of_execOn h
  generalize hcode : t.code = i at hi hx old
  cases hx with
  | jump => exact ⟨rfl, old (b := true) (o := .go) rfl rfl⟩
  | lockTag =>
    rw [Thread.refs_of_loading (Thread.idle_of_downRead hcode).2.1] at hl
    cases hl
  | lockTagIntr => exact ⟨rfl, old (b := true) (o := .signal) rfl rfl⟩
  | unlockTag => exact ⟨rfl, old (b := true) (o := .go) rfl rfl⟩
  | loadTags =>
    have := old (b := true) (o := .go) rfl rfl
    rw [Thread.refs_of_loading (Thread.loading_of_loadTags hcode)] at this
    cases this
  | loadTagsNull =>
    have := old (b := false) (o := .go) rfl rfl
    rw [Thread.refs_of_loading (Thread.loading_of_loadTags hcode)] at this
    cases this
  | tag hi' => rw [hi] at hi'; cases hi'

/-- An operation outside of the tag does not change the tags. -/
theorem ExecOn.obj_outside {π : Type} {i : Instr π} {p : π} (h : ExecOn c m d x i m' x' p)
    (hi : inTag i = false) : m'.obj = m.obj := by
  cases h with
  | tag hi' => rw [hi] at hi'; cases hi'
  | _ => rfl

/-- Only a send whose copy has failed accesses an instance after it has released `tag_lock`. -/
theorem faultUnlockMutex_of_inTag (hi : inTag t.code = true) (ht : t.ann.holdsTag = false) :
    ∃ b l, t = .send b (.faultUnlockMutex l) := by
  cases t with
  | receive a p =>
    cases p
    case leave rel r | clear rel r | release rel r | unlockLevelError rel r =>
      cases rel <;> first | (cases hi; done) | cases ht
    case start => rw [Thread.code, inTag_map, receiveCode] at hi; split at hi <;> cases hi
    all_goals first | (cases hi; done) | cases ht
  | send b p =>
    cases p
    case faultUnlockMutex l => exact ⟨b, l, rfl⟩
    case start => rw [Thread.code, inTag_map, sendCode] at hi; split at hi <;> cases hi
    all_goals first | (cases hi; done) | cases ht
  | awake e p => cases p <;> first | (cases hi; done) | cases ht

end Outside

/-! ## Freeing what nobody refers to

Under the condition, references are to live instances.  A new reference comes from the pointer of a
level, which is followed under `tag_lock`, when the tag is linked and nothing of it has been freed
by a deletion. -/

/-- The condition on a step: an instance is freed, by its last receiver or with its tag, when no
other call refers to it. -/
structure FreesUnused (s : State) (c : CallId) : Prop where
  receive : ∀ tag y a l r, s.thread c = .user tag (some y) (.receive a (.free l r)) →
    ∀ d, d ≠ c → ¬ Refers s y l d
  delete : ∀ tag u y i e l, s.thread c = .delete tag u (some y) i (.freeTag e) → i < levels →
    (s.mem.obj y).tagLevel i = some l → ∀ d, d ≠ c → ¬ Refers s y l d

/-- What a call refers to has not been freed. -/
def RefsLive (s : State) : Prop :=
  ∀ d y l, Refers s y l d → (s.mem.obj y).Live l ∧ s.mem.cleared y l = 0

section Live

variable {s s' : State} {c : CallId} {y : TagAddr} {l : Addr}

/-- **How a call comes by an instance.**  It uses the tag then. -/
theorem Step.refers (hs : Step s c s') (h : Refers s' y l c) :
    Refers s y l c ∨ (∃ d, (s.thread c).uses = some (d, y)) ∧
      ((s.mem.obj y).Linked l ∨
        l = (s.mem.obj y).brk ∧ (s.mem.obj y).brk < (s'.mem.obj y).brk) := by
  obtain ⟨hx, hl⟩ := h
  cases hc : s.thread c with
  | get a x p =>
    obtain ⟨m, x', p', -, rfl⟩ := hs.get hc
    rw [Config.set_thread_self] at hl
    cases hl
  | delete tag u x i p =>
    obtain ⟨m, x', i', p', -, rfl⟩ := hs.delete hc
    rw [Config.set_thread_self] at hl
    cases hl
  | user tag x t =>
    rcases hs.code hc with ⟨-, -, rfl⟩ | ⟨o, m, x', t', hx', rfl⟩ <;>
      rw [Config.set_thread_self] at hx hl
    · cases t <;> cases hl
    · obtain rfl : x' = some y := hx
      cases hi : inTag t.code with
      | false =>
        obtain ⟨hxy, hold⟩ := refs_outside hi hx' hl
        exact .inl ⟨by rw [hc]; exact hxy.symm, by rw [hc]; exact hold⟩
      | true =>
        rw [execOn_of_inTag hi] at hx'
        simp only [Option.bind_eq_some_iff, Option.map_eq_some_iff, Prod.mk.injEq] at hx'
        obtain ⟨z, hz, ⟨μ, p⟩, hexec, rfl, hzy, rfl⟩ := hx'
        obtain rfl : z = y := Option.some.inj (hz.symm.trans hzy)
        subst hz
        rcases Thread.refs_succ hexec hl with hold | hnew
        · exact .inl ⟨by rw [hc]; rfl, by rw [hc]; exact hold⟩
        · refine .inr ⟨?_, by simpa [Mem.setObj] using hnew⟩
          cases ht : t.ann.holdsTag with
          | true => exact uses_of_holdsTag (t := .user tag (some z) t) rfl ht
          | false =>
            obtain ⟨b, k, rfl⟩ := faultUnlockMutex_of_inTag hi ht
            cases Exec.of_exec hexec
            cases hl
  | read a x p =>
    rcases hs.read hc with ⟨o, q, hq, rfl⟩ | ⟨m, x', q, hx', rfl⟩ <;>
      rw [Config.set_thread_self] at hx hl
    · exact .inl ⟨by rw [hc]; exact hx, by rw [hc]; exact readFails_refs hq hl⟩
    · obtain rfl : x' = some y := hx
      obtain ⟨hxy, hold | ⟨hheld, z, hz, hlink⟩⟩ := read_refs hx' hl
      · exact .inl ⟨by rw [hc]; exact hxy.symm, by rw [hc]; exact hold⟩
      · obtain rfl : z = y := Option.some.inj (hz.symm.trans hxy.symm)
        subst hz
        exact .inr ⟨uses_of_holdsTag (t := .read a (some z) p) rfl hheld, .inl hlink⟩

/-- An instance that a level points to has not been freed by a last receiver. -/
theorem Reachable.live_of_linked (hr : Reachable s) (hy : y < s.mem.brk)
    (hl : (s.mem.obj y).Linked l) : (s.mem.obj y).Live l := by
  obtain ⟨i, hi⟩ := hl
  refine ⟨((hr.tag hy).table i l hi).1, ?_⟩
  by_contra hne
  exact (hr.epochs.freed y hy l hne).unlinked ⟨i, hi⟩

/-- The next address has not been freed. -/
theorem Reachable.freed_brk (hr : Reachable s) (hy : y < s.mem.brk) :
    (s.mem.obj y).freed (s.mem.obj y).brk = 0 := by
  by_contra hne
  exact lt_irrefl _ (hr.epochs.freed y hy _ hne).lt

/-- What becomes of the instances of a tag. -/
theorem Step.frees_one (hs : Step s c s') (hy : y < s.mem.brk) :
    (s.mem.obj y).brk ≤ (s'.mem.obj y).brk ∧
      (((s'.mem.obj y).freed = (s.mem.obj y).freed ∧ s'.mem.cleared y = s.mem.cleared y) ∨
        (∃ tag a k r, s.thread c = .user tag (some y) (.receive a (.free k r)) ∧
          (s'.thread c).refs = [] ∧ s'.mem.cleared y = s.mem.cleared y ∧
          (s'.mem.obj y).freed =
            Function.update (s.mem.obj y).freed k ((s.mem.obj y).freed k + 1)) ∨
        ∃ tag u i e k, s.thread c = .delete tag u (some y) i (.freeTag e) ∧ i < levels ∧
          (s.mem.obj y).tagLevel i = some k ∧ (s'.mem.obj y).freed = (s.mem.obj y).freed ∧
          s'.mem.cleared y = Function.update (s.mem.cleared y) k (s.mem.cleared y k + 1)) := by
  cases hc : s.thread c with
  | get a x p =>
    obtain ⟨m, x', p', hx, rfl⟩ := hs.get hc
    have hobj : m.obj y = s.mem.obj y := hx.obj hy
    refine ⟨by rw [Config.set_mem, hobj], .inl ⟨by rw [Config.set_mem, hobj], ?_⟩⟩
    cases hx <;> rfl
  | delete tag u x i p =>
    obtain ⟨m, x', i', p', hx, rfl⟩ := hs.delete hc
    have hobj : m.obj = s.mem.obj := hx.obj
    refine ⟨by rw [Config.set_mem, hobj], ?_⟩
    cases hx with
    | @clearLevel e z hz hi =>
      cases hk : (s.mem.obj z).tagLevel i with
      | none =>
        refine .inl ⟨by rw [Config.set_mem, hobj], ?_⟩
        rw [Config.set_mem, Mem.clearLevel, hk]
      | some k =>
        by_cases hzy : y = z
        · subst hzy hz
          refine .inr (.inr ⟨tag, u, i, e, k, rfl, hi, hk, by rw [Config.set_mem, hobj], ?_⟩)
          rw [Config.set_mem, Mem.clearLevel, hk]
          exact Function.update_self ..
        · refine .inl ⟨by rw [Config.set_mem, hobj], ?_⟩
          rw [Config.set_mem, Mem.clearLevel, hk]
          exact Function.update_of_ne hzy ..
    | _ => exact .inl ⟨by rw [Config.set_mem, hobj], rfl⟩
  | user tag x t =>
    rcases hs.code hc with ⟨-, -, rfl⟩ | ⟨o, m, x', t', hx, rfl⟩
    · exact ⟨le_rfl, .inl ⟨rfl, rfl⟩⟩
    · have hE := ExecOn.of_execOn hx
      have hcleared : m.cleared y = s.mem.cleared y := congrFun hE.frame.cleared y
      cases hi : inTag t.code with
      | false =>
        have hobj : m.obj = s.mem.obj := hE.obj_outside hi
        exact ⟨by rw [Config.set_mem, hobj], .inl ⟨by rw [Config.set_mem, hobj], hcleared⟩⟩
      | true =>
        rw [execOn_of_inTag hi] at hx
        simp only [Option.bind_eq_some_iff, Option.map_eq_some_iff, Prod.mk.injEq] at hx
        obtain ⟨z, rfl, ⟨μ, p⟩, hp, rfl, rfl, rfl⟩ := hx
        by_cases hyz : y = z
        · subst hyz
          simp only [Config.set_mem, Mem.setObj, Function.update_self]
          refine ⟨(Exec.of_exec hp).brk_le, ?_⟩
          rcases Thread.freed_succ hp with hfreed | ⟨a, k, r, rfl, rfl, hfreed⟩
          · exact .inl ⟨hfreed, trivial⟩
          · exact .inr (.inl ⟨tag, a, k, r, rfl, by rw [Config.set_thread_self]; rfl, trivial,
              hfreed⟩)
        · have hobj : (s.mem.setObj z μ).obj y = s.mem.obj y := Function.update_of_ne hyz ..
          exact ⟨by rw [Config.set_mem, hobj], .inl ⟨by rw [Config.set_mem, hobj], rfl⟩⟩
  | read a x p =>
    rcases hs.read hc with ⟨o, q, -, rfl⟩ | ⟨m, x', q, hx, rfl⟩
    · exact ⟨le_rfl, .inl ⟨rfl, rfl⟩⟩
    · have hcleared : m.cleared y = s.mem.cleared y := congrFun hx.frame.cleared y
      rcases hx.obj y with hobj | ⟨-, hexec⟩
      · exact ⟨by rw [Config.set_mem, hobj],
          .inl ⟨by rw [Config.set_mem, hobj], by rw [Config.set_mem, hcleared]⟩⟩
      · exact ⟨hexec.brk_le, .inl ⟨read_freed hexec, by rw [Config.set_mem, hcleared]⟩⟩

/-- A step keeps the references live.  An instance comes to be referred to by being loaded, and what
is linked has not been freed; it is freed by a step that the condition allows only when no other
call refers to it. -/
theorem RefsLive.step (hr : Reachable s) (hs : Step s c s') (hg : FreesUnused s c)
    (h : RefsLive s) : RefsLive s' := by
  intro d y l hd
  have hr' := hr.step hs
  -- the tag was there before the step, and the instance was live or is the new one
  have hy : y < s.mem.brk := by
    by_contra hnot
    have hlt := lt_of_le_of_lt (not_lt.1 hnot) (hr'.bounds.entry d y hd.1)
    obtain ⟨a, x, k, hc, rfl⟩ := hs.alloc hlt
    by_cases hdc : d = c
    · subst hdc
      rw [Refers, Config.set_thread_self] at hd
      cases hd.2
    · rw [Refers, Config.set_thread_of_ne _ _ _ _ hdc] at hd
      exact hnot (hr.bounds.entry d y hd.1)
  have hold : s.mem.cleared y l = 0 ∧ ((s.mem.obj y).Live l ∨
      l = (s.mem.obj y).brk ∧ (s.mem.obj y).brk < (s'.mem.obj y).brk) := by
    by_cases hdc : d = c
    · subst hdc
      rcases hs.refers hd with hold | ⟨⟨k, hu⟩, hlink | hnew⟩
      · exact ⟨(h d y l hold).2, .inl (h d y l hold).1⟩
      · exact ⟨(hr.not_freed_of_uses hu).2 l, .inl (hr.live_of_linked hy hlink)⟩
      · exact ⟨(hr.not_freed_of_uses hu).2 l, .inr hnew⟩
    · rw [Refers, hs.thread_of_ne hdc] at hd
      exact ⟨(h d y l hd).2, .inl (h d y l hd).1⟩
  obtain ⟨hbrk, hfrees⟩ := hs.frees_one hy
  -- the instance is not the one that is freed
  have hkeep : (s.mem.obj y).freed l = 0 →
      (s'.mem.obj y).freed l = 0 ∧ s'.mem.cleared y l = 0 := by
    intro hfreed
    rcases hfrees with ⟨hf, hc⟩ | ⟨tag, a, k, r, ht, ht', hc, hf⟩ |
      ⟨tag, u, i, e, k, ht, hi, hk, hf, hc⟩
    · rw [hf, hc]
      exact ⟨hfreed, hold.1⟩
    · have hlk : l ≠ k := by
        rintro rfl
        by_cases hdc : d = c
        · subst hdc
          rw [Refers, ht'] at hd
          cases hd.2
        · rw [Refers, hs.thread_of_ne hdc] at hd
          exact hg.receive tag y a l r ht d hdc hd
      rw [hf, hc, Function.update_of_ne hlk]
      exact ⟨hfreed, hold.1⟩
    · have hlk : l ≠ k := by
        rintro rfl
        by_cases hdc : d = c
        · subst hdc
          obtain ⟨m, x', i', p', -, rfl⟩ := hs.delete ht
          rw [Refers, Config.set_thread_self] at hd
          cases hd.2
        · rw [Refers, hs.thread_of_ne hdc] at hd
          exact hg.delete tag u y i e l ht hi hk d hdc hd
      rw [hf, hc, Function.update_of_ne hlk]
      exact ⟨hfreed, hold.1⟩
  rcases hold.2 with hlive | ⟨rfl, hlt⟩
  · obtain ⟨hf, hc⟩ := hkeep hlive.2
    exact ⟨⟨lt_of_lt_of_le hlive.1 hbrk, hf⟩, hc⟩
  · obtain ⟨hf, hc⟩ := hkeep (hr.freed_brk hy)
    exact ⟨⟨hlt, hf⟩, hc⟩

/-- **Under the condition no call refers to an instance that has been freed.** -/
theorem refsLive_of_run {s₀ s : State} (h0 : Init s₀) (h : RunUnder Step FreesUnused s₀ s) :
    RefsLive s := by
  refine h.invariant_run (fun d y l hd => ?_)
    fun u c v hu hi hg hs => hi.step ⟨s₀, h0, hu.run⟩ hs hg
  have hx := hd.1
  rw [h0.entry d] at hx
  cases hx

end Live

end Service

end TagAos
