import TagAos.Service.Visit

/-!
# What has been freed of a tag

A deletion frees a tag piece by piece: `clear_tag_level` the instances its levels point to, and
then the tag itself.  `Freed m y n` says how far that has come: each instance at a level below `n`
has been freed once, and from `levels < n` on the tag has been freed too, once.

`Accounts` keeps the books over all tags.  Nothing is freed of a tag that is linked or that a call
may still link.  A tag that a deletion buries is freed as far as the loop counter of the deletion
has come, and a tag that nobody has any more is freed completely.
-/

set_option autoImplicit false

namespace TagAos.Service

open Conc
open Registry (GetState DeleteState)

/-! ## The pieces of a tag

What has been handed to `free_level` by a deletion, and to `kfree` as a whole, is counted in two
fields of the memory that no operation reads, `cleared` and `tagFreed`.  A deletion frees the
instances in the order of their levels and the tag at the end, so one number says how far it has
come. -/

/-- Of the pieces of a tag, in the order they are freed in, the first `n` have been freed once, and
the others have not. -/
structure Freed (m : Mem) (y : TagAddr) (n : ℕ) : Prop where
  tag : m.tagFreed y = if levels < n then 1 else 0
  linked : ∀ i < levels, ∀ l, (m.obj y).tagLevel i = some l →
    m.cleared y l = if i < n then 1 else 0
  /-- Nothing else is handed to `free_level`. -/
  other : ∀ l, (∀ i < levels, (m.obj y).tagLevel i ≠ some l) → m.cleared y l = 0

section Freed

variable {m m' : Mem} {y z : TagAddr} {n i : ℕ}

theorem Freed.zero (htag : m.tagFreed y = 0) (hcleared : ∀ l, m.cleared y l = 0) :
    Freed m y 0 where
  tag := by simpa using htag
  linked i _ l _ := by simpa using hcleared l
  other l _ := hcleared l

theorem Freed.congr (h : Freed m y n) (hcleared : m'.cleared y = m.cleared y)
    (htag : m'.tagFreed y = m.tagFreed y) (hlevel : (m'.obj y).tagLevel = (m.obj y).tagLevel) :
    Freed m' y n where
  tag := htag.trans h.tag
  linked i hi l hl := by
    rw [hlevel] at hl
    rw [hcleared]
    exact h.linked i hi l hl
  other l hl := by
    rw [hlevel] at hl
    rw [hcleared]
    exact h.other l hl

/-- No piece is freed twice. -/
theorem Freed.le_one (h : Freed m y n) : m.tagFreed y ≤ 1 ∧ ∀ l, m.cleared y l ≤ 1 := by
  refine ⟨?_, fun l => ?_⟩
  · rw [h.tag]
    split <;> omega
  · by_cases hl : ∃ i < levels, (m.obj y).tagLevel i = some l
    · obtain ⟨i, hi, hil⟩ := hl
      rw [h.linked i hi l hil]
      split <;> omega
    · push Not at hl
      rw [h.other l hl]
      exact Nat.zero_le 1

/-- `free_level` leaves the other tags alone. -/
theorem Mem.clearLevel_cleared_of_ne (hz : z ≠ y) :
    (m.clearLevel y i).cleared z = m.cleared z := by
  rw [Mem.clearLevel]
  split
  · rfl
  · exact Function.update_of_ne hz ..

theorem Mem.clearLevel_obj : (m.clearLevel y i).obj = m.obj := by
  obtain ⟨f, hf⟩ := m.clearLevel_same y i
  rw [hf]

theorem Mem.clearLevel_tagFreed : (m.clearLevel y i).tagFreed = m.tagFreed := by
  obtain ⟨f, hf⟩ := m.clearLevel_same y i
  rw [hf]

/-- An iteration of `clear_tag_level`. -/
theorem Freed.clearLevel (h : Freed m y n) (hn : n < levels)
    (hinj : ∀ i j l, (m.obj y).tagLevel i = some l → (m.obj y).tagLevel j = some l → i = j) :
    Freed (m.clearLevel y n) y (n + 1) := by
  have htag : ¬ levels < n + 1 := by omega
  cases hl : (m.obj y).tagLevel n with
  | none =>
    have hmem : m.clearLevel y n = m := by rw [Mem.clearLevel, hl]
    rw [hmem]
    refine ⟨by rw [h.tag, if_neg htag, if_neg (by omega)], fun i hi l hil => ?_, h.other⟩
    have hne : i ≠ n := by
      rintro rfl
      rw [hl] at hil; cases hil
    rw [h.linked i hi l hil]
    simp only [show i < n + 1 ↔ i < n by omega]
  | some l₀ =>
    have hcleared : (m.clearLevel y n).cleared y =
        Function.update (m.cleared y) l₀ (m.cleared y l₀ + 1) := by
      simp [Mem.clearLevel, hl]
    refine ⟨?_, fun i hi l hil => ?_, fun l hother => ?_⟩
    · rw [Mem.clearLevel_tagFreed, h.tag, if_neg htag, if_neg (by omega)]
    · rw [Mem.clearLevel_obj] at hil
      rw [hcleared]
      by_cases hll : l = l₀
      · subst hll
        obtain rfl := hinj i n l hil hl
        rw [Function.update_self, h.linked i hi l hl]
        simp
      · have hne : i ≠ n := by
          rintro rfl
          exact hll (Option.some.inj (hil.symm.trans hl))
        rw [Function.update_of_ne hll, h.linked i hi l hil]
        simp only [show i < n + 1 ↔ i < n by omega]
    · rw [Mem.clearLevel_obj] at hother
      have hne : l ≠ l₀ := by
        rintro rfl
        exact hother n hn hl
      rw [hcleared, Function.update_of_ne hne]
      exact h.other l hother

/-- The tag itself. -/
theorem Freed.freeTag (h : Freed m y levels) : Freed (m.freeTag y) y (levels + 1) where
  tag := by simp [Mem.freeTag, h.tag]
  linked i hi l hl := by
    show m.cleared y l = _
    rw [h.linked i hi l hl, if_pos hi, if_pos (by omega)]
  other := h.other

end Freed

/-! ## What a step frees

Only a deletion frees a piece of a tag in this sense, and which piece comes next is told by the loop
counter of `clear_tag_level`.  (The instances that a last receiver frees are counted apart, in
`freed`.) -/

namespace Thread

/-- The loop counter of `clear_tag_level`. -/
def counter : Thread → ℕ
  | delete _ _ _ i _ => i
  | _ => 0

/-- The loop of `clear_tag_level` starts at 0 and does not pass the last level. -/
def Counted : Thread → Prop
  | delete _ _ _ i (.freeTag _) => i ≤ levels
  | delete _ _ _ _ (.done _) => True
  | delete _ _ _ i _ => i = 0
  | _ => True

theorem counted_zero {tag : ℤ} {u : ℕ} {x : Option TagAddr} (p : DeleteState) :
    (delete tag u x 0 p).Counted := by
  cases p <;> first | rfl | trivial | exact Nat.zero_le _

/-- The call is not in the loop yet as long as it may link its tag. -/
theorem counter_of_holds {t : Thread} {y : TagAddr} (h : t.Counted) (ht : t.holds = some y) :
    t.counter = 0 := by
  cases t with
  | delete tag u x i p => cases p <;> first | exact h | cases ht
  | get | user | read => rfl

theorem counter_le {t : Thread} {y : TagAddr} (h : t.Counted) (ht : t.buries = some y) :
    t.counter ≤ levels := by
  cases t with
  | delete tag u x i p =>
    cases p
    case freeTag e => exact h
    case clearCommon e | unlockClear e => exact (show i = 0 from h).trans_le (Nat.zero_le levels)
    all_goals cases ht
  | get | user | read => cases ht

/-- Every level lock is taken and released under `tag_lock`. -/
theorem holdsTag_of_level {t : Thread} {i : ℕ} {md : Mode} (h : (.level i, md) ∈ t.ann.held) :
    t.ann.holdsTag = true := by
  cases t with
  | get | delete => cases h
  | user tag x t =>
    cases t with
    | receive a p =>
      cases p
      case leave rel r | clear rel r | release rel r | unlockLevelError rel r =>
        cases rel <;> simp_all [ann, TagAos.Thread.ann, ReceiveState.ann, Release.held,
          Ann.holdsTag]
      all_goals simp_all [ann, TagAos.Thread.ann, ReceiveState.ann, Ann.holdsTag]
    | send b p => cases p <;> simp_all [ann, TagAos.Thread.ann, SendState.ann, Ann.holdsTag]
    | awake e p => cases p <;> simp_all [ann, TagAos.Thread.ann, AwakeState.ann, Ann.holdsTag]
  | read a x p => cases p <;> simp_all [ann, ReadState.ann, Ann.holdsTag]

end Thread

section Step

variable {s s' : State} {c : CallId} {y : TagAddr}

/-- What a step frees of a tag, where `t` and `t'` are the mover before and after it. -/
inductive FreeStep (m m' : Mem) (y : TagAddr) (t t' : Thread) : Prop
  /-- Nothing. -/
  | same (cleared : m'.cleared y = m.cleared y) (tagFreed : m'.tagFreed y = m.tagFreed y)
      (counter : t.buries = some y ∨ t.holds = some y → t'.counter = t.counter)
      (kept : t.buries = some y → t'.buries = some y)
  /-- The instance of a level. -/
  | level (buries : t.buries = some y) (lt : t.counter < levels)
      (mem : m' = m.clearLevel y t.counter) (counter : t'.counter = t.counter + 1)
      (kept : t'.buries = some y)
  /-- The tag itself. -/
  | tag (buries : t.buries = some y) (le : levels ≤ t.counter) (mem : m' = m.freeTag y)
      (done : t'.buries = none)

/-- What the registry does with a deletion does not end its burial. -/
theorem buries_of_deleteStep {m m' : Registry.Mem} {tag : ℤ} {euid i : ℕ} {x : Option TagAddr}
    {p p' : DeleteState} {o : Registry.Outcome} (hp : onAddr p = false)
    (h : Registry.deleteStep c m tag euid p o = some (m', p'))
    (hb : (Thread.delete tag euid x i p).buries = some y) :
    (Thread.delete tag euid x i p').buries = some y := by
  cases p
  case clearCommon e | unlockClear e =>
    cases o <;> simp only [Registry.deleteStep, reduceCtorEq, Option.some.injEq,
      Prod.mk.injEq] at h
    obtain ⟨-, rfl⟩ := h
    exact hb
  case freeTag => cases hp
  all_goals cases hb

/-- What a step frees of a tag: nothing, the next instance, or the tag itself. -/
theorem Step.freeStep (hs : Step s c s') (y : TagAddr) :
    FreeStep s.mem s'.mem y (s.thread c) (s'.thread c) := by
  cases hc : s.thread c with
  | get a x p =>
    obtain ⟨m, x', p', hx, rfl⟩ := hs.get hc
    rw [Config.set_thread_self]
    cases hx <;> exact .same rfl rfl (fun _ => rfl) fun hb => by cases hb
  | delete tag u x i p =>
    obtain ⟨m, x', i', p', hx, rfl⟩ := hs.delete hc
    rw [Config.set_thread_self]
    cases hx with
    | @clearLevel e z hz hi =>
      subst hz
      by_cases hy : y = z
      · subst hy; exact .level rfl hi rfl rfl rfl
      · have hne : some z ≠ some y := fun h => hy (Option.some.inj h).symm
        refine .same (Mem.clearLevel_cleared_of_ne hy) ?_ (fun hb => ?_) fun hb => absurd hb hne
        · rw [Config.set_mem, Mem.clearLevel_tagFreed]
        · rcases hb with hb | hb
          · exact absurd hb hne
          · cases hb
    | @freeTag e z hz hi =>
      subst hz
      by_cases hy : y = z
      · subst hy; exact .tag rfl (not_lt.1 hi) rfl rfl
      · have hne : some z ≠ some y := fun h => hy (Option.some.inj h).symm
        refine .same rfl (Function.update_of_ne hy ..) (fun hb => ?_) fun hb => absurd hb hne
        rcases hb with hb | hb
        · exact absurd hb hne
        · cases hb
    | registry hon _ h => exact .same rfl rfl (fun _ => rfl) (buries_of_deleteStep hon h)
    | _ => exact .same rfl rfl (fun _ => rfl) fun hb => by cases hb
  | user tag x t =>
    obtain ⟨m, x', t', hx, rfl⟩ := hs.user hc
    rw [Config.set_thread_self]
    exact .same (congrFun hx.frame.cleared y) (congrFun hx.frame.tagFreed y) (fun _ => rfl)
      fun hb => by cases hb
  | read a x p =>
    rcases hs.read hc with ⟨o, q, hq, rfl⟩ | ⟨m, x', q, hx, rfl⟩
    · rw [Config.set_thread_self]
      exact .same rfl rfl (fun _ => rfl) fun hb => by cases hb
    · rw [Config.set_thread_self]
      exact .same (congrFun hx.frame.cleared y) (congrFun hx.frame.tagFreed y) (fun _ => rfl)
        fun hb => by cases hb

/-- A step keeps the index of a deletion in its range. -/
theorem Step.counted (hs : Step s c s') (h : (s.thread c).Counted) : (s'.thread c).Counted := by
  cases hc : s.thread c with
  | get a x p =>
    obtain ⟨m, x', p', -, rfl⟩ := hs.get hc
    rw [Config.set_thread_self]; trivial
  | delete tag u x i p =>
    rw [hc] at h
    obtain ⟨m, x', i', p', hx, rfl⟩ := hs.delete hc
    rw [Config.set_thread_self]
    cases hx with
    | clearLevel _ hi => exact hi
    | freeTag | restore => trivial
    | registry hon _ hx =>
      have hi : i = 0 := by
        cases p
        case freeTag => cases hon
        case done rc => cases ‹Registry.Outcome› <;> cases hx
        all_goals exact h
      rw [hi]
      exact Thread.counted_zero _
    | _ => exact h
  | user tag x t =>
    obtain ⟨m, x', t', -, rfl⟩ := hs.user hc
    rw [Config.set_thread_self]; trivial
  | read a x p =>
    rcases hs.read hc with ⟨o, q, -, rfl⟩ | ⟨m, x', q, -, rfl⟩ <;>
    · rw [Config.set_thread_self]; trivial

/-- A call does not lose the tag it may link: it links it, or buries it. -/
theorem Step.keeps (hs : Step s c s') (hh : (s.thread c).holds = some y) :
    (s'.thread c).holds = some y ∨ (s'.thread c).buries = some y ∨
      ∃ d, s'.mem.tags d = some y := by
  cases hc : s.thread c with
  | get a x p =>
    rw [hc] at hh
    obtain ⟨m, x', p', hx, rfl⟩ := hs.get hc
    rw [Config.set_thread_self]
    cases hx with
    | @publish d =>
      obtain rfl : x = some y := hh
      exact .inr (.inr ⟨d, Function.update_self ..⟩)
    | alloc => cases hh
    | registry hp =>
      cases p
      case publish => exact absurd rfl (hp _)
      all_goals cases hh
  | delete tag u x i p =>
    rw [hc] at hh
    obtain ⟨m, x', i', p', hx, rfl⟩ := hs.delete hc
    rw [Config.set_thread_self]
    cases hx with
    | waiting | notWaiting => exact .inl hh
    | restore =>
      obtain rfl : x = some y := hh
      exact .inr (.inr ⟨_, Function.update_self ..⟩)
    | registry hon _ h =>
      cases p
      case unlockTag e =>
        cases ‹Registry.Outcome› <;> simp only [Registry.deleteStep, reduceCtorEq,
          Option.some.injEq, Prod.mk.injEq] at h
        obtain ⟨-, rfl⟩ := h
        exact .inl hh
      case lockClear e =>
        cases ‹Registry.Outcome› <;> simp only [Registry.deleteStep, reduceCtorEq,
          Option.some.injEq, Prod.mk.injEq, Option.map_eq_some_iff] at h
        · obtain ⟨m₁, -, -, rfl⟩ := h; exact .inr (.inl hh)
        · obtain ⟨-, rfl⟩ := h; exact .inl hh
      case testWaiting | restore => cases hon
      all_goals cases hh
    | _ => cases hh
  | user | read => rw [hc] at hh; cases hh

/-! ## The books -/

/-- **The books over what has been freed of the tags.** From the moment a deletion has taken a tag
out for good until it has freed it, the deletion *buries* the tag, and no other call does.  Before
that nothing has been freed of the tag (`Lifetimes.freed_zero`); meanwhile the pieces that the loop
has passed have been freed, once each; and afterwards all of them have.  So what has been freed of a
tag can be read off the points of the calls.

That the loop counter of a deletion starts at 0 and stays in range is part of the books, since it is
the number they are kept by. -/
structure Accounts (s : State) : Prop where
  counted : ∀ c, (s.thread c).Counted
  /-- No two calls bury the same tag. -/
  alone : ∀ c c' y, (s.thread c).buries = some y → (s.thread c').buries = some y → c = c'
  /-- A tag is freed as far as its deletion has come. -/
  buried : ∀ c y, (s.thread c).buries = some y → Freed s.mem y (s.thread c).counter
  /-- A tag that nobody has any more is freed. -/
  gone : ∀ y, Dead s y → (∀ c, (s.thread c).buries ≠ some y) → Freed s.mem y (levels + 1)

/-- Nothing has been freed of a tag that is linked, or that a call may still link. -/
theorem Lifetimes.freed_zero (h : Lifetimes s) (hy : ¬ Dead s y) : Freed s.mem y 0 :=
  .zero (by_contra fun hne => hy (h.freed y hne))
    fun l => by_contra fun hne => hy (h.cleared y l hne)

/-- Who buries a tag may not link it. -/
theorem Lifetimes.not_holds (h : Lifetimes s) {f g : CallId} (hf : (s.thread f).holds = some y) :
    (s.thread g).buries ≠ some y := fun hg => (h.buries g y hg).holds f hf

/-- The instances of a dead tag stay where they are. -/
theorem Dead.tagLevel_step (hr : Reachable s) (hs : Step s c s') (hy : Dead s y) :
    (s'.mem.obj y).tagLevel = (s.mem.obj y).tagLevel := by
  have hchange := hs.changeOn hy.lt
  generalize s'.mem.obj y = m' at hchange ⊢
  cases hchange
  case linked i z lock _ _ =>
    -- the call that replaces an instance uses the tag
    by_cases hx : (s.thread c).entry = some y
    · rw [State.annsOn, hx, onTag_self] at lock
      obtain ⟨d, hd⟩ := uses_of_holdsTag hx (Thread.holdsTag_of_level (Ann.mem_inside.1 lock).1)
      exact absurd (hr.lifetimes.uses c d y hd) (hy.tags d)
    · rw [State.annsOn, onTag_of_ne hx] at lock
      cases lock
  all_goals rfl

/-- The instances of a tag belong to one level each. -/
theorem Reachable.tagLevel_inj (hr : Reachable s) (hy : y < s.mem.brk) (i j : ℕ) (l : Addr)
    (hi : (s.mem.obj y).tagLevel i = some l) (hj : (s.mem.obj y).tagLevel j = some l) : i = j :=
  ((hr.tag hy).table i l hi).2.symm.trans ((hr.tag hy).table j l hj).2

section Keep

variable (hr : Reachable s) (h : Accounts s) (hs : Step s c s')

include hr hs

/-- Who buries a tag after a step: who did, or the mover, which could link it before. -/
theorem buries_succ {f : CallId} (hf : (s'.thread f).buries = some y) :
    (s.thread f).buries = some y ∨ f = c ∧ (s.thread c).holds = some y := by
  by_cases hfc : f = c
  · subst hfc
    cases hs.life hr hr.lifetimes with
    | quiet _ _ buries =>
      rcases buries with buries | buries
      · rw [buries] at hf; cases hf
      · exact .inl (buries ▸ hf)
    | created _ _ buries | linked _ _ _ _ _ _ buries | unlinked _ _ _ _ _ _ buries =>
      rw [buries] at hf; cases hf
    | buried z _ holds _ buries =>
      obtain rfl : z = y := Option.some.inj (buries.symm.trans hf)
      exact .inr ⟨rfl, holds⟩
  · rw [hs.thread_of_ne hfc] at hf
    exact .inl hf

include h

/-- No two deletions free the same tag. -/
theorem alone_buries_step (f g : CallId) (y : TagAddr) (hf : (s'.thread f).buries = some y)
    (hg : (s'.thread g).buries = some y) : f = g := by
  rcases buries_succ hr hs hf with hf | ⟨rfl, hh⟩
  · rcases buries_succ hr hs hg with hg | ⟨rfl, hh⟩
    · exact h.alone f g y hf hg
    · exact absurd hf (hr.lifetimes.not_holds hh)
  · rcases buries_succ hr hs hg with hg | ⟨rfl, -⟩
    · exact absurd hg (hr.lifetimes.not_holds hh)
    · rfl

/-- A tag that is being freed has been freed as far as its deletion has come. -/
theorem buried_step (f : CallId) (y : TagAddr) (hf : (s'.thread f).buries = some y) :
    Freed s'.mem y (s'.thread f).counter := by
  rcases buries_succ hr hs hf with hold | ⟨rfl, hh⟩
  · have hdead := hr.lifetimes.buries f y hold
    have hlevel := hdead.tagLevel_step hr hs
    have hfreed := h.buried f y hold
    by_cases hfc : f = c
    · subst hfc
      cases hs.freeStep y with
      | same cleared tagFreed counter =>
        rw [counter (.inl hold)]
        exact hfreed.congr cleared tagFreed hlevel
      | level _ lt mem counter =>
        rw [counter, mem]
        exact hfreed.clearLevel lt (hr.tagLevel_inj hdead.lt)
      | tag _ _ _ done => rw [done] at hf; cases hf
    · rw [hs.thread_of_ne hfc]
      rcases hs.frees y with ⟨cleared, tagFreed⟩ | hc
      · exact hfreed.congr cleared tagFreed hlevel
      · exact absurd (h.alone f c y hold hc) hfc
  · -- the deletion has come to `clear_tag_common`, with nothing freed
    have hzero := hr.lifetimes.freed_zero fun hdead : Dead s y => hdead.holds f hh
    cases hs.freeStep y with
    | same cleared tagFreed counter =>
      rw [counter (.inr hh), Thread.counter_of_holds (h.counted f) hh]
      refine .zero (tagFreed.trans (by simpa using hzero.tag)) fun l => ?_
      rw [cleared]
      by_contra hne
      exact (hr.lifetimes.cleared y l hne).holds f hh
    | level buries | tag buries => exact absurd buries (hr.lifetimes.not_holds hh)

/-- A dead tag that nobody is freeing has been freed completely. -/
theorem gone_step (y : TagAddr) (hy : Dead s' y) (hnone : ∀ f, (s'.thread f).buries ≠ some y) :
    Freed s'.mem y (levels + 1) := by
  by_cases hdead : Dead s y
  · have hlevel := hdead.tagLevel_step hr hs
    by_cases hb : ∃ f, (s.thread f).buries = some y
    · obtain ⟨f, hf⟩ := hb
      -- somebody still had the tag: it has just been freed
      obtain rfl : f = c := by
        by_contra hfc
        exact hnone f (by rw [hs.thread_of_ne hfc]; exact hf)
      cases hs.freeStep y with
      | same _ _ _ kept => exact absurd (kept hf) (hnone f)
      | level _ _ _ _ kept => exact absurd kept (hnone f)
      | tag _ le mem =>
        have hcounter := le_antisymm (Thread.counter_le (h.counted f) hf) le
        rw [mem]
        exact Freed.freeTag (hcounter ▸ h.buried f y hf)
    · push Not at hb
      rcases hs.frees y with ⟨cleared, tagFreed⟩ | hc
      · exact (h.gone y hdead hb).congr cleared tagFreed hlevel
      · exact absurd hc (hb c)
  · -- a tag dies only in the hands of a call
    exfalso
    have hlt : y < s.mem.brk := by
      by_contra hnot
      obtain ⟨a, x, d, -, rfl⟩ := hs.alloc (lt_of_le_of_lt (not_lt.1 hnot) hy.lt)
      have hyb : y = s.mem.brk := le_antisymm (Nat.lt_succ_iff.1 hy.lt) (not_lt.1 hnot)
      exact hy.holds c (by rw [Config.set_thread_self, hyb]; rfl)
    by_cases htags : ∃ d, s.mem.tags d = some y
    · obtain ⟨d, hd⟩ := htags
      cases hs.life hr hr.lifetimes with
      | quiet tags | created tags | buried _ tags => exact hy.tags d (by rw [tags]; exact hd)
      | linked e z _ free tags =>
        refine hy.tags d ?_
        have hne : d ≠ e := by
          rintro rfl
          rw [free] at hd; cases hd
        rw [tags, Function.update_of_ne hne]
        exact hd
      | unlinked e z _ tag tags holds =>
        by_cases hde : d = e
        · subst hde
          exact hy.holds c (holds.trans (tag.symm.trans hd))
        · refine hy.tags d ?_
          rw [tags, Function.update_of_ne hde]
          exact hd
    · push Not at htags
      have hheld : ∃ f, (s.thread f).holds = some y := by
        by_contra hnot
        push Not at hnot
        exact hdead ⟨hlt, htags, hnot⟩
      obtain ⟨f, hf⟩ := hheld
      by_cases hfc : f = c
      · subst hfc
        rcases hs.keeps hf with hh | hb | ⟨d, hd⟩
        · exact hy.holds f hh
        · exact hnone f hb
        · exact hy.tags d hd
      · exact hy.holds f (by rw [hs.thread_of_ne hfc]; exact hf)

/-- A step keeps the accounts, by the three lemmas before. -/
theorem Accounts.step : Accounts s' where
  counted f := by
    by_cases hfc : f = c
    · subst hfc; exact hs.counted (h.counted f)
    · rw [hs.thread_of_ne hfc]; exact h.counted f
  alone := alone_buries_step hr h hs
  buried := buried_step hr h hs
  gone := gone_step hr h hs

end Keep

theorem Init.accounts (h : Init s) (hcount : ∀ c, (s.thread c).Counted) : Accounts s where
  counted := hcount
  alone c _ y hc := absurd (Thread.entry_of_buries hc) (by rw [h.entry c]; simp)
  buried c y hc := absurd (Thread.entry_of_buries hc) (by rw [h.entry c]; simp)
  gone y hy := by
    have hlt := hy.lt
    rw [h.mem] at hlt
    exact absurd hlt (Nat.not_lt_zero y)

/-- **What has been freed of a tag** after any run of calls whose loops start at 0. -/
theorem accounts_of_run {s₀ : State} (h0 : Init s₀) (hcount : ∀ c, (s₀.thread c).Counted)
    (h : Run Step s₀ s) : Accounts s :=
  h.invariant_run (h0.accounts hcount) fun _ _ _ hu hp _ hs => hp.step ⟨s₀, h0, hu⟩ hs

end Step

end TagAos.Service
