import TagAos.Service.Names

/-!
# Creations and deletions beside each other

One step of a `tag_get` or of a deletion, with the allocator of `TagAos.Service.Slab` and without.
Either works on the registry as before and touches only the blocks of its own: a `tag_get` those of
the instances it has created, a deletion those of the tag that it has taken out of `tags`.

* `Slab.Related.get_step` — a step of `tag_get` that does not allocate the tag.
* `Slab.Related.newTag_step` — the one that does: the instances get their names then.
* `Slab.Related.delete_step` — a step of `tag_ctl(TAG_DELETE)`.
-/

set_option autoImplicit false

namespace TagAos.Service.Slab

open Conc
open Registry (GetArgs GetState DeleteState)

/-! ## What does not concern the allocator

The registry, the table and the address of the next tag are the same on both sides, so a step that
reads only these reads the same.  `MemNamed.keep` is for such steps: they change the shell of the
memory, both in the same way, and at most the blocks of an owner that is no tag. -/

section Base

variable {ρ : TagAddr → Addr → Addr} {m m' : Mem} {μ : Service.Mem} {s s' : State}
  {σ : Service.State} {c : CallId} {y : TagAddr} {o : Outcome} {w : Addr}

theorem MemNamed.brk (h : MemNamed ρ m μ) : m.base.brk = μ.brk := by rw [h.base]

theorem MemNamed.tags (h : MemNamed ρ m μ) : m.base.tags = μ.tags := by rw [h.base]

theorem MemNamed.entry (h : MemNamed ρ m μ) (hy : y < μ.brk) : m.base.entry y = μ.entry y := by
  have hpermission : (m.base.obj y).permission = (μ.obj y).permission :=
    (h.tag y hy).named.permission
  have heuid : (m.base.obj y).euid = (μ.obj y).euid := (h.tag y hy).named.euid
  rw [Service.Mem.entry, Service.Mem.entry, hpermission, heuid, h.base]

theorem MemNamed.registry (h : MemNamed ρ m μ) (hb : ∀ d y, μ.tags d = some y → y < μ.brk) :
    m.base.registry = μ.registry := by
  have htags : (fun d => (m.base.tags d).map m.base.entry) = fun d => (μ.tags d).map μ.entry := by
    funext d
    rw [h.tags]
    cases hd : μ.tags d with
    | none => rfl
    | some y => rw [Option.map_some, Option.map_some, h.entry (hb d y hd)]
  rw [Service.Mem.registry, htags, h.base, Service.Mem.registry]

/-- The parts of the memory that no allocator touches. -/
theorem MemNamed.keep {μ' : Service.Mem} {o : Owner} (h : MemNamed ρ m μ)
    (hk : Keeps m m' o) (ho : ∀ y, o ≠ .tag y)
    (hbase : m'.base = { μ' with obj := m.base.obj, cleared := m.base.cleared })
    (hobj : μ'.obj = μ.obj) (hcleared : μ'.cleared = μ.cleared) (hbrk : μ'.brk = μ.brk) :
    MemNamed ρ m' μ' where
  base := by rw [hbase]
  tag y hy := (h.tag y (hbrk ▸ hy)).keep hk (ho y) (by rw [hbase]) (by rw [hobj]) (by rw [hcleared])
  unborn b y hb hby := by
    obtain ⟨hold, heq⟩ := hk.old b hb (by rw [hby]; exact (ho y).symm)
    rw [hbrk]
    exact h.unborn b y hold (heq.trans hby)

end Base

/-! ## A creation before its tag

The three stages of a `tag_get` that the heap takes part in are the creation of the instances one by
one, the free of those created so far when one is missing, and the allocation of the tag, which
gives the instances to it.  Everything else is the registry's own code, and works as it does without
a heap. -/

section Get

variable {ρ : TagAddr → Addr → Addr} {m m' : Mem} {μ : Service.Mem} {s s' : State}
  {σ : Service.State} {c : CallId} {o : Outcome} {w : Addr} {a : GetArgs}
  {x x' : Option TagAddr} {p p' : GetState} {b : Service.Mem}

/-- Whatever `tag_get` does to the tags and the registry, it also does with the other allocator,
unless it allocates the tag. -/
theorem MemNamed.getStep (h : MemNamed ρ m μ) (hb : ∀ d y, μ.tags d = some y → y < μ.brk)
    (hp : ∀ d, p = .allocEntry d → o ≠ .go)
    (hs : Service.getStep c m.base a x p o = some (b, x', p')) :
    ∃ μ', Service.getStep c μ a x p o = some (μ', x', p') ∧
      b = { μ' with obj := m.base.obj, cleared := m.base.cleared } ∧
      μ'.obj = μ.obj ∧ μ'.cleared = μ.cleared ∧ μ'.brk = μ.brk := by
  unfold Service.getStep at hs ⊢
  split at hs
  case h_1 d => exact absurd rfl (hp d rfl)
  case h_2 d =>
    cases hs
    exact ⟨_, rfl, by rw [h.base]; rfl, rfl, rfl, rfl⟩
  case h_3 =>
    rw [h.registry hb] at hs
    simp only [Option.bind_eq_some_iff, Option.map_eq_some_iff, Prod.mk.injEq] at hs
    obtain ⟨o', ho, ⟨r, q⟩, hr, rfl, rfl, rfl⟩ := hs
    refine ⟨μ.withRegistry r, ?_, by rw [h.base]; rfl, rfl, rfl, rfl⟩
    rw [ho, Option.bind_some, hr]
    rfl

end Get

/-! ## The instances created so far

The point at which a `tag_get` stands says how many instances it has created: none after the array
of levels is there, one more after each `create_level`, and all of them before the tag is allocated.
Read backwards, a step into such a point is one of these two. -/

section GetSucc

variable {m b : Service.Mem} {c : CallId} {o : Outcome} {a : GetArgs} {x x' : Option TagAddr}
  {p p' : GetState}

/-- How a `tag_get` comes to have created `n` instances. -/
theorem creates_succ (h : Service.getStep c m a x p o = some (b, x', p')) {n : ℕ}
    (hn : (Thread.get a x' p').creates = some n) :
    o = .go ∧ ((∃ d, p = .allocLevels d ∧ p' = .addLevel d 0 ∧ n = 0) ∨
      ∃ d i, p = .addLevel d i ∧ (i + 1 < levels ∧ p' = .addLevel d (i + 1) ∧ n = i + 1 ∨
        ¬ i + 1 < levels ∧ p' = .allocEntry d ∧ n = levels)) := by
  cases GetMove.of_getStep h with
  | alloc | publish => cases hn
  | @registry _ _ o' r hp hp' hr =>
    clear hp hp'
    cases p
    case allocLevels d =>
      cases o <;> simp only [Service.getStep, registryOutcome, Registry.getStep, Option.bind_some,
        Option.bind_none, Option.map_some, Option.map_none, Option.some.injEq, Prod.mk.injEq,
        reduceCtorEq] at h
      · obtain ⟨-, -, rfl⟩ := h
        cases hn
        exact ⟨rfl, .inl ⟨d, rfl, rfl, rfl⟩⟩
      · obtain ⟨-, -, rfl⟩ := h
        cases hn
    case addLevel d i =>
      cases o <;> simp only [Service.getStep, registryOutcome, Registry.getStep, Option.bind_some,
        Option.bind_none, Option.map_some, Option.map_none, Option.some.injEq, Prod.mk.injEq,
        reduceCtorEq] at h
      · obtain ⟨-, -, rfl⟩ := h
        refine ⟨rfl, .inr ⟨d, i, rfl, ?_⟩⟩
        split_ifs at hn ⊢ with hi
        · cases hn; exact .inl ⟨hi, rfl, rfl⟩
        · cases hn; exact .inr ⟨hi, rfl, rfl⟩
      · obtain ⟨-, -, rfl⟩ := h
        cases hn
    case start =>
      cases o' <;>
        simp only [Registry.getStep, reduceCtorEq, Option.some.injEq, Prod.mk.injEq] at hr
      obtain ⟨-, rfl⟩ := hr
      rw [Registry.getStart] at hn
      split_ifs at hn <;> cases hn
    case unlockCreate r =>
      cases r <;> cases o' <;>
        simp only [Registry.getStep, reduceCtorEq, Option.some.injEq, Prod.mk.injEq] at hr <;>
      · obtain ⟨-, rfl⟩ := hr
        cases hn
    case lookup =>
      cases o' <;> simp only [Registry.getStep, reduceCtorEq] at hr
      split at hr <;> cases hr <;> cases hn
    all_goals
      cases o' <;> simp only [Registry.getStep, reduceCtorEq, Option.some.injEq, Prod.mk.injEq,
        Option.map_eq_some_iff] at hr
      all_goals
        first
          | (obtain ⟨-, rfl⟩ := hr; cases hn)
          | (obtain ⟨_, _, -, rfl⟩ := hr; cases hn)

end GetSucc

/-! ## Both systems make a step

What a step has to show to keep the two states together.  The names may be extended meanwhile, by
those of a tag that has just been allocated, and the thread that moved has to agree under every
further extension; the other threads agree because an extension leaves the names of the tags that
are already there. -/

section Set

variable {ρ ρ' : TagAddr → Addr → Addr} {m' : Mem} {μ' : Service.Mem} {s : State}
  {σ : Service.State} {c : CallId} {t t' : Thread}

theorem Extends.refl (μ : Service.Mem) (ρ : TagAddr → Addr → Addr) : Extends μ ρ ρ :=
  fun _ _ _ _ => rfl

theorem Related.thread_eq (h : Related ρ s σ) (c : CallId) : s.thread c = (σ.thread c).rename ρ :=
  h.thread ρ (.refl _ _) c

/-- Both systems make a step. -/
theorem Related.set (h : Related ρ s σ) (hmem : MemNamed ρ' m' μ')
    (hext : ∀ ρ'', Extends μ' ρ' ρ'' → Extends σ.mem ρ ρ'')
    (hother : ∀ d, d ≠ c → ∀ n, Created s.mem d n → Created m' d n)
    (hcreated : ∀ n, t.creates = some n → Created m' c n)
    (hlevel : ∀ a x d i, t = .get a x (.addLevel d i) → i < levels)
    (hthread : ∀ ρ'', Extends μ' ρ' ρ'' → t' = t.rename ρ'') :
    Related ρ' (s.set c m' t') (σ.set c μ' t) where
  mem := hmem
  created d n hn := by
    by_cases hdc : d = c
    · subst hdc
      rw [Config.set_thread_self] at hn
      exact hcreated n hn
    · rw [Config.set_thread_of_ne _ _ _ _ hdc] at hn
      exact hother d hdc n (h.created d n hn)
  level d a x k i hd := by
    by_cases hdc : d = c
    · subst hdc
      rw [Config.set_thread_self] at hd
      exact hlevel a x k i hd
    · rw [Config.set_thread_of_ne _ _ _ _ hdc] at hd
      exact h.level d a x k i hd
  thread ρ'' hρ d := by
    by_cases hdc : d = c
    · subst hdc
      rw [Config.set_thread_self, Config.set_thread_self]
      exact hthread ρ'' hρ
    · rw [Config.set_thread_of_ne _ _ _ _ hdc, Config.set_thread_of_ne _ _ _ _ hdc]
      exact h.thread ρ'' (hext ρ'' hρ) d

end Set

/-! ## A creation

The block of a new instance is one that is not live, so it is none of those that any call or tag
owns, and each of these keeps what is in it.  A `tag_get` whose allocation fails gives back its own
blocks only. -/

section GetStep

variable {ρ : TagAddr → Addr → Addr} {m m' : Mem} {μ : Service.Mem} {s : State}
  {σ : Service.State} {c : CallId} {o : Outcome} {w : Addr} {a : GetArgs} {n : ℕ}
  {x x' : Option TagAddr} {p p' : GetState}

theorem Created.clearCreated_keeps (h : Created m c n) : Keeps m (m.clearCreated c) (.call c) := by
  have hmem : ∀ b, m.owner b ≠ .call c → b ∉ m.created c := fun b hb hbc => hb (h.owner b hbc)
  refine ⟨fun b hb hne => ⟨hb.1, (if_neg (hmem b hne)).trans hb.2⟩, fun b _ _ => rfl,
    fun b _ _ => rfl, fun b hb hne => ⟨⟨hb.1, ?_⟩, rfl⟩⟩
  exact (if_neg (hmem b hne)).symm.trans hb.2

theorem addLevel_keeps {i : ℕ} (hav : m.heap.Available w) :
    Keeps m (m.addLevel c i w) (.call c) := by
  have hne : ∀ b, m.heap.Live b → b ≠ w := by
    rintro b hb rfl
    exact hav.not_live hb
  refine ⟨fun b hb _ => TagAos.Mem.live_createLevelAt hb, fun b hb _ => ?_, fun b hb _ => ?_,
    fun b hb hb' => ?_⟩
  · exact (congrFun (TagAos.Mem.block_createLevelAt ..) b).trans
      (Function.update_of_ne (hne b hb) ..)
  · exact Function.update_of_ne (hne b hb) ..
  · have hbw : b ≠ w := by
      rintro rfl
      exact hb' (Function.update_self ..)
    exact ⟨hav.live_of_createLevelAt hbw hb, (Function.update_of_ne hbw ..).symm⟩

/-- One more instance has been created. -/
theorem Created.addLevel {i : ℕ} (h : Created m c i) (hav : m.heap.Available w) :
    Created (m.addLevel c i w) c (i + 1) := by
  have hw : w ∉ m.created c := fun hw => hav.not_live (h.live w hw)
  have hcreated : (m.addLevel c i w).created c = m.created c ++ [w] := Function.update_self ..
  have hold : ∀ b ∈ m.created c, b ≠ w := by
    rintro b hb rfl
    exact hw hb
  -- the new block is none of the earlier ones, so all that is known of those stays
  refine ⟨by rw [hcreated, List.length_append, h.length]; rfl, ?_, fun b hb => ?_, fun b hb => ?_,
    fun j b hj => ?_⟩
  · rw [hcreated]
    exact List.nodup_append.2 ⟨h.nodup, List.nodup_singleton w, by
      rintro b hb _ hb' rfl
      exact hold b hb (List.mem_singleton.1 hb')⟩
  · rw [hcreated, List.mem_append, List.mem_singleton] at hb
    rcases hb with hb | rfl
    · exact TagAos.Mem.live_createLevelAt (h.live b hb)
    · exact ⟨lt_of_lt_of_le (Nat.lt_succ_self b) (le_max_right _ _), Function.update_self ..⟩
  · rw [hcreated, List.mem_append, List.mem_singleton] at hb
    rcases hb with hb | rfl
    · exact (Function.update_of_ne (hold b hb) ..).trans (h.owner b hb)
    · exact Function.update_self ..
  · rw [hcreated] at hj
    refine (congrFun (TagAos.Mem.block_createLevelAt ..) b).trans ?_
    rcases lt_or_eq_of_le (Nat.lt_succ_iff.1 (by
      have := (List.getElem?_eq_some_iff.1 hj).1
      rwa [List.length_append, h.length] at this)) with hlt | rfl
    · rw [List.getElem?_append_left (by rw [h.length]; exact hlt)] at hj
      rw [Function.update_of_ne (hold b (List.mem_of_getElem? hj))]
      exact h.block j b hj
    · rw [List.getElem?_append_right (by rw [h.length]), h.length, Nat.sub_self] at hj
      cases hj
      exact Function.update_self ..

/-- A `tag_get` changes only the blocks of the instances it creates. -/
theorem Mem.alloc_keeps (h : m.alloc c w p o = some m')
    (hown : ∀ n, (Thread.get a x p).creates = some n → Created m c n) :
    m'.base = m.base ∧ Keeps m m' (.call c) ∧ ∀ d, d ≠ c → m'.created d = m.created d := by
  unfold Mem.alloc at h
  split at h
  · cases h
    exact ⟨rfl, .of_eq (by rfl) (by rfl) _, fun d hd => Function.update_of_ne hd ..⟩
  · split at h
    · rename_i hav
      cases h
      exact ⟨rfl, addLevel_keeps hav, fun d hd => Function.update_of_ne hd ..⟩
    · cases h
  · cases h
    exact ⟨rfl, (hown _ rfl).clearCreated_keeps, fun _ _ => rfl⟩
  · cases h
    exact ⟨rfl, (hown _ rfl).clearCreated_keeps, fun _ _ => rfl⟩
  · cases h
    exact ⟨rfl, .of_eq (by rfl) (by rfl) _, fun _ _ => rfl⟩

/-- A step of a `tag_get` that does not allocate the tag.  The names stay, since there are no
instances yet that could have one; what grows is the list of blocks that the call has created. -/
theorem Related.get_step (h : Related ρ s σ) (hσ : Reachable σ) (hc : σ.thread c = .get a x p)
    (hp : ∀ d, p = .allocEntry d → o ≠ .go)
    (hs : Slab.getStep c s.mem a x p o w = some (m', x', p')) :
    ∃ μ', Service.getStep c σ.mem a x p o = some (μ', x', p') ∧
      Related ρ (s.set c m' (.get a x' p')) (σ.set c μ' (.get a x' p')) := by
  unfold Slab.getStep at hs
  split at hs
  · exact absurd rfl (hp _ rfl)
  · simp only [Option.bind_eq_some_iff, Option.map_eq_some_iff, Prod.mk.injEq] at hs
    obtain ⟨m₁, hm₁, ⟨b, x₁, p₁⟩, hb, rfl, rfl, rfl⟩ := hs
    have hown : ∀ n, (Thread.get a x p).creates = some n → Created s.mem c n :=
      fun n hn => h.created c n (by rw [hc]; exact hn)
    obtain ⟨hbase, hk, hcreated⟩ := Mem.alloc_keeps hm₁ hown
    obtain ⟨μ', hμ', hshell, hobj, hcleared, hbrk⟩ :=
      h.mem.getStep (fun d y hd => hσ.bounds.tags d y hd) hp hb
    -- what the call does to the base does not concern the heap
    have hk' : Keeps s.mem { m₁ with base := b } (.call c) := ⟨hk.live, hk.block, hk.owner, hk.old⟩
    refine ⟨μ', hμ', h.set (h.mem.keep hk' (fun y heq => by cases heq) hshell hobj hcleared hbrk)
      (fun ρ'' hext y hy l hl => hext y (hbrk ▸ hy) l (by rw [hobj]; exact hl)) ?_ ?_ ?_
      fun _ _ => rfl⟩
    · exact fun d hd n hn => hn.keep hk' (by simpa using hd.symm) (hcreated d hd)
    · intro n hn
      -- either no instance yet, or one more than before
      obtain ⟨rfl, ⟨d, rfl, rfl, rfl⟩ | ⟨d, i, rfl, hi⟩⟩ := creates_succ hb hn
      · cases hm₁
        have hnil : Function.update s.mem.created c [] c = [] := Function.update_self ..
        constructor <;> simp
      · have hle : i < levels := h.level c a x d i hc
        simp only [Mem.alloc] at hm₁
        split at hm₁
        · rename_i hav
          cases hm₁
          have hnew := (hown i rfl).addLevel hav
          have hcr : Created { s.mem.addLevel c i w with base := b } c (i + 1) :=
            ⟨hnew.length, hnew.nodup, hnew.live, hnew.owner, hnew.block⟩
          rcases hi with ⟨hlt, rfl, rfl⟩ | ⟨hge, rfl, rfl⟩
          · exact hcr
          · have hlast : i + 1 = levels := le_antisymm hle (not_lt.1 hge)
            exact hlast ▸ hcr
        · cases hm₁
    · intro a₀ x₀ d i heq
      cases heq
      obtain ⟨-, ⟨d, -, heq, rfl⟩ | ⟨d, j, -, ⟨hlt, heq, rfl⟩ | ⟨-, heq, -⟩⟩⟩ :=
        creates_succ hb (n := i) rfl
      · decide
      · exact hlt
      · cases heq

end GetStep

/-! ## The tag gets its instances

Here the names of the new tag are chosen: instance `i` of it is in the block that the `i`-th
`create_level` returned.  The blocks pass from the call to the tag, and a tag that was there before
sees none of it. -/

section NewTag

variable {ρ : TagAddr → Addr → Addr} {s : State} {σ : Service.State} {c : CallId} {a : GetArgs}
  {x : Option TagAddr} {d : ℕ}

/-- The instances of a tag that has just been created. -/
theorem Created.tagNamed {m : Mem} {μ : Service.Mem} (h : Created m c levels)
    (hbrk : m.base.brk = μ.brk) (hnew : ∀ b, m.heap.Live b → m.owner b ≠ .tag μ.brk)
    (hcleared : ∀ l, μ.cleared μ.brk l = 0) :
    TagNamed (fun i => (m.created c)[i]?.getD 0) (m.newTag c a d) (μ.newTag a d) μ.brk := by
  have hview : (m.newTag c a d).view μ.brk =
      TagAos.Mem.withHeap { TagAos.Mem.fresh a.permission a.euid with
        tagLevel := fun i => (m.created c)[i]? } m.heap := by
    rw [Mem.view, Mem.newTag, hbrk]
    simp [Service.Mem.setObj]
  have hobj : (μ.newTag a d).obj μ.brk = .fresh a.permission a.euid := Function.update_self ..
  have hget : ∀ i < levels, ∃ b, (m.created c)[i]? = some b := fun i hi =>
    ⟨_, List.getElem?_eq_getElem (by rw [h.length]; exact hi)⟩
  have hlt : ∀ i, InUse (μ.newTag a d) μ.brk i → i < levels := fun i hi => by
    have := hi.1.1
    rwa [hobj] at this
  have hmem : ∀ i < levels, (m.created c)[i]?.getD 0 ∈ m.created c := fun i hi => by
    obtain ⟨b, hb⟩ := hget i hi
    rw [hb]
    exact List.mem_of_getElem? hb
  refine ⟨?_, fun i hi => if_pos (hmem i (hlt i hi)) |>.trans (by rw [hbrk]), fun b hb hby => ?_⟩
  · rw [hview, hobj]
    refine ⟨rfl, rfl, rfl, rfl, rfl, fun i => ?_, rfl, fun _ => rfl, fun i hi => ?_, fun i hi => ?_,
      fun i j hi hj heq => ?_⟩
    · by_cases hi : i < levels
      · obtain ⟨b, hb⟩ := hget i hi
        simp [TagAos.Mem.withHeap, TagAos.Mem.fresh, hi, hb]
      · simp [TagAos.Mem.withHeap, TagAos.Mem.fresh, hi, h.length]
    · obtain ⟨b, hb⟩ := hget i hi.1.1
      rw [hb]
      exact h.block i b hb
    · exact h.live _ (hmem i hi.1.1)
    · obtain ⟨b, hb⟩ := hget i hi.1.1
      obtain ⟨b', hb'⟩ := hget j hj.1.1
      rw [hb, hb'] at heq
      obtain rfl : b = b' := heq
      exact (List.getElem?_inj (by rw [h.length]; exact hi.1.1) h.nodup).1 (hb.trans hb'.symm)
  -- a live block of the new tag is one that the call has created: no other was given to it
  · have hbc : b ∈ m.created c := by
      by_contra hbc
      exact hnew b hb ((if_neg hbc).symm.trans hby)
    obtain ⟨i, hi⟩ := List.getElem?_of_mem hbc
    have hil : i < levels := by
      rw [← h.length]
      exact (List.getElem?_eq_some_iff.1 hi).1
    refine ⟨i, ⟨?_, ?_⟩, by rw [hi]; rfl⟩
    · rw [hobj]
      exact ⟨hil, rfl⟩
    · exact not_not.2 (hcleared i)

/-- A tag that was there before. -/
theorem TagNamed.newTag {m : Mem} {μ : Service.Mem} {y : TagAddr} {r : Addr → Addr}
    (h : TagNamed r m μ y) (hcr : Created m c levels) (hbrk : m.base.brk = μ.brk) (hy : y < μ.brk) :
    TagNamed r (m.newTag c a d) (μ.newTag a d) y := by
  have hobj : (μ.newTag a d).obj y = μ.obj y := Function.update_of_ne (ne_of_lt hy) ..
  have hview : (m.newTag c a d).view y = m.view y := by
    simp only [Mem.view, Mem.newTag, Service.Mem.setObj, Service.Mem.newTag, hbrk,
      Function.update_of_ne (ne_of_lt hy)]
  have hcleared : (μ.newTag a d).cleared = μ.cleared := rfl
  refine ⟨by rw [hview, hobj]; exact h.named, fun i hi => ?_, fun b hb hby => ?_⟩
  · rw [InUse, hobj] at hi
    have hown := h.owner i hi
    refine (if_neg fun hbc => ?_).trans hown
    rw [hcr.owner _ hbc] at hown
    cases hown
  · have hbc : b ∉ m.created c := fun hbc => by
      have heq : Owner.tag m.base.brk = .tag y := (if_pos hbc).symm.trans hby
      cases heq
      exact absurd hy (by rw [hbrk]; exact lt_irrefl _)
    obtain ⟨i, hi, rfl⟩ := h.covers b hb ((if_neg hbc).symm.trans hby)
    exact ⟨i, by rw [InUse, hobj]; exact hi, rfl⟩

/-- The step of a `tag_get` that allocates the tag.  The names of the tag at the next free address
are those of the blocks created by the call, in their order; all other tags keep theirs. -/
theorem Related.newTag_step (h : Related ρ s σ) (hσ : Reachable σ)
    (hc : σ.thread c = .get a x (.allocEntry d)) :
    Related (Function.update ρ σ.mem.brk fun i => (s.mem.created c)[i]?.getD 0)
      (s.set c (s.mem.newTag c a d) (.get a (some s.mem.base.brk) (.publish d)))
      (σ.set c (σ.mem.newTag a d) (.get a (some σ.mem.brk) (.publish d))) := by
  have hcr : Created s.mem c levels := h.created c levels (by rw [hc]; rfl)
  have hne : ∀ b, s.mem.owner b ≠ .call c → (s.mem.newTag c a d).owner b = s.mem.owner b :=
    fun b hb => if_neg fun hbc => hb (hcr.owner b hbc)
  have hbrk := h.mem.brk
  have hold : ∀ y < σ.mem.brk, Function.update ρ σ.mem.brk
      (fun i => (s.mem.created c)[i]?.getD 0) y = ρ y :=
    fun y hy => Function.update_of_ne (ne_of_lt hy) ..
  -- the memories, the names of the old tags, what other calls have created, and then the thread
  refine h.set ?_ ?_ ?_ ?_ ?_ ?_
  · refine ⟨?_, fun y hy => ?_, fun b y hb hby => ?_⟩
    · simp only [Mem.newTag, Service.Mem.setObj, Service.Mem.newTag]
      rw [h.mem.base]
    · rcases Nat.lt_succ_iff_lt_or_eq.1 hy with hlt | rfl
      · rw [hold y hlt]
        exact (h.mem.tag y hlt).newTag hcr hbrk hlt
      · rw [Function.update_self]
        refine hcr.tagNamed hbrk (fun b hb hby => ?_) fun l => ?_
        · exact lt_irrefl _ (h.mem.unborn b _ hb hby)
        · by_contra hcl
          exact lt_irrefl _ (hσ.lifetimes.cleared _ l hcl).lt
    · by_cases hbc : b ∈ s.mem.created c
      · have : Owner.tag s.mem.base.brk = .tag y := (if_pos hbc).symm.trans hby
        cases this
        rw [hbrk]
        exact Nat.lt_succ_self _
      · exact Nat.lt_succ_of_lt (h.mem.unborn b y hb ((if_neg hbc).symm.trans hby))
  · intro ρ'' hext y hy l hl
    rw [hext y (Nat.lt_succ_of_lt hy) l (by
      simpa [Service.Mem.newTag, ne_of_lt hy] using hl), hold y hy]
  · intro e hec n hn
    refine ⟨hn.length, hn.nodup, hn.live, fun b hb => ?_, hn.block⟩
    have hb' := hn.owner b hb
    refine (hne b ?_).trans hb'
    rw [hb']
    intro heq
    cases heq
    exact hec rfl
  · intro n hn
    cases hn
  · intro a₀ x₀ d₀ i heq
    cases heq
  · intro ρ'' _
    rw [hbrk]
    rfl

end NewTag

/-! ## A deletion

The tag has been taken out of the table and nobody holds it, so its linked instances are freed one
after the other.  The block of each may be handed out from then on, and no name of the tag leads to
it any more. -/

section Delete

variable {ρ : TagAddr → Addr → Addr} {m m' : Mem} {μ : Service.Mem} {s : State}
  {σ : Service.State} {c : CallId} {o : Outcome} {tag : ℤ} {u i i' : ℕ}
  {x x' : Option TagAddr} {p p' : DeleteState} {b : Service.Mem} {y : TagAddr}

/-- Whatever a deletion does to the tags and the registry, it also does with the other allocator,
unless it frees the tag. -/
theorem MemNamed.deleteStep (h : MemNamed ρ m μ) (hb : ∀ d y, μ.tags d = some y → y < μ.brk)
    (hx : ∀ y, x = some y → y < μ.brk) (hp : ∀ e, p = .freeTag e → o ≠ .go)
    (hs : Service.deleteStep c m.base tag u x i p o = some (b, x', i', p')) :
    ∃ μ', Service.deleteStep c μ tag u x i p o = some (μ', x', i', p') ∧
      b = { μ' with obj := m.base.obj, cleared := m.base.cleared } ∧
      μ'.obj = μ.obj ∧ μ'.cleared = μ.cleared ∧ μ'.brk = μ.brk := by
  unfold Service.deleteStep at hs ⊢
  split at hs
  case h_1 =>
    rw [h.tags] at hs
    cases ht : μ.tags tag.toNat with
    | none =>
      rw [ht] at hs
      cases hs
      exact ⟨μ, rfl, h.base, rfl, rfl, rfl⟩
    | some y =>
      rw [ht] at hs
      cases hs
      exact ⟨μ, by rw [h.entry (hb _ y ht)], h.base, rfl, rfl, rfl⟩
  case h_2 =>
    cases hs
    exact ⟨_, rfl, by rw [h.base]; rfl, rfl, rfl, rfl⟩
  case h_3 e =>
    obtain ⟨y, rfl, hs⟩ := Option.map_eq_some_iff.1 hs
    have hwaiting : (m.base.obj y).tagWaiting = (μ.obj y).tagWaiting :=
      (h.tag y (hx y rfl)).named.tagWaiting
    rw [hwaiting] at hs
    cases hs
    exact ⟨μ, rfl, h.base, rfl, rfl, rfl⟩
  case h_4 =>
    cases hs
    exact ⟨_, rfl, by rw [h.base]; rfl, rfl, rfl, rfl⟩
  case h_5 e => exact absurd rfl (hp e rfl)
  case h_6 =>
    rw [h.registry hb] at hs
    simp only [Option.bind_eq_some_iff, Option.map_eq_some_iff, Prod.mk.injEq] at hs
    obtain ⟨o', ho, ⟨r, q⟩, hr, rfl, rfl, rfl, rfl⟩ := hs
    refine ⟨μ.withRegistry r, ?_, by rw [h.base]; rfl, rfl, rfl, rfl⟩
    rw [ho, Option.bind_some, hr]
    rfl

/-- A deletion changes only the blocks of its tag. -/
theorem Mem.clearLevel_keeps {l : Addr} (hl : (m.base.obj y).tagLevel i = some l)
    (hown : m.owner l = .tag y) :
    Keeps m (m.clearLevel y i) (.tag y) := by
  have hm : m.clearLevel y i = { m with heap := { m.heap with
      freed := Function.update m.heap.freed l (m.heap.freed l + 1) } } := by
    rw [Mem.clearLevel, hl]
  rw [hm]
  have hne : ∀ b, m.owner b ≠ .tag y → b ≠ l := by
    rintro b hb rfl
    exact hb hown
  refine ⟨fun b hb hbo => ⟨hb.1, (Function.update_of_ne (hne b hbo) ..).trans hb.2⟩,
    fun b _ _ => rfl, fun b _ _ => rfl, fun b hb hbo => ⟨⟨hb.1, ?_⟩, rfl⟩⟩
  exact (Function.update_of_ne (hne b hbo) ..).symm.trans hb.2

/-- The tag whose instance `a` is freed. -/
theorem TagNamed.clearLevel {r : Addr → Addr} {a : Addr} (h : TagNamed r m μ y)
    (hl : (μ.obj y).tagLevel i = some a) (ha : InUse μ y a) :
    TagNamed r (m.clearLevel y i) (μ.clearLevel y i) y := by
  have hlevel : (m.base.obj y).tagLevel i = some (r a) := by
    have := h.named.tagLevel i
    rwa [hl] at this
  have hm : m.clearLevel y i = { m with heap := { m.heap with
      freed := Function.update m.heap.freed (r a) (m.heap.freed (r a) + 1) } } := by
    rw [Mem.clearLevel, hlevel]
  have hcleared : (μ.clearLevel y i).cleared y =
      Function.update (μ.cleared y) a (μ.cleared y a + 1) := by
    rw [Service.Mem.clearLevel, hl]
    exact Function.update_self ..
  have hobj : (μ.clearLevel y i).obj = μ.obj := Mem.clearLevel_obj
  -- the other instances
  have hold : ∀ b, InUse (μ.clearLevel y i) y b ↔ b ≠ a ∧ InUse μ y b := fun b => by
    rw [InUse, InUse, hobj, hcleared]
    by_cases hba : b = a
    · subst hba
      simp [TagAos.Mem.InUse]
    · simp [TagAos.Mem.InUse, hba]
  have hname : ∀ b, b ≠ a → InUse μ y b → r b ≠ r a :=
    fun b hba hb heq => hba (h.named.inj b a hb ha heq)
  refine ⟨?_, fun b hb => ?_, fun b hb hby => ?_⟩
  · rw [hm, hobj]
    exact { h.named with
      block := fun b hb => h.named.block b ((hold b).1 (by rw [InUse, hobj]; exact hb)).2
      live := fun b hb => by
        obtain ⟨hba, hb⟩ := (hold b).1 (by rw [InUse, hobj]; exact hb)
        have hlive := h.named.live b hb
        exact ⟨hlive.1, (Function.update_of_ne (hname b hba hb) ..).trans hlive.2⟩
      inj := fun b b' hb hb' => h.named.inj b b' ((hold b).1 (by rw [InUse, hobj]; exact hb)).2
        ((hold b').1 (by rw [InUse, hobj]; exact hb')).2 }
  · obtain ⟨hba, hb⟩ := (hold b).1 hb
    rw [hm]
    exact h.owner b hb
  · rw [hm] at hb hby
    -- a block that is still live is not the one just freed
    have hbr : b ≠ r a := by
      rintro rfl
      have := hb.2
      simp at this
    obtain ⟨e, he, rfl⟩ := h.covers b ⟨hb.1, (Function.update_of_ne hbr ..).symm.trans hb.2⟩ hby
    refine ⟨e, (hold e).2 ⟨?_, he⟩, rfl⟩
    rintro rfl
    exact hbr rfl

end Delete

/-! ## A step of a deletion

That the instance about to be freed is still in use is where the argument needs more than the two
memories: it comes from `Accounts`, the account of what has been freed by whom in the system without
a heap. -/

section DeleteStep

variable {ρ : TagAddr → Addr → Addr} {m' : Mem} {s : State} {σ : Service.State} {c : CallId}
  {o : Outcome} {tag : ℤ} {u i i' : ℕ} {x x' : Option TagAddr} {p p' : DeleteState} {y : TagAddr}

/-- The instance that a deletion is about to free has not been freed. -/
theorem inUse_of_freeTag {e : Registry.Entry} {l : Addr} (hσ : Reachable σ) (hacc : Accounts σ)
    (hc : σ.thread c = .delete tag u (some y) i (.freeTag e)) (hi : i < levels)
    (hl : (σ.mem.obj y).tagLevel i = some l) : InUse σ.mem y l := by
  have hy := hσ.bounds.entry c y (by rw [hc]; rfl)
  refine ⟨hσ.live_of_linked hy ⟨i, hl⟩, ?_⟩
  have hfreed : Freed σ.mem y i := by
    have := hacc.buried c y (by rw [hc]; rfl)
    rwa [hc] at this
  have hzero : σ.mem.cleared y l = 0 := by
    rw [hfreed.linked i hi l hl, if_neg (lt_irrefl i)]
  exact not_not.2 hzero

/-- A step of a deletion.  The table and the mutexes are those of the system without a heap, by
`MemNamed.deleteStep`; the free of an instance is the one step that touches a block. -/
theorem Related.delete_step (h : Related ρ s σ) (hσ : Reachable σ) (hacc : Accounts σ)
    (hc : σ.thread c = .delete tag u x i p)
    (hs : Slab.deleteStep c s.mem tag u x i p o = some (m', x', i', p')) :
    ∃ μ', Service.deleteStep c σ.mem tag u x i p o = some (μ', x', i', p') ∧
      Related ρ (s.set c m' (.delete tag u x' i' p')) (σ.set c μ' (.delete tag u x' i' p')) := by
  have hx : ∀ y, x = some y → y < σ.mem.brk := fun y hy =>
    hσ.bounds.entry c y (by rw [hc]; exact hy)
  -- what is left to show: the memory, and that nothing else has changed
  have key : ∀ {μ' : Service.Mem} {w : Owner}, MemNamed ρ m' μ' → Keeps s.mem m' w →
      (∀ d, w ≠ .call d) → m'.created = s.mem.created → μ'.obj = σ.mem.obj →
      μ'.brk = σ.mem.brk →
      Related ρ (s.set c m' (.delete tag u x' i' p')) (σ.set c μ' (.delete tag u x' i' p')) := by
    intro μ' w hmem hk hw hcreated hobj hbrk
    refine h.set hmem (fun ρ'' hext y hy l hl => hext y (hbrk ▸ hy) l (by rw [hobj]; exact hl))
      (fun d _ n hn => hn.keep hk (hw d) (by rw [hcreated])) (fun n hn => by cases hn)
      (fun a₀ x₀ d j heq => by cases heq) fun _ _ => rfl
  unfold Slab.deleteStep at hs
  split at hs
  · rename_i e
    obtain ⟨y, rfl, hs⟩ := Option.map_eq_some_iff.1 hs
    have hy := hx y rfl
    split at hs
    · rename_i hi
      cases hs
      refine ⟨σ.mem.clearLevel y i, by simp [Service.deleteStep, hi], ?_⟩
      -- `clear_tag_level` skips an entry that is NULL
      cases hl : (σ.mem.obj y).tagLevel i with
      | none =>
        have hlevel : (s.mem.base.obj y).tagLevel i = none := by
          have := (h.mem.tag y hy).named.tagLevel i
          rwa [hl] at this
        have hm : s.mem.clearLevel y i = s.mem := by rw [Mem.clearLevel, hlevel]
        have hμ : σ.mem.clearLevel y i = σ.mem := by rw [Service.Mem.clearLevel, hl]
        exact key (by rw [hm, hμ]; exact h.mem) (w := .tag 0) (.of_eq (by rw [hm]) (by rw [hm]) _)
          (fun _ heq => by cases heq) (by rw [hm]) (by rw [hμ]) (by rw [hμ])
      | some l =>
        have hin := inUse_of_freeTag hσ hacc hc hi hl
        obtain ⟨f, hf⟩ := σ.mem.clearLevel_same y i
        have hlevel : (s.mem.base.obj y).tagLevel i = some (ρ y l) := by
          have := (h.mem.tag y hy).named.tagLevel i
          rwa [hl] at this
        have hk := Mem.clearLevel_keeps hlevel ((h.mem.tag y hy).owner l hin)
        have hbase : (s.mem.clearLevel y i).base = s.mem.base := by
          rw [Mem.clearLevel, hlevel]
        have hcreated : (s.mem.clearLevel y i).created = s.mem.created := by
          rw [Mem.clearLevel, hlevel]
        refine key ⟨?_, fun z hz => ?_, fun b z hb hbz => ?_⟩ hk (fun _ heq => by cases heq)
          hcreated (by rw [hf]) (by rw [hf])
        · rw [hbase, hf]
          exact h.mem.base
        · by_cases hzy : z = y
          · subst hzy
            exact (h.mem.tag z hy).clearLevel hl hin
          · exact (h.mem.tag z (by rwa [hf] at hz)).keep hk (fun heq => hzy (by cases heq; rfl))
              (by rw [hbase]) (by rw [hf]) (Mem.clearLevel_cleared_of_ne hzy)
        · rw [hf]
          by_cases hzy : z = y
          · subst hzy; exact hy
          · obtain ⟨hold, heq⟩ := hk.old b hb (by rw [hbz]; intro heq; cases heq; exact hzy rfl)
            exact h.mem.unborn b z hold (heq.trans hbz)
    · rename_i hi
      cases hs
      refine ⟨σ.mem.freeTag y, by simp [Service.deleteStep, hi], ?_⟩
      refine key (h.mem.keep (o := .call 0) (.of_eq (by rfl) (by rfl) _) (fun _ heq => by cases heq)
        (by rw [h.mem.base]; rfl) rfl rfl rfl) (w := .tag 0) (.of_eq (by rfl) (by rfl) _)
        (fun _ heq => by cases heq) rfl rfl rfl
  · rename_i hp
    simp only [Option.map_eq_some_iff, Prod.mk.injEq] at hs
    obtain ⟨⟨b, x₁, i₁, p₁⟩, hb, rfl, rfl, rfl, rfl⟩ := hs
    obtain ⟨μ', hμ', hshell, hobj, hcleared, hbrk⟩ :=
      h.mem.deleteStep (fun d y hd => hσ.bounds.tags d y hd) hx
        (fun e he ho => hp e he ho) hb
    exact ⟨μ', hμ', key (h.mem.keep (o := .call 0) (.of_eq (by rfl) (by rfl) _)
      (fun _ heq => by cases heq) hshell hobj hcleared hbrk) (w := .tag 0)
      (.of_eq (by rfl) (by rfl) _) (fun _ heq => by cases heq) rfl hobj hbrk⟩

end DeleteStep

end TagAos.Service.Slab
