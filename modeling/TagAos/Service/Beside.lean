import TagAos.Service.CreateDelete
import TagAos.Tag.Integrity

/-!
# The service refines to the one whose instances have addresses of their own

One step of a call on a tag in both systems, and with it every run.  An instruction on the tag `y`
finds the same values under the names of the instances (`TagAos.Named.step`), changes only blocks of
`y`, and is handed a block that nobody uses; this is so because what a call refers to is in use
(`RefsLive`), which holds as long as no instance is freed to which another call refers.

* `Slab.MemNamed.execOn` — one instruction of a call.
* `Slab.Related.step` — one step of the service.
* `Slab.exists_beside` — a run.
* `Slab.tags_refine` — and so each tag by itself is one of `TagAos.Tag.System`.
-/

set_option autoImplicit false

namespace TagAos.Service.Slab

open Conc

section ExecOn

variable {π : Type} {ρ : TagAddr → Addr → Addr} {m m' : Mem} {μ : Service.Mem} {c : CallId}
  {o : Outcome} {w : Addr} {d : ℕ} {x x' : Option TagAddr} {y : TagAddr} {i j : Instr π} {p q : π}
  {b : Service.Mem}

/-- What a call does outside of its tag it also does with the other allocator. -/
theorem MemNamed.execOn_outside (h : MemNamed ρ m μ) (hi : inTag i = false)
    (hs : Service.execOn c m.base d x i o = some (b, x', p)) :
    ∃ μ', Service.execOn c μ d x i o = some (μ', x', p) ∧
      b = { μ' with obj := m.base.obj, cleared := m.base.cleared } ∧
      μ'.obj = μ.obj ∧ μ'.cleared = μ.cleared ∧ μ'.brk = μ.brk := by
  have hlock : m.base.lock = μ.lock := by rw [h.base]
  unfold Service.execOn at hs ⊢
  split at hs
  case h_1 =>
    cases hs
    exact ⟨μ, rfl, h.base, rfl, rfl, rfl⟩
  case h_2 ok intr =>
    rw [hlock] at hs
    simp only [Option.map_eq_some_iff, Prod.mk.injEq] at hs
    obtain ⟨l, hl, rfl, rfl, rfl⟩ := hs
    exact ⟨μ.setLock (.tag d) l, by simp [hl], by rw [h.base]; rfl, rfl, rfl, rfl⟩
  case h_3 =>
    cases hs
    exact ⟨μ, rfl, h.base, rfl, rfl, rfl⟩
  case h_4 =>
    cases hs
    exact ⟨_, rfl, by rw [h.base]; rfl, rfl, rfl, rfl⟩
  case h_5 =>
    rw [h.tags] at hs
    cases ht : μ.tags d with
    | none =>
      rw [ht] at hs
      cases hs
      exact ⟨μ, rfl, h.base, rfl, rfl, rfl⟩
    | some y =>
      rw [ht] at hs
      cases hs
      exact ⟨μ, rfl, h.base, rfl, rfl, rfl⟩
  case h_6 => rw [hi] at hs; cases hs

/-- A renamed instruction is inside of the tag if the instruction is. -/
theorem Matches.inTag {r : Addr → Addr} {f : π → π} (h : Instr.Matches r f i j) :
    Service.inTag j = Service.inTag i := by
  cases h with
  | same hi =>
    rw [inTag_map]
    cases i <;> first | rfl | (rename_i l _; cases l <;> rfl) | (rename_i l _ _; cases l <;> rfl)
  | loadLevel | createLevel => rfl

/-- An instruction outside of the tag names no instance. -/
theorem Matches.outside {r : Addr → Addr} {f : π → π} (h : Instr.Matches r f i j)
    (hi : Service.inTag i = false) : j = i.map f := by
  cases h with
  | same hf =>
    congr 1
    cases i <;> first
      | rfl | cases hi
      | (rename_i l _; cases l <;> first | rfl | cases hi)
      | (rename_i l _ _; cases l <;> first | rfl | cases hi)
  | loadLevel | createLevel => cases hi

theorem withHeap_self (t : TagAos.Mem) : t.withHeap t = t := by
  have hsem : (t.withHeap t).sem = t.sem := by
    funext l
    cases l <;> rfl
  obtain ⟨⟩ := t
  simp only [TagAos.Mem.withHeap, TagAos.Mem.mk.injEq, true_and, and_true] at hsem ⊢
  exact hsem

/-- A block that is live after an instruction was live before, unless the instruction has created
it. -/
theorem live_of_exec {m m' : TagAos.Mem} {a : Addr} (h : exec c m i o = some (m', p))
    (ha : m'.Live a) : m.Live a ∨ i.creates o = true ∧ a = m.brk := by
  by_cases hi : ∃ k e failed ok, i = .createLevel k e failed ok
  · obtain ⟨k, e, failed, ok, rfl⟩ := hi
    cases o <;> simp only [exec, reduceCtorEq, Option.some.injEq, Prod.mk.injEq] at h
    · obtain ⟨rfl, -⟩ := h
      rcases Nat.lt_succ_iff_lt_or_eq.1 ha.1 with hlt | rfl
      · exact .inl ⟨hlt, ha.2⟩
      · exact .inr ⟨rfl, rfl⟩
    · obtain ⟨rfl, -⟩ := h
      exact .inl ha
  · rw [← execAt_eq (x := 0) fun k e failed ok hk => hi ⟨k, e, failed, ok, hk⟩] at h
    refine (live_of_execAt h ha).imp_right fun hcreates => ?_
    cases i <;> cases o <;> first | exact absurd ⟨_, _, _, _, rfl⟩ hi | cases hcreates.1

end ExecOn

section InTag

variable {π : Type} {ρ : TagAddr → Addr → Addr} {m m' : Mem} {μ : Service.Mem} {c : CallId}
  {o : Outcome} {w : Addr} {d : ℕ} {x x' : Option TagAddr} {y : TagAddr} {i j : Instr π} {p q : π}
  {f : (Addr → Addr) → π → π} {t : TagAos.Mem}

/-- The memory after an instruction of a call on the tag `y`. -/
def Mem.after (m : Mem) (y : TagAddr) (t : TagAos.Mem) (creates : Bool) (w : Addr) : Mem :=
  if creates then (m.setView y t).give w (.tag y) else m.setView y t

section After

variable {k : Bool}

theorem after_heap : (m.after y t k w).heap = t := by
  cases k <;> rfl

theorem after_base : (m.after y t k w).base = m.base.setObj y t := by
  cases k <;> rfl

theorem after_created : (m.after y t k w).created = m.created := by
  cases k <;> rfl

/-- An instruction does not change whose block is whose, but for the one it has been handed. -/
theorem after_owner {b : Addr} (hb : ¬ (k = true ∧ b = w)) :
    (m.after y t k w).owner b = m.owner b := by
  cases k
  · rfl
  · exact Function.update_of_ne (fun h => hb ⟨rfl, h⟩) ..

/-- The block that an instruction has been handed belongs to its tag. -/
theorem after_owner_self (hk : k = true) : (m.after y t k w).owner w = .tag y := by
  subst hk
  exact Function.update_self ..

end After

/-- A block that is handed out is not in use. -/
theorem not_live_of_creates {μ : TagAos.Mem} (hx : execAt c μ j o w = some (t, q))
    (hcreates : j.creates o = true) : ¬ μ.Live w := by
  cases j <;> cases o <;> cases hcreates
  simp only [execAt] at hx
  split at hx
  · rename_i hav
    exact hav.not_live
  · cases hx

/-- An instruction of a call on the tag `y` changes only the blocks of `y`. -/
theorem exec_keeps (hx : execAt c (m.view y) j o w = some (t, q))
    (hown : ∀ b ∈ j.touches, m.owner b = .tag y) :
    Keeps m (m.after y t (j.creates o) w) (.tag y) := by
  have hnot : ∀ b, m.owner b ≠ .tag y → b ∉ j.touches := fun b hb hbj => hb (hown b hbj)
  have hold : ∀ b, m.heap.Live b → ¬ (j.creates o = true ∧ b = w) := by
    rintro b hb ⟨hcreates, rfl⟩
    exact not_live_of_creates hx hcreates hb
  refine ⟨fun b hb hbo => ?_, fun b hb hbo => ?_, fun b hb _ => after_owner (hold b hb),
    fun b hb hbo => ?_⟩
  · rw [after_heap]
    exact (execAt_block_of_not_touched hx (hnot b hbo) hb).2
  · rw [after_heap]
    exact (execAt_block_of_not_touched hx (hnot b hbo) hb).1
  · rw [after_heap] at hb
    have hnew : ¬ (j.creates o = true ∧ b = w) := by
      rintro ⟨hcreates, rfl⟩
      exact hbo (after_owner_self hcreates)
    exact ⟨(live_of_execAt hx hb).resolve_right hnew, (after_owner hnew).symm⟩

/-- **An instruction of a call on the tag `y`.** -/
theorem TagNamed.exec {r : Addr → Addr} (h : TagNamed r m μ y)
    (htable : ∀ k a, (μ.obj y).tagLevel k = some a → a < (μ.obj y).brk)
    (hm : ∀ r', (∀ a < (μ.obj y).brk, r' a = r a) → Instr.Matches r' (f r') i j)
    (huse : ∀ a ∈ i.touches, InUse μ y a) (hfreed : (μ.obj y).freed (μ.obj y).brk = 0)
    (hcleared : i.creates o = true → μ.cleared y (μ.obj y).brk = 0)
    (hx : execAt c (m.view y) j o w = some (t, q)) :
    ∃ n p, exec c (μ.obj y) i o = some (n, p) ∧
      TagNamed (Function.update r (μ.obj y).brk w) (m.after y t (j.creates o) w) (μ.setObj y n) y ∧
      (∀ b ∈ j.touches, m.owner b = .tag y) ∧
      ∀ r', (∀ a < n.brk, r' a = Function.update r (μ.obj y).brk w a) → q = f r' p := by
  have hmatch := hm r fun _ _ => rfl
  have hcreates : j.creates o = i.creates o := by
    cases hmatch with
    | same hi => cases i <;> cases o <;> rfl
    | loadLevel => rfl
    | createLevel => cases o <;> rfl
  obtain ⟨n, p, hp, hnamed, hq⟩ := h.named.step htable hm huse hx
  have hobj : (μ.setObj y n).obj y = n := Function.update_self ..
  have hview : (m.after y t (j.creates o) w).view y = t := by
    simp only [Mem.view, after_base, after_heap, Service.Mem.setObj, Function.update_self]
    exact withHeap_self t
  refine ⟨n, p, hp, ⟨?_, fun a ha => ?_, fun b hb hby => ?_⟩, fun b hb => ?_, hq⟩
  · rw [hview, hobj]
    exact hnamed
  · rw [InUse, hobj] at ha
    by_cases hnew : i.creates o = true ∧ a = (μ.obj y).brk
    · obtain ⟨hi, rfl⟩ := hnew
      rw [Function.update_self]
      exact after_owner_self (hcreates.trans hi)
    · have hlive := (live_of_exec hp ha.1).resolve_right hnew
      rw [Function.update_of_ne (ne_of_lt hlive.1)]
      refine (after_owner ?_).trans (h.owner a ⟨hlive, ha.2⟩)
      rintro ⟨hj, rfl⟩
      exact not_live_of_creates hx hj (h.named.live a ⟨hlive, ha.2⟩)
  · rw [after_heap] at hb
    have hb' : m.owner b = .tag y ∨ i.creates o = true ∧ b = w := by
      by_cases hnew : j.creates o = true ∧ b = w
      · exact .inr (hcreates ▸ hnew)
      · exact .inl ((after_owner hnew).symm.trans hby)
    have hcovers : ∀ b, (m.view y).Live b → m.owner b = .tag y → ∃ a, InUse μ y a ∧ r a = b :=
      h.covers
    obtain ⟨a, ha, rfl⟩ := TagAos.Named.covers hmatch hfreed
      (fun hi => not_not.2 (hcleared hi)) hcovers hp hx hb hb'
    exact ⟨a, by rw [InUse, hobj]; exact ha, rfl⟩
  · rw [hmatch.touches, List.mem_map] at hb
    obtain ⟨a, ha, rfl⟩ := hb
    exact h.owner a (huse a ha)

end InTag

section ExecBoth

variable {π : Type} {ρ : TagAddr → Addr → Addr} {m m' : Mem} {μ : Service.Mem} {c : CallId}
  {o : Outcome} {w : Addr} {d : ℕ} {x x' : Option TagAddr} {y : TagAddr} {i j : Instr π} {q : π}
  {f : (Addr → Addr) → π → π}

/-- The other tags, and the memory as a whole, after an instruction of a call on the tag `y`. -/
theorem MemNamed.after {n t : TagAos.Mem} {r : Addr → Addr} {k : Bool} (h : MemNamed ρ m μ)
    (hy : y < μ.brk) (hk : Keeps m (m.after y t k w) (.tag y))
    (htag : TagNamed r (m.after y t k w) (μ.setObj y n) y) :
    MemNamed (Function.update ρ y r) (m.after y t k w) (μ.setObj y n) where
  base := by
    rw [after_base]
    simp only [Service.Mem.setObj]
    rw [h.base]
  tag z hz := by
    by_cases hzy : z = y
    · subst hzy
      rw [Function.update_self]
      exact htag
    · rw [Function.update_of_ne hzy]
      refine (h.tag z hz).keep hk (fun heq => hzy (by cases heq; rfl)) ?_ ?_ rfl
      · rw [after_base]
        exact Function.update_of_ne hzy ..
      · exact Function.update_of_ne hzy ..
  unborn b z hb hbz := by
    by_cases hzy : z = y
    · subst hzy
      exact hy
    · obtain ⟨hold, heq⟩ := hk.old b hb (by rw [hbz]; intro heq; cases heq; exact hzy rfl)
      exact h.unborn b z hold (heq.trans hbz)

/-- **One instruction of a call in both systems.** -/
theorem MemNamed.execOn (h : MemNamed ρ m μ)
    (htable : ∀ y < μ.brk, ∀ k a, (μ.obj y).tagLevel k = some a → a < (μ.obj y).brk)
    (hfreed : ∀ y < μ.brk, (μ.obj y).freed (μ.obj y).brk = 0)
    (hxb : ∀ y, x = some y → y < μ.brk)
    (hm : ∀ ρ', Extends μ ρ ρ' → Instr.Matches (ρ' (x.getD 0)) (f (ρ' (x.getD 0))) i j)
    (huse : ∀ y, x = some y → ∀ a ∈ i.touches, InUse μ y a)
    (hcleared : ∀ y, x = some y → i.creates o = true → μ.cleared y (μ.obj y).brk = 0)
    (hplain : ∀ μ' x' p, Service.execOn c μ d x i o = some (μ', x', p) →
      x' = x ∨ ∀ g g', f g p = f g' p)
    (hs : Slab.execOn c m d x j o w = some (m', x', q)) :
    ∃ ρ' μ' p, Service.execOn c μ d x i o = some (μ', x', p) ∧ MemNamed ρ' m' μ' ∧
      (∀ ρ'', Extends μ' ρ' ρ'' → Extends μ ρ ρ'' ∧ q = f (ρ'' (x'.getD 0)) p) ∧
      ∀ e n, Created m e n → Created m' e n := by
  have htag := Matches.inTag (hm ρ (.refl μ ρ))
  unfold Slab.execOn at hs
  cases hi : inTag i with
  | true =>
    rw [if_pos (htag.trans hi)] at hs
    simp only [Option.bind_eq_some_iff, Option.map_eq_some_iff, Prod.mk.injEq] at hs
    obtain ⟨y, rfl, ⟨t, q₁⟩, hx, rfl, rfl, rfl⟩ := hs
    have hy := hxb y rfl
    have hm' : ∀ r, (∀ a < (μ.obj y).brk, r a = ρ y a) → Instr.Matches r (f r) i j := by
      intro r hr
      have := hm (Function.update ρ y r) fun z hz a ha => by
        by_cases hzy : z = y
        · subst hzy
          rw [Function.update_self]
          exact hr a ha
        · rw [Function.update_of_ne hzy]
      rwa [Option.getD_some, Function.update_self] at this
    obtain ⟨n, p, hp, hnamed, hown, hq⟩ := (h.tag y hy).exec (htable y hy) hm' (huse y rfl)
      (hfreed y hy) (hcleared y rfl) hx
    have hk := exec_keeps hx hown
    have hbrk : (μ.obj y).brk ≤ n.brk := (Exec.of_exec hp).brk_le
    have hobj : (μ.setObj y n).obj y = n := Function.update_self ..
    refine ⟨_, μ.setObj y n, p, ?_, h.after hy hk hnamed, fun ρ'' hext => ⟨fun z hz a ha => ?_, ?_⟩,
      fun e k hn => hn.keep hk (fun heq => by cases heq) (congrFun after_created e)⟩
    · rw [execOn_of_inTag hi, Option.bind_some, hp]
      rfl
    · by_cases hzy : z = y
      · subst hzy
        rw [hext z hz a (by rw [hobj]; exact lt_of_lt_of_le ha hbrk), Function.update_self,
          Function.update_of_ne (ne_of_lt ha)]
      · rw [hext z hz a (by simpa [Service.Mem.setObj, hzy] using ha), Function.update_of_ne hzy]
    · refine hq _ fun a ha => ?_
      rw [Option.getD_some, hext y hy a (by rw [hobj]; exact ha), Function.update_self]
  | false =>
    rw [if_neg (by rw [htag, hi]; exact Bool.false_ne_true)] at hs
    simp only [Option.map_eq_some_iff, Prod.mk.injEq] at hs
    obtain ⟨⟨b, x₁, q₁⟩, hb, rfl, rfl, rfl⟩ := hs
    -- the same for every way to name the instances that do not exist yet
    have key : ∀ ρ'', Extends μ ρ ρ'' →
        ∃ p, Service.execOn c m.base d x i o = some (b, x', p) ∧ q = f (ρ'' (x.getD 0)) p := by
      intro ρ'' hext
      rw [Matches.outside (hm ρ'' hext) hi, execOn_map, Option.map_eq_some_iff] at hb
      obtain ⟨⟨b', x₂, p⟩, hp, heq⟩ := hb
      cases heq
      exact ⟨p, hp, rfl⟩
    obtain ⟨p, hp, -⟩ := key ρ (.refl μ ρ)
    obtain ⟨μ', hμ', hshell, hobj, hcl, hbrk⟩ := h.execOn_outside hi hp
    have hk : ∀ o, Keeps m { m with base := b } o := fun o => .of_eq (by rfl) (by rfl) o
    refine ⟨ρ, μ', p, hμ', h.keep (hk (.call 0)) (fun _ heq => by cases heq) hshell hobj hcl hbrk,
      fun ρ'' hext => ?_, fun e n hn => hn.keep (hk (.tag 0)) (fun heq => by cases heq) rfl⟩
    have hext' : Extends μ ρ ρ'' := fun z hz a ha =>
      hext z (hbrk ▸ hz) a (by rw [hobj]; exact ha)
    obtain ⟨p', hp', rfl⟩ := key ρ'' hext'
    rw [hp] at hp'
    cases hp'
    refine ⟨hext', ?_⟩
    rcases hplain μ' x' p hμ' with rfl | hplain
    · rfl
    · exact hplain _ _

end ExecBoth

section User

variable {π : Type} {ρ : TagAddr → Addr → Addr} {m' : Mem} {s : State} {σ : Service.State}
  {c : CallId} {o : Outcome} {w : Addr} {d : ℕ} {x x' : Option TagAddr} {i j : Instr π} {q : π}
  {f : (Addr → Addr) → π → π} {g : Option TagAddr → π → Thread}

/-- What a call refers to is in use. -/
theorem inUse_of_refs {y : TagAddr} {a : Addr} (hlive : RefsLive σ)
    (hx : (σ.thread c).entry = some y) (ha : a ∈ (σ.thread c).refs) : InUse σ.mem y a := by
  obtain ⟨hl, hcleared⟩ := hlive c y a ⟨hx, ha⟩
  exact ⟨hl, not_not.2 hcleared⟩

/-- A call that works on a tag makes a step in both systems. -/
theorem Related.exec_step (h : Related ρ s σ) (hσ : Reachable σ)
    (hx : ∀ y, x = some y → y < σ.mem.brk)
    (hg : ∀ r x p, (g x p).rename r = g x (f (r (x.getD 0)) p))
    (hcreates : ∀ x p, (g x p).creates = none)
    (hm : ∀ ρ', Extends σ.mem ρ ρ' → Instr.Matches (ρ' (x.getD 0)) (f (ρ' (x.getD 0))) i j)
    (huse : ∀ y, x = some y → ∀ a ∈ i.touches, InUse σ.mem y a)
    (hcleared : ∀ y, x = some y → i.creates o = true →
      σ.mem.cleared y (σ.mem.obj y).brk = 0)
    (hplain : ∀ μ' x' p, Service.execOn c σ.mem d x i o = some (μ', x', p) →
      x' = x ∨ ∀ r r', f r p = f r' p)
    (hs : Slab.execOn c s.mem d x j o w = some (m', x', q)) :
    ∃ ρ' μ' p, Service.execOn c σ.mem d x i o = some (μ', x', p) ∧
      Related ρ' (s.set c m' (g x' q)) (σ.set c μ' (g x' p)) := by
  obtain ⟨ρ', μ', p, hp, hmem, hext, hcreated⟩ := h.mem.execOn
    (fun y hy k a ha => ((hσ.tag hy).table k a ha).1) (fun y hy => hσ.freed_brk hy) hx hm huse
    hcleared hplain hs
  refine ⟨ρ', μ', p, hp,
    h.set hmem (fun ρ'' he => (hext ρ'' he).1) (fun e _ n hn => hcreated e n hn) (fun n hn => ?_)
      (fun a x₀ d₀ k heq => ?_) fun ρ'' he => ?_⟩
  · rw [hcreates] at hn
    cases hn
  · have hnone := hcreates x' p
    rw [heq] at hnone
    cases hnone
  · rw [hg, (hext ρ'' he).2]

end User

section UserStep

variable {ρ : TagAddr → Addr → Addr} {m' : Mem} {s : State} {σ : Service.State}
  {c : CallId} {o : Outcome} {w : Addr} {x x' : Option TagAddr} {tag : ℤ} {t q : TagAos.Thread}

/-- A call that has not loaded its tag refers to no instance, so the names do not matter to it. -/
theorem rename_of_loading (r : Addr → Addr) (h : t.loading = true) : t.rename r = t := by
  cases t with
  | receive a p => cases p <;> first | rfl | cases h
  | send b p => cases p <;> first | rfl | cases h
  | awake e p => cases p <;> first | rfl | cases h

/-- A call that has just loaded its tag refers to no instance. -/
theorem rename_of_loadTags {null found : TagAos.Thread} (r : Addr → Addr)
    (h : t.code = .loadTags null found) : null.rename r = null ∧ found.rename r = found := by
  have hm := Thread.matches_code r t
  rw [rename_of_loading r (Thread.loading_of_loadTags h)] at hm
  have heq := Matches.outside hm (by rw [h]; rfl)
  rw [h] at heq
  injection heq with hnull hfound
  exact ⟨hnull.symm, hfound.symm⟩

/-- A step of a call either keeps the tag that it has loaded, or leads to a point that names no
instance. -/
theorem user_plain {m μ' : Service.Mem} {p : TagAos.Thread}
    (h : Service.execOn c m tag.toNat x (userCode tag t) o = some (μ', x', p)) :
    x' = x ∨ ∀ g g' : Addr → Addr, p.rename g = p.rename g' := by
  have hE := ExecOn.of_execOn h
  rw [userCode] at hE
  split at hE
  · cases hE with
    | jump => exact .inl rfl
    | tag hi => cases hi
  · generalize hcode : t.code = i at hE
    cases hE with
    | lockTag =>
      have hload := (Thread.idle_of_downRead hcode).2.1
      exact .inr fun g g' => (rename_of_loading g hload).trans (rename_of_loading g' hload).symm
    | loadTags =>
      exact .inr fun g g' =>
        (rename_of_loadTags g hcode).2.trans (rename_of_loadTags g' hcode).2.symm
    | loadTagsNull =>
      exact .inr fun g g' =>
        (rename_of_loadTags g hcode).1.trans (rename_of_loadTags g' hcode).1.symm
    | jump | lockTagIntr | unlockTag | tag => exact .inl rfl

/-- A `tag_receive`, a `tag_send` or a `TAG_AWAKE_ALL` makes a step in both systems. -/
theorem Related.user_step (h : Related ρ s σ) (hσ : Reachable σ) (hlive : RefsLive σ)
    (hc : σ.thread c = .user tag x t)
    (hs : Slab.execOn c s.mem tag.toNat x (userCode tag (t.rename (ρ (x.getD 0)))) o w =
      some (m', x', q)) :
    ∃ ρ' μ' p, Service.execOn c σ.mem tag.toNat x (userCode tag t) o = some (μ', x', p) ∧
      Related ρ' (s.set c m' (.user tag x' q)) (σ.set c μ' (.user tag x' p)) := by
  refine h.exec_step (g := .user tag) (f := TagAos.Thread.rename) hσ
    (fun y hy => hσ.bounds.entry c y (by rw [hc]; exact hy)) (fun _ _ _ => rfl) (fun _ _ => rfl)
    (fun ρ' hext => ?_) (fun y hy a ha => ?_) (fun y hy hcr => ?_) (fun _ _ _ => user_plain) hs
  · have heq : t.rename (ρ (x.getD 0)) = t.rename (ρ' (x.getD 0)) := by
      have := (h.thread_eq c).symm.trans (h.thread ρ' hext c)
      rw [hc] at this
      injection this
    rw [heq]
    exact user_matches _ tag t
  · refine inUse_of_refs hlive (c := c) (by rw [hc]; exact hy) ?_
    rw [hc]
    rw [userCode] at ha
    split at ha
    · cases ha
    · exact TagAos.Thread.refs_of_touches ha
  · rw [userCode] at hcr
    split at hcr
    · cases hcr
    · have hi : inTag t.code = true := by
        cases hcode : t.code <;> rw [hcode] at hcr <;> first | rfl | cases hcr
      have hheld : t.ann.holdsTag = true := by
        by_contra hnot
        obtain ⟨b, l, rfl⟩ := faultUnlockMutex_of_inTag hi (Bool.eq_false_iff.2 hnot)
        cases hcr
      obtain ⟨k, hu⟩ := uses_of_holdsTag (t := σ.thread c) (y := y) (by rw [hc]; exact hy)
        (by rw [hc]; exact hheld)
      exact (hσ.not_freed_of_uses hu).2 _

end UserStep

section ReadStep

variable {ρ : TagAddr → Addr → Addr} {m' : Mem} {s : State} {σ : Service.State}
  {c : CallId} {o : Outcome} {w : Addr} {x x' : Option TagAddr} {a : ReadArgs} {p q : ReadState}
  {e : Registry.Entry} {y : TagAddr}

/-- What a `dev_read` touches it still refers to. -/
theorem read_touches {l : Addr} (hl : l ∈ (readCode a e p).touches) : l ∈ p.refs := by
  cases p <;> first | exact hl | cases hl

/-- The same for a `dev_read`. -/
theorem read_plain {m μ' : Service.Mem} {d : ℕ}
    (h : Service.execOn c m d x (readCode a e p) o = some (μ', x', q)) :
    x' = x ∨ ∀ g g' : Addr → Addr, q.rename g = q.rename g' := by
  have hE := ExecOn.of_execOn h
  cases p
  case lockTag v =>
    cases hE
    · exact .inr fun _ _ => rfl
    · exact .inl rfl
    · contradiction
  case loadTag v =>
    cases hE
    · refine .inr fun _ _ => ?_
      split <;> rfl
    · exact .inr fun _ _ => rfl
    · contradiction
  all_goals cases hE <;> exact .inl rfl

/-- A `dev_read` reads the fields of a tag that it has loaded. -/
theorem MemNamed.readCode {m : Mem} {μ : Service.Mem} (h : MemNamed ρ m μ)
    (hx : ∀ y, x = some y → y < μ.brk) (hload : (Thread.read a x p).working = true → x ≠ none) :
    readCode a (m.base.entryOf x) p = readCode a (μ.entryOf x) p := by
  cases p
  case loadEntry v =>
    obtain ⟨y, rfl⟩ := Option.ne_none_iff_exists'.1 (hload rfl)
    rw [Service.Mem.entryOf, Service.Mem.entryOf, Option.getD_some, h.entry (hx y rfl)]
  all_goals rfl

/-- A `dev_read` makes a step in both systems. -/
theorem Related.read_step (h : Related ρ s σ) (hσ : Reachable σ) (hlive : RefsLive σ)
    (hc : σ.thread c = .read a x p)
    (hs : Slab.readStep c s.mem a x (p.rename (ρ (x.getD 0))) o w = some (m', x', q)) :
    ∃ ρ' μ' r, Service.readStep c σ.mem a x p o = some (μ', x', r) ∧
      Related ρ' (s.set c m' (.read a x' q)) (σ.set c μ' (.read a x' r)) := by
  have hx : ∀ y, x = some y → y < σ.mem.brk := fun y hy =>
    hσ.bounds.entry c y (by rw [hc]; exact hy)
  rw [Slab.readStep, readFails_rename] at hs
  rw [Service.readStep]
  cases hf : readFails a p o with
  | some r =>
    rw [hf] at hs
    cases hs
    refine ⟨ρ, σ.mem, r, rfl, h.set h.mem (fun _ he => he) (fun _ _ _ hn => hn)
      (fun n hn => by cases hn) (fun _ _ _ _ heq => by cases heq) fun ρ'' he => ?_⟩
    have hthread := (h.thread_eq c).symm.trans (h.thread ρ'' he c)
    rw [hc] at hthread
    injection hthread with _ _ hp
    have hr := congrArg (fun p => readFails a p o) hp
    simp only [readFails_rename, hf, Option.map_some, Option.some.injEq] at hr
    exact congrArg (Thread.read a x) hr
  | none =>
    rw [hf] at hs
    simp only [Option.map_none, ReadState.desc_rename] at hs
    have hcode : Service.readCode a (s.mem.base.entryOf x) (p.rename (ρ (x.getD 0))) =
        Service.readCode a (σ.mem.entryOf x) (p.rename (ρ (x.getD 0))) := by
      refine h.mem.readCode hx fun hw => ?_
      have := hσ.loaded c
      rw [hc] at this
      refine this ?_
      cases p <;> exact hw
    rw [hcode] at hs
    refine h.exec_step (g := .read a) (f := ReadState.rename) hσ hx (fun _ _ _ => rfl)
      (fun _ _ => rfl) (fun ρ' hext => ?_) (fun y hy l hl => ?_) (fun y hy hcr => ?_)
      (fun _ _ _ => read_plain) hs
    · have heq : p.rename (ρ (x.getD 0)) = p.rename (ρ' (x.getD 0)) := by
        have := (h.thread_eq c).symm.trans (h.thread ρ' hext c)
        rw [hc] at this
        injection this
      rw [heq]
      exact read_matches _ a _ p
    · refine inUse_of_refs hlive (c := c) (by rw [hc]; exact hy) ?_
      rw [hc]
      exact read_touches hl
    · cases p <;> cases hcr

end ReadStep

section Step

variable {ρ : TagAddr → Addr → Addr} {s s' s₀ : State} {σ : Service.State} {c : CallId}

/-- **A step of one system beside a step of the other.** -/
theorem Related.step (h : Related ρ s σ) (hσ : Reachable σ) (hacc : Accounts σ)
    (hlive : RefsLive σ) (hs : Slab.Step s c s') :
    ∃ ρ' σ', Service.Step σ c σ' ∧ Related ρ' s' σ' := by
  obtain ⟨⟨o, w⟩, hs⟩ := hs
  rw [Slab.step, h.thread_eq c] at hs
  cases hc : σ.thread c with
  | get a x p =>
    rw [hc] at hs
    obtain ⟨⟨m', x', p'⟩, hx, rfl⟩ := Option.map_eq_some_iff.1 hs
    by_cases hp : ∃ d, p = .allocEntry d ∧ o = .go
    · obtain ⟨d, rfl, rfl⟩ := hp
      cases hx
      exact ⟨_, _, ⟨.go, by rw [Service.step, hc]; rfl⟩, h.newTag_step hσ hc⟩
    · obtain ⟨μ', hμ, hrel⟩ := h.get_step hσ hc (fun d hd ho => hp ⟨d, hd, ho⟩) hx
      exact ⟨ρ, _, ⟨o, by rw [Service.step, hc]; simp only [hμ]; rfl⟩, hrel⟩
  | delete tag u x i p =>
    rw [hc] at hs
    obtain ⟨⟨m', x', i', p'⟩, hx, rfl⟩ := Option.map_eq_some_iff.1 hs
    obtain ⟨μ', hμ, hrel⟩ := h.delete_step hσ hacc hc hx
    exact ⟨ρ, _, ⟨o, by rw [Service.step, hc]; simp only [hμ]; rfl⟩, hrel⟩
  | user tag x t =>
    rw [hc] at hs
    obtain ⟨⟨m', x', q⟩, hx, rfl⟩ := Option.map_eq_some_iff.1 hs
    obtain ⟨ρ', μ', p, hμ, hrel⟩ := h.user_step hσ hlive hc hx
    exact ⟨ρ', _, ⟨o, by rw [Service.step, hc]; simp only [hμ]; rfl⟩, hrel⟩
  | read a x p =>
    rw [hc] at hs
    obtain ⟨⟨m', x', q⟩, hx, rfl⟩ := Option.map_eq_some_iff.1 hs
    obtain ⟨ρ', μ', p, hμ, hrel⟩ := h.read_step hσ hlive hc hx
    exact ⟨ρ', _, ⟨o, by rw [Service.step, hc]; simp only [hμ]; rfl⟩, hrel⟩

/-- The condition on a step says the same of both systems. -/
theorem Related.freesUnused (h : Related ρ s σ) (hσ : Reachable σ) (hg : FreesUnused s c) :
    Service.FreesUnused σ c := by
  have hrefs : ∀ {d y l}, Refers σ y l d → ρ y l ∈ (s.thread d).refs := by
    rintro d y l ⟨hx, hl⟩
    rw [h.thread_eq d, Thread.refs_rename, hx]
    exact List.mem_map_of_mem hl
  refine ⟨fun tag y a l r hc d hd hl => ?_, fun tag u y i e l hc hi hlev d hd hl => ?_⟩
  · refine hg (ρ y l) ?_ d hd (hrefs hl)
    rw [State.frees, h.thread_eq c, hc]
    rfl
  · refine hg (ρ y l) ?_ d hd (hrefs hl)
    have hy := hσ.bounds.entry c y (by rw [hc]; rfl)
    have hlevel : (s.mem.base.obj y).tagLevel i = some (ρ y l) := by
      have := (h.mem.tag y hy).named.tagLevel i
      rwa [hlev] at this
    rw [State.frees, h.thread_eq c, hc]
    exact (if_pos hi).trans hlevel

/-- The module has just been loaded. -/
theorem init_related (h0 : Slab.Init s₀) :
    Related (fun _ a => a) s₀ ⟨Service.Mem.initial, s₀.thread⟩ where
  mem := by
    rw [h0.mem]
    refine ⟨rfl, fun y hy => absurd hy (Nat.not_lt_zero y), fun b y hb _ => ?_⟩
    exact absurd hb.1 (Nat.not_lt_zero b)
  created c n hn := by
    have hidle := h0.idle c
    cases hc : s₀.thread c with
    | get a x p =>
      rw [hc] at hidle
      simp only [hc] at hn
      cases p <;> first | (cases hidle; done) | cases hn
    | delete | user | read => simp only [hc] at hn; cases hn
  level c a x d i hc := by
    have hidle := h0.idle c
    simp only at hc
    rw [hc] at hidle
    cases hidle
  thread ρ' _ c := by
    have hidle := h0.idle c
    show s₀.thread c = (s₀.thread c).rename ρ'
    cases hc : s₀.thread c with
    | get | delete => rfl
    | user tag x t =>
      rw [hc] at hidle
      cases t with
      | receive a p => cases p <;> first | rfl | cases hidle
      | send b p => cases p <;> first | rfl | cases hidle
      | awake e p => cases p <;> first | rfl | cases hidle
    | read a x p =>
      rw [hc] at hidle
      cases p <;> first | rfl | cases hidle

/-- The module has just been loaded, in the system without a heap. -/
theorem Init.service (h0 : Slab.Init s₀) : Service.Init ⟨Service.Mem.initial, s₀.thread⟩ :=
  ⟨rfl, h0.idle, h0.entry⟩

/-- `σ` is reached in step with `s`. -/
def Beside (s₀ s : State) (σ : Service.State) : Prop :=
  RunUnder Service.Step Service.FreesUnused ⟨Service.Mem.initial, s₀.thread⟩ σ ∧
    ∃ ρ, Related ρ s σ

/-- What is in step with a run is reachable. -/
theorem Beside.reachable (h0 : Slab.Init s₀) (h : Beside s₀ s σ) : Reachable σ :=
  ⟨_, h0.service, h.1.run⟩

/-- **One more step in both systems.** The condition on the step is that nobody else refers to the
instance it frees; it holds in one system if it holds in the other, and it is what keeps `RefsLive`,
on which the step itself rests. -/
theorem Beside.step (h0 : Slab.Init s₀) (h : Beside s₀ s σ) (hg : FreesUnused s c)
    (hs : Slab.Step s c s') :
    ∃ σ', Service.FreesUnused σ c ∧ Service.Step σ c σ' ∧ Beside s₀ s' σ' := by
  have hσ := h.reachable h0
  obtain ⟨hrun, ρ, hrel⟩ := h
  have hg' := hrel.freesUnused hσ hg
  obtain ⟨ρ', σ', hs', hrel'⟩ := hrel.step hσ (accounts_of_run h0.service h0.counted hrun.run)
    (refsLive_of_run h0.service hrun) hs
  exact ⟨σ', hg', hs', hrun.tail hg' hs', ρ', hrel'⟩

/-- What happens next in one system happens in the other. -/
theorem Beside.run (h0 : Slab.Init s₀) (h : Beside s₀ s σ)
    (hrun : RunUnder Slab.Step FreesUnused s s') :
    ∃ σ', RunUnder Service.Step Service.FreesUnused σ σ' ∧ Beside s₀ s' σ' := by
  refine hrun.invariant (P := fun s' => ∃ σ', RunUnder Service.Step Service.FreesUnused σ σ' ∧
    Beside s₀ s' σ') ⟨σ, RunUnder.refl σ, h⟩ fun u c v hu hg hs => ?_
  obtain ⟨υ, hυ, hbeside⟩ := hu
  obtain ⟨σ', hg', hs', hbeside'⟩ := hbeside.step h0 hg hs
  exact ⟨σ', hυ.tail hg' hs', hbeside'⟩

/-- **Every run with the real allocator is one of `TagAos.Service.System`**, up to the blocks the
instances are in, as long as no instance is freed to which another call refers. -/
theorem exists_beside (h0 : Slab.Init s₀) (h : RunUnder Slab.Step FreesUnused s₀ s) :
    ∃ σ, Beside s₀ s σ := by
  obtain ⟨σ, -, hσ⟩ := Beside.run h0 ⟨RunUnder.refl _, _, init_related h0⟩ h
  exact ⟨σ, hσ⟩

end Step

/-! ## Each tag by itself

Two simulations one after the other: from the heap to instances with addresses of their own, and
from there to the system of one tag (`TagAos.Service.OneTag`). -/

/-- `σ` is what the tag `y` and the calls on it make up, up to the blocks its instances are in. -/
def OnTag (s : State) (y : TagAddr) (σ : TagAos.State) : Prop :=
  ∃ ρ τ, Related ρ s τ ∧ Service.OnTag τ y σ

/-- **Every tag of the service is a tag by itself**, also with blocks that are handed out again:
that of another tag, or of one that has been deleted.  As long as no instance is freed to which
another call refers, each tag that has been allocated is, with the calls that have loaded it, a
reachable state of the system of one tag; and whatever the service does next is, seen from there, a
run of that system. -/
theorem tags_refine {s₀ s : State} (h0 : Slab.Init s₀) (h : RunUnder Slab.Step FreesUnused s₀ s)
    {y : TagAddr} (hy : y < s.mem.base.brk) :
    ∃ σ, TagAos.Reachable σ ∧ OnTag s y σ ∧
      ∀ s', RunUnder Slab.Step FreesUnused s s' →
        ∃ σ', Run TagAos.Step σ σ' ∧ OnTag s' y σ' := by
  obtain ⟨τ, hτ⟩ := exists_beside h0 h
  obtain ⟨ρ, hrel⟩ := hτ.2
  obtain ⟨σ, hσ, hon, hnext⟩ := tag_refines (hτ.reachable h0) (hrel.mem.brk ▸ hy)
  refine ⟨σ, hσ, ⟨ρ, τ, hrel, hon⟩, fun s' hrun => ?_⟩
  obtain ⟨τ', hrun', -, ρ', hrel'⟩ := hτ.run h0 hrun
  obtain ⟨σ', hσ', hon'⟩ := hnext τ' hrun'.run
  exact ⟨σ', hσ', ρ', τ', hrel', hon'⟩

/-! ## Running a schedule

A run in which blocks are handed out again while other calls are on the tag, for which the condition
is tested state by state. -/
/-- A call that has not begun refers to no instance. -/
theorem refs_of_idle {t : Thread} (h : t.idle = true) : t.refs = [] := by
  cases t with
  | user tag x t => exact TagAos.Thread.refs_of_idle h
  | read a x p => cases p <;> first | rfl | cases h
  | get | delete => rfl

/-- A test for `FreesUnused` when only the calls below `n` have begun. -/
def freesUnused (n : ℕ) (s : State) (c : CallId) : Bool :=
  match s.frees c with
  | some b => (List.range n).all fun d => d == c || !(s.thread d).refs.contains b
  | none => true

theorem freesUnused_of_test {n : ℕ} (s : State) (c : CallId)
    (hidle : ∀ d, n ≤ d → (s.thread d).idle = true) (h : freesUnused n s c = true) :
    FreesUnused s c := by
  intro b hb d hdc hmem
  by_cases hd : d < n
  · simp only [freesUnused, hb, List.all_eq_true, List.mem_range] at h
    have := h d hd
    simp [hdc, hmem] at this
  · rw [refs_of_idle (hidle d (not_lt.1 hd))] at hmem
    cases hmem

theorem thread_of_step {s t : State} {c d : CallId} {w : Outcome × Addr}
    (h : Slab.step s d w = some t) (hcd : c ≠ d) : t.thread c = s.thread c := by
  unfold Slab.step at h
  split at h <;>
  · obtain ⟨r, -, rfl⟩ := Option.map_eq_some_iff.1 h
    exact Config.set_thread_of_ne _ _ _ _ hcd

/-- A creation (call 7), and the calls of `TagAos.Slab.traffic` on the tag. -/
def users : CallId → Thread
  | 7 => .get ⟨5, Registry.tagCreat, Registry.tagPermAll, 0⟩ none .start
  | c => .user 0 none (TagAos.Slab.traffic c)

theorem users_idle (c : CallId) : (users c).idle = true := by
  unfold users
  split
  · rfl
  · exact TagAos.Slab.traffic_idle c

theorem init_users : Slab.Init ⟨Mem.initial, users⟩ where
  mem := rfl
  idle := users_idle
  entry c := by
    show (users c).entry = none
    unfold users
    split <;> rfl
  counted c := by
    show (users c).Counted
    unfold users
    split <;> trivial

/-- The tag is created: instance `i` is in the block `i`. -/
def creation : List (CallId × Outcome × Addr) :=
  TagAos.Slab.givenBlock 0 (goes 7 5) ++ (List.range levels).map (fun i => (7, .go, i)) ++
    TagAos.Slab.givenBlock 0 (goes 7 2)

/-- The tag is created, and the calls of `TagAos.Slab.recycled` use it, up to the point where
receiver 5 sleeps in the block of the first instance. -/
def reused : List (CallId × Outcome × Addr) := creation ++ TagAos.Slab.recycled.take 117

/-- The state the calls are in after a schedule. -/
def after (l : List (CallId × Outcome × Addr)) : State :=
  Conc.after Slab.step ⟨Mem.initial, users⟩ l

/-- No step of this schedule frees an instance to which another call refers. -/
theorem reused_run : RunUnder Slab.Step FreesUnused ⟨Mem.initial, users⟩ (after reused) := by
  refine runUnder_after (P := fun s : State => ∀ d, 8 ≤ d → (s.thread d).idle = true)
    freesUnused_of_test (fun x hx u t hu ht d hd => ?_)
    (fun d _ => users_idle d) (by decide +kernel)
  have hlt : ∀ x ∈ reused, x.1 < 8 := by decide +kernel
  rw [thread_of_step ht (ne_of_gt (lt_of_lt_of_le (hlt x hx) hd))]
  exact hu d hd

/-- The block 0 has been freed, and is an instance again. -/
theorem tags_refine_reused :
    ((after reused).mem.base.obj 0).tagLevel 0 = some 0 ∧
      ∃ σ, TagAos.Reachable σ ∧ OnTag (after reused) 0 σ ∧
        ∀ s', RunUnder Slab.Step FreesUnused (after reused) s' →
          ∃ σ', Run TagAos.Step σ σ' ∧ OnTag s' 0 σ' :=
  ⟨by decide +kernel, tags_refine init_users reused_run (by decide +kernel)⟩

end TagAos.Service.Slab
