import TagAos.Service.Beside
import TagAos.Service.Waiting
import TagAos.Tag.Linked

/-!
# The waiting counters with the real allocator

`TagAos.Service.Waiting` counts the receives in a system whose instances have addresses of their
own.  Here an instance may be in a block that was one before, of its own tag or of another
(`TagAos.Service.Slab`), and a last receiver that still refers to what was there decrements
`waiting` of what is there now: the level test of `tag_send` finds -1 where the tag counts nobody.

* `Slab.WaitingExact` — what the counters of a state have to say.
* `Slab.miscounted` — the run in which they do not.
* `Slab.waiting_exact` — they do as long as no instance is freed to which another call refers: the
  names of the instances carry the sums from one system to the other (`Related.sum_waiting_le`).
-/

set_option autoImplicit false

namespace TagAos.Service.Slab

open Conc

/-! ## Exact counters

The statement of `TagAos.Service.Waiting`, of a state whose instances are blocks of a heap. -/

/-- The waiting counters of the tags and of their instances. -/
structure WaitingExact (s : State) : Prop where
  /-- `tag_entry->waiting` is the number of receives between their increment and their
  decrement. -/
  counted : ∀ y < s.mem.base.brk, Census (Counted s y) (s.mem.base.obj y).tagWaiting
  /-- It is at least the sum of `waiting` over the instances of the tag. -/
  sum : ∀ y < s.mem.base.brk, ∀ L : Finset Addr,
    (∀ b ∈ L, s.mem.heap.Live b ∧ s.mem.owner b = .tag y) →
      ∑ b ∈ L, s.mem.heap.waiting b ≤ (s.mem.base.obj y).tagWaiting
  /-- If it is zero, no instance of the tag counts anybody. -/
  zero : ∀ y < s.mem.base.brk, (s.mem.base.obj y).tagWaiting = 0 →
    ∀ l, s.mem.heap.Live l → s.mem.owner l = .tag y → s.mem.heap.waiting l = 0
  /-- A `tag_send` that finds it zero would not have found a receiver at any level. -/
  send : ∀ c tag y b, s.thread c = .user tag (some y) (.send b .testTagWaiting) →
    (s.mem.base.obj y).tagWaiting = 0 →
      ∀ i l, (s.mem.base.obj y).tagLevel i = some l → s.mem.heap.waiting l = 0
  /-- A deletion never finds it positive. -/
  delete : ∀ c tag u x i e, s.thread c ≠ .delete tag u x i (.restore e (-EPROTO))
  /-- No receive is in flight on a tag that is freed. -/
  bury : ∀ c y, (s.thread c).buries = some y → ∀ f tag a p,
    s.thread f = .user tag (some y) (.receive a p) →
      (TagAos.Thread.receive a p).inFlight = false

/-! ## Renamed calls

A call is counted at a point of its code, whatever its instances are called.  So the sums over the
calls are the same in both systems. -/

theorem counts_rename (ρ : Addr → Addr) (p : ReceiveState) : counts (p.rename ρ) = counts p := by
  cases p <;> rfl

theorem rename_eq_receive {ρ : TagAddr → Addr → Addr} {t : Thread} {tag : ℤ} {x : Option TagAddr}
    {a : ReceiveArgs} {p : ReceiveState} (h : t.rename ρ = .user tag x (.receive a p)) :
    ∃ q, t = .user tag x (.receive a q) ∧ p = q.rename (ρ (x.getD 0)) := by
  cases t with
  | user tag' x' t =>
    cases t with
    | receive a' q => cases h; exact ⟨q, rfl, rfl⟩
    | send | awake => cases h
  | get | delete | read => cases h

theorem rename_eq_send {ρ : TagAddr → Addr → Addr} {t : Thread} {tag : ℤ} {x : Option TagAddr}
    {b : SendArgs} {p : SendState} (h : t.rename ρ = .user tag x (.send b p)) :
    ∃ q, t = .user tag x (.send b q) ∧ p = q.rename (ρ (x.getD 0)) := by
  cases t with
  | user tag' x' t =>
    cases t with
    | send b' q => cases h; exact ⟨q, rfl, rfl⟩
    | receive | awake => cases h
  | get | delete | read => cases h

theorem rename_eq_delete {ρ : TagAddr → Addr → Addr} {t : Thread} {tag : ℤ} {u i : ℕ}
    {x : Option TagAddr} {p : Registry.DeleteState} (h : t.rename ρ = .delete tag u x i p) :
    t = .delete tag u x i p := by
  cases t with
  | delete => exact h
  | get | user | read => cases h

theorem buries_rename (ρ : TagAddr → Addr → Addr) (t : Thread) :
    (t.rename ρ).buries = t.buries := by
  cases t <;> rfl

section Related

variable {ρ : TagAddr → Addr → Addr} {s : State} {σ : Service.State} {y : TagAddr}

theorem Related.counted (h : Related ρ s σ) (c : CallId) : Counted s y c ↔ Counted σ y c := by
  rw [Counted, Counted, h.thread_eq c]
  constructor
  · rintro ⟨tag, a, p, hc, hp⟩
    obtain ⟨q, hq, rfl⟩ := rename_eq_receive hc
    exact ⟨tag, a, q, hq, (counts_rename _ q).symm.trans hp⟩
  · rintro ⟨tag, a, p, hc, hp⟩
    rw [hc]
    exact ⟨tag, a, _, rfl, (counts_rename _ p).trans hp⟩

theorem Related.tagWaiting (h : Related ρ s σ) (hy : y < σ.mem.brk) :
    (s.mem.base.obj y).tagWaiting = (σ.mem.obj y).tagWaiting :=
  (h.mem.tag y hy).named.tagWaiting

/-- The counters of some instances of a tag are counters of as many instances of the other
system. -/
theorem Related.sum_waiting_le (h : Related ρ s σ) (hσ : Reachable σ) (hy : y < σ.mem.brk)
    (L : Finset Addr) (hL : ∀ b ∈ L, s.mem.heap.Live b ∧ s.mem.owner b = .tag y) :
    ∑ b ∈ L, s.mem.heap.waiting b ≤ (s.mem.base.obj y).tagWaiting := by
  classical
  have htag := h.mem.tag y hy
  choose! name hname using fun b (hb : b ∈ L) => htag.covers b (hL b hb).1 (hL b hb).2
  have hinj : Set.InjOn name L := fun b hb b' hb' heq => by
    rw [← (hname b hb).2, ← (hname b' hb').2, heq]
  have hwaiting : ∀ b ∈ L, s.mem.heap.waiting b = (σ.mem.obj y).waiting (name b) := fun b hb => by
    have heq := htag.named.waiting (hname b hb).1
    rw [(hname b hb).2] at heq
    exact heq
  calc ∑ b ∈ L, s.mem.heap.waiting b = ∑ b ∈ L, (σ.mem.obj y).waiting (name b) :=
        Finset.sum_congr rfl hwaiting
    _ = ∑ a ∈ L.image name, (σ.mem.obj y).waiting a := (Finset.sum_image hinj).symm
    _ ≤ (σ.mem.obj y).tagWaiting := hσ.sum_waiting_le hy _
    _ = (s.mem.base.obj y).tagWaiting := (h.tagWaiting hy).symm

/-- A tag that counts nobody has no instance that counts anybody. -/
theorem Related.waiting_zero (h : Related ρ s σ) (hσ : Reachable σ) (hy : y < σ.mem.brk)
    (hzero : (s.mem.base.obj y).tagWaiting = 0) {l : Addr} (hl : s.mem.heap.Live l)
    (howner : s.mem.owner l = .tag y) : s.mem.heap.waiting l = 0 := by
  have htag := h.mem.tag y hy
  obtain ⟨a, ha, rfl⟩ := htag.covers l hl howner
  have heq : s.mem.heap.waiting (ρ y a) = (σ.mem.obj y).waiting a := htag.named.waiting ha
  rw [heq]
  exact hσ.waiting_zero hy ((h.tagWaiting hy).symm.trans hzero) a

/-- What a level of a tag points to, if nothing of the tag has been freed with it. -/
theorem Related.live_of_linked (h : Related ρ s σ) (hσ : Reachable σ) (hy : y < σ.mem.brk)
    (hcleared : ∀ a, σ.mem.cleared y a = 0) {i : ℕ} {l : Addr}
    (hl : (s.mem.base.obj y).tagLevel i = some l) :
    s.mem.heap.Live l ∧ s.mem.owner l = .tag y := by
  have htag := h.mem.tag y hy
  have heq : (s.mem.base.obj y).tagLevel i = ((σ.mem.obj y).tagLevel i).map (ρ y) :=
    htag.named.tagLevel i
  rw [heq, Option.map_eq_some_iff] at hl
  obtain ⟨a, ha, rfl⟩ := hl
  have huse : InUse σ.mem y a := ⟨hσ.live_of_linked hy ⟨i, ha⟩, not_not.2 (hcleared a)⟩
  exact ⟨htag.named.live a huse, htag.owner a huse⟩

theorem Related.waitingExact (h : Related ρ s σ) (hσ : Reachable σ) : WaitingExact s where
  counted y hy := by
    have hy' : y < σ.mem.brk := h.mem.brk ▸ hy
    rw [h.tagWaiting hy']
    exact (hσ.waiting hy').congr fun c => (h.counted c).symm
  sum y hy L hL := h.sum_waiting_le hσ (h.mem.brk ▸ hy) L hL
  zero y hy hzero l hl howner := h.waiting_zero hσ (h.mem.brk ▸ hy) hzero hl howner
  send c tag y b hc hzero i l hl := by
    obtain ⟨q, hq, hp⟩ := rename_eq_send ((h.thread_eq c).symm.trans hc)
    have hy : y < σ.mem.brk := hσ.bounds.entry c y (by rw [hq]; rfl)
    -- the send uses the tag, so nothing of it has been freed
    have hu : (σ.thread c).uses = some (tag.toNat, y) := by
      rw [hq]
      cases q <;> first | rfl | cases hp
    obtain ⟨hlive, howner⟩ := h.live_of_linked hσ hy (hσ.not_freed_of_uses hu).2 hl
    exact h.waiting_zero hσ hy hzero hlive howner
  delete c tag u x i e hc :=
    hσ.not_pending (rename_eq_delete ((h.thread_eq c).symm.trans hc))
  bury c y hb f tag a p hf := by
    rw [h.thread_eq c, buries_rename] at hb
    obtain ⟨q, hq, rfl⟩ := rename_eq_receive ((h.thread_eq f).symm.trans hf)
    exact (TagAos.Thread.inFlight_rename _ (.receive a q)).trans (hσ.not_inFlight hb hq)

end Related

/-! ## A counter below zero

Two last receivers of one instance; the second one comes back when the block is another instance,
and decrements its counter. -/

/-- The two last receivers of `TagAos.Slab.uncounted`, and then a send. -/
def miscounted : State :=
  after (creation ++ TagAos.Slab.uncounted ++ TagAos.Slab.givenBlock 0 (goes 6 3))

theorem not_waiting_exact : ¬ ∀ s₀ s : State, Slab.Init s₀ → Run Slab.Step s₀ s →
    WaitingExact s := by
  intro h
  have hexact := h _ miscounted init_users (Conc.run_after _ _)
  have hl : (miscounted.mem.base.obj 0).tagLevel 0 = some 0 := by decide +kernel
  have hsend : miscounted.thread 6 =
      .user 0 (some 0) (.send ⟨0, some [7, 8, 9], 3, 0⟩ .testTagWaiting) := by decide +kernel
  have hzero : (miscounted.mem.base.obj 0).tagWaiting = 0 := by decide +kernel
  have hneg : miscounted.mem.heap.waiting 0 = -1 := by decide +kernel
  have := hexact.send 6 0 0 _ hsend hzero 0 0 hl
  rw [hneg] at this
  cases this

/-- **The waiting counters are exact** in every state of a run in which no instance is freed to
which another call refers. -/
theorem waiting_exact {s₀ s : State} (h0 : Slab.Init s₀)
    (h : RunUnder Slab.Step FreesUnused s₀ s) : WaitingExact s := by
  obtain ⟨σ, hσ⟩ := exists_beside h0 h
  obtain ⟨ρ, hrel⟩ := hσ.2
  exact hrel.waitingExact (hσ.reachable h0)

/-- Two receivers sleep, one of them in a block that was an instance before. -/
theorem waiting_exact_reused :
    ((after reused).mem.base.obj 0).tagWaiting = 2 ∧ (after reused).mem.heap.waiting 0 = 1 ∧
      WaitingExact (after reused) :=
  ⟨by decide +kernel, by decide +kernel, waiting_exact init_users reused_run⟩

end TagAos.Service.Slab
