import TagAos.Registry.Consistency

/-!
# Orphaned descriptors

A `TAG_CREAT` reserves a descriptor and a key in one section under `common_lock` and gives them
back, when an allocation fails, in another.  In between they are its own (`Thread.owns`).  A
deletion that cannot get the lock puts the tag back; a creation that cannot get it returns
`-EINTR` with the descriptor and the key still reserved, and nobody owns them any more
(`orphaned`).

* `Step.keeps_or_returns` — an owner stays the owner, or publishes a tag, or gives the descriptor
  back, unless it is a creation whose rollback is interrupted.
* `nothing_lost` — without such an interruption whatever is reserved has an owner.
-/

set_option autoImplicit false

namespace TagAos.Registry

open Conc

/-- The call has begun and has not returned. -/
def Thread.inFlight : Thread → Bool
  | get _ .start | get _ (.done _) | delete _ _ .start | delete _ _ (.done _) => false
  | _ => true

theorem Thread.inFlight_of_owns {t : Thread} {d : ℕ} {key : ℤ} (h : t.owns = some (d, key)) :
    t.inFlight = true := by
  cases t with
  | get a p => cases p <;> first | rfl | cases h
  | delete tag u p => cases p <;> first | rfl | cases h

/-- Whatever is reserved belongs to a live tag or to a call in flight. -/
structure NothingLost (s : State) : Prop where
  bit : ∀ d, s.mem.bitmask.bit d = true → (∃ e, s.mem.tags d = some e) ∨
    ∃ c key, (s.thread c).inFlight = true ∧ (s.thread c).owns = some (d, key)
  entry : ∀ k d, s.mem.table.lookup k = some d → (∃ e, s.mem.tags d = some e ∧ e.key = k) ∨
    ∃ c, (s.thread c).inFlight = true ∧ (s.thread c).owns = some (d, k)

/-! ## Interruptions

The one acquisition whose interruption loses something is that of `common_lock` by a creation that
is on its way to give its descriptor back. -/

/-- An acquisition is interrupted only while it has to wait: that of a writer while anybody holds
`common_lock`, and that of a reader at any time, for a writer may be queued. -/
def InterruptsWaiters (s : State) (c : CallId) (o : Outcome) : Prop :=
  o = .signal → (∀ a, s.thread c ≠ .get a .lockOpen) → s.mem.downWrite c .common = none

/-- The acquisition that a `TAG_CREAT` needs in order to give its descriptor back is not
interrupted. -/
def RollsBack (s : State) (c : CallId) (o : Outcome) : Prop :=
  o = .signal → ∀ a d, s.thread c ≠ .get a (.lockClear d)

/-! ## What becomes of an owner

A call that owns a descriptor goes on owning it until it has published a tag, put one back, or given
the descriptor back; or it is a creation that is interrupted and returns. -/

section Step

variable {s s' : State} {c : CallId} {m m' : Mem} {o : Outcome}

theorem get_keeps_or_returns {a : GetArgs} {p p' : GetState} {d : ℕ} (hi : Inv s)
    (hc : s.thread c = .get a p) (hp : p.owns = some d)
    (hg : o = .signal → ∀ x, p ≠ .lockClear x) (h : getStep c s.mem a p o = some (m', p')) :
    p'.owns = some d ∨ (∃ e, m'.tags d = some e) ∨ m'.bitmask.bit d = false := by
  cases p
  case unlockCreate r =>
    cases r with
    | error e => cases hp
    | ok x =>
      cases o <;> simp only [getStep, reduceCtorEq, Option.some.injEq, Prod.mk.injEq] at h
      obtain ⟨-, rfl⟩ := h
      exact .inl hp
  case addLevel x i =>
    cases o <;> simp only [getStep, reduceCtorEq, Option.some.injEq, Prod.mk.injEq] at h <;>
      obtain ⟨-, rfl⟩ := h
    · refine .inl ?_
      split_ifs <;> exact hp
    · exact .inl hp
  case publish x =>
    cases o <;> simp only [getStep, reduceCtorEq, Option.some.injEq, Prod.mk.injEq] at h
    obtain ⟨rfl, -⟩ := h
    cases hp
    exact .inr (.inl ⟨_, Function.update_self ..⟩)
  case lockClear x =>
    cases o <;> simp only [getStep, reduceCtorEq, Option.some.injEq, Prod.mk.injEq,
      Option.map_eq_some_iff] at h
    · obtain ⟨m₁, -, -, rfl⟩ := h
      exact .inl hp
    · exact absurd rfl (hg rfl x)
  case clearCommon x =>
    cases o <;> simp only [getStep, reduceCtorEq, Option.some.injEq, Prod.mk.injEq] at h
    obtain ⟨rfl, -⟩ := h
    cases hp
    obtain ⟨-, hbit, hnames⟩ := hi.owned c d a.key (by rw [hc]; rfl)
    have hgives := Mem.clearCommon_spec (by rw [hi.nBits]; exact hi.used d hbit) hbit hnames
    exact .inr (.inr (by simp [hgives.bits]))
  case allocLevels x | allocEntry x =>
    cases o <;> simp only [getStep, reduceCtorEq, Option.some.injEq, Prod.mk.injEq] at h <;>
      obtain ⟨-, rfl⟩ := h <;> exact .inl hp
  all_goals cases hp

theorem delete_keeps_or_returns {tag : ℤ} {u : ℕ} {p p' : DeleteState} {e : Entry} (hi : Inv s)
    (hc : s.thread c = .delete tag u p) (hp : p.owns = some e)
    (h : deleteStep c s.mem tag u p o = some (m', p')) :
    p'.owns = some e ∨ (∃ e, m'.tags tag.toNat = some e) ∨
      m'.bitmask.bit tag.toNat = false := by
  cases p
  case clearCommon x =>
    cases o <;> simp only [deleteStep, reduceCtorEq, Option.some.injEq, Prod.mk.injEq] at h
    obtain ⟨rfl, -⟩ := h
    obtain ⟨-, hbit, hnames⟩ := hi.owned c tag.toNat x.key (by rw [hc]; rfl)
    have hgives := Mem.clearCommon_spec (by rw [hi.nBits]; exact hi.used _ hbit) hbit hnames
    refine .inr (.inr ?_)
    rw [hi.entry c tag u _ x hc rfl, hgives.bits]
    simp
  case restore x rc =>
    cases o <;> simp only [deleteStep, reduceCtorEq, Option.some.injEq, Prod.mk.injEq] at h
    obtain ⟨rfl, -⟩ := h
    exact .inr (.inl ⟨_, Function.update_self ..⟩)
  case lockClear x =>
    cases o <;> simp only [deleteStep, reduceCtorEq, Option.some.injEq, Prod.mk.injEq,
      Option.map_eq_some_iff] at h
    · obtain ⟨m₁, -, -, rfl⟩ := h; exact .inl hp
    · obtain ⟨-, rfl⟩ := h; exact .inl hp
  case unlockTag x | testWaiting x =>
    cases o <;> simp only [deleteStep, reduceCtorEq, Option.some.injEq, Prod.mk.injEq] at h <;>
      obtain ⟨-, rfl⟩ := h <;> exact .inl hp
  all_goals cases hp

/-- **What becomes of an owner** that moves: it stays the owner, or a tag is live under the
descriptor, or the descriptor is not in use any more. -/
theorem Step.keeps_or_returns {d : ℕ} {key : ℤ} (hi : Inv s)
    (hs : MovesWithin RollsBack step s c s') (hown : (s.thread c).owns = some (d, key)) :
    (s'.thread c).owns = some (d, key) ∨ (∃ e, s'.mem.tags d = some e) ∨
      s'.mem.bitmask.bit d = false := by
  obtain ⟨o, hg, ho⟩ := hs
  cases hc : s.thread c with
  | get a p =>
    simp only [step, hc, Option.map_eq_some_iff] at ho
    obtain ⟨⟨m, p'⟩, hx, rfl⟩ := ho
    simp only [hc, Thread.owns, Option.map_eq_some_iff, Prod.mk.injEq] at hown
    obtain ⟨x, hp, rfl, rfl⟩ := hown
    have hno : o = .signal → ∀ y, p ≠ .lockClear y := by
      intro h y hy
      exact hg h a y (hy ▸ hc)
    simpa [Thread.owns] using get_keeps_or_returns hi hc hp hno hx
  | delete tag u p =>
    simp only [step, hc, Option.map_eq_some_iff] at ho
    obtain ⟨⟨m, p'⟩, hx, rfl⟩ := ho
    simp only [hc, Thread.owns, Option.map_eq_some_iff, Prod.mk.injEq] at hown
    obtain ⟨e, hp, rfl, rfl⟩ := hown
    rcases delete_keeps_or_returns hi hc hp hx with h | h
    · exact .inl (by simp [Thread.owns, h])
    · exact .inr h

/-! ## Nothing is lost

So the descriptors in use that nobody owns are those of live tags, unless somebody was interrupted
on the way. -/

/-- Every descriptor in use is live or has an owner. -/
def Owned (s : State) : Prop :=
  ∀ d, s.mem.bitmask.bit d = true → (∃ e, s.mem.tags d = some e) ∨
    ∃ c key, (s.thread c).owns = some (d, key)

/-- A descriptor in use was in use before, live unless its deletion has just taken it out, or has
just been reserved. -/
theorem Effect.used {d : ℕ} (he : Effect s.mem s'.mem (s.thread c) (s'.thread c))
    (hd : s'.mem.bitmask.bit d = true) :
    (∃ key, (s'.thread c).owns = some (d, key)) ∨ s.mem.bitmask.bit d = true ∧
      ((∃ e, s.mem.tags d = some e) → ∃ e, s'.mem.tags d = some e) := by
  cases he with
  | quiet same tags => exact .inr ⟨same.bits d ▸ hd, by rw [tags]; exact id⟩
  | reserved x key mem owns =>
    by_cases hdx : d = x
    · subst hdx; exact .inl ⟨key, owns⟩
    · exact .inr ⟨by simpa [mem.bits, hdx] using hd, by rw [mem.tags]; exact id⟩
  | cleared x key lock owns mem =>
    rw [mem.bits, Bool.and_eq_true] at hd
    exact .inr ⟨hd.2, by rw [mem.tags]; exact id⟩
  | linked x e owns tagKey same tags =>
    refine .inr ⟨same.bits d ▸ hd, fun h => ?_⟩
    by_cases hdx : d = x
    · subst hdx; exact ⟨e, by simp [tags]⟩
    · simpa [tags, hdx] using h
  | taken x e lock seen same tags owns =>
    by_cases hdx : d = x
    · subst hdx; exact .inl ⟨_, owns⟩
    · exact .inr ⟨same.bits d ▸ hd, by simp [tags, hdx]⟩

theorem Owned.step (hi : Inv s) (hs : MovesWithin RollsBack step s c s') (h : Owned s) :
    Owned s' := by
  have hmoves : Step s c s' := hs.moves
  intro d hd
  rcases (hmoves.effect hi).used hd with ⟨key, hown⟩ | ⟨hbit, hlive⟩
  · exact .inr ⟨c, key, hown⟩
  · rcases h d hbit with htag | ⟨f, key, hown⟩
    · exact .inl (hlive htag)
    · by_cases hfc : f = c
      · subst hfc
        rcases Step.keeps_or_returns hi hs hown with hown' | htag | hclear
        · exact .inr ⟨f, key, hown'⟩
        · exact .inl htag
        · rw [hd] at hclear; cases hclear
      · exact .inr ⟨f, key, by rw [hmoves.thread_of_ne hfc]; exact hown⟩

end Step

theorem Owned.nothingLost {s : State} (hi : Inv s) (h : Owned s) : NothingLost s := by
  constructor
  · intro d hd
    rcases h d hd with htag | ⟨c, key, hown⟩
    · exact .inl htag
    · exact .inr ⟨c, key, Thread.inFlight_of_owns hown, hown⟩
  · intro k d hk
    rcases h d (hi.named k d hk) with ⟨e, he⟩ | ⟨c, key, hown⟩
    · exact .inl ⟨e, he, (((hi.live d e he).2.2 k).1 hk).1.symm⟩
    · obtain rfl : k = key := (((hi.owned c d key hown).2.2 k).1 hk).1
      exact .inr ⟨c, Thread.inFlight_of_owns hown, hown⟩

/-- **Nothing is lost** in every run in which no `TAG_CREAT` is interrupted while it waits to give
its descriptor back: every set bit and every entry of the table belongs to a live tag or to a call
in flight. -/
theorem nothing_lost {s₀ s : State} (h0 : Init s₀) (h : Run (MovesWithin RollsBack step) s₀ s) :
    NothingLost s := by
  refine Owned.nothingLost (inv_of_run h0 (run_of_within h)) ?_
  refine h.invariant_run ?_ fun u c v hu hi _ hs =>
    hi.step (inv_of_run h0 (run_of_within hu)) hs
  intro d hd
  rw [h0.mem, Mem.initial, Bitmask.bit_initializeBitmask] at hd
  cases hd

/-! ## A rollback that gives up

A creation that could not get its memory waits for `common_lock`, and a signal comes. -/

/-- Creations, each with a key of its own. -/
def creations : CallId → Thread := fun c => .get ⟨c + 1, tagCreat, tagPermAll, 0⟩ .start

theorem creations_init : Init ⟨Mem.initial, creations⟩ := ⟨rfl, fun _ => rfl⟩

/-- Call 0 runs out of memory after it has reserved descriptor 0, and finds call 1 in the section
under `common_lock`. -/
def beforeRollback : List (CallId × Outcome) :=
  List.replicate 4 (0, .go) ++ [(0, .nomem)] ++ List.replicate 2 (1, .go)

/-- A test for `InterruptsWaiters`. -/
def interruptsWaiters (s : State) (c : CallId) (o : Outcome) : Bool :=
  o != .signal || (s.mem.downWrite c .common).isNone

theorem interruptsWaiters_sound (s : State) (c : CallId) (o : Outcome)
    (h : interruptsWaiters s c o = true) : InterruptsWaiters s c o := by
  intro ho _
  subst ho
  simpa [interruptsWaiters] using h

/-- Call 0 is killed while it waits for the lock; call 1 goes on and creates its tag. -/
def killed : State :=
  after step ⟨Mem.initial, creations⟩
    (beforeRollback ++ [(0, .signal)] ++ List.replicate 37 (1, .go))

theorem killed_done (c : CallId) : (killed.thread c).inFlight = false := by
  by_cases hc : c < 2
  · have hboth : ∀ c, c < 2 → (killed.thread c).inFlight = false := by decide +kernel
    exact hboth c hc
  · have hmoved : ∀ x ∈ beforeRollback ++ [(0, .signal)] ++ List.replicate 37 (1, .go),
        x.1 < 2 := by decide +kernel
    have hstart : killed.thread c = creations c :=
      after_keeps (P := fun t => t.thread c = creations c) (fun x hx s t hs ht =>
        (Step.thread_of_ne (c := x.1) ⟨x.2, ht⟩
          (ne_of_gt (lt_of_lt_of_le (hmoved x hx) (not_lt.1 hc)))).trans hs) rfl
    rw [hstart]; rfl

theorem orphaned : ¬ ∀ s₀ s, Init s₀ → Run (MovesWithin InterruptsWaiters step) s₀ s →
    NothingLost s := by
  intro h
  have hlost := h _ killed creations_init
    (within_after interruptsWaiters_sound (by decide +kernel))
  rcases hlost.bit 0 (by decide +kernel) with ⟨e, he⟩ | ⟨c, key, hc, -⟩
  · have hnone : killed.mem.tags 0 = none := by decide +kernel
    rw [hnone] at he; cases he
  · rw [killed_done] at hc; cases hc

/-- The same run, but that the rollback gets the lock once call 1 has left. -/
def rolledBack : State :=
  after step ⟨Mem.initial, creations⟩
    (beforeRollback ++ List.replicate 37 (1, .go) ++ List.replicate 3 (0, .go))

/-- A test for `RollsBack`. -/
def rollsBack (s : State) (c : CallId) (o : Outcome) : Bool :=
  o != .signal || match s.thread c with
    | .get _ (.lockClear _) => false
    | _ => true

theorem rollsBack_sound (s : State) (c : CallId) (o : Outcome) (h : rollsBack s c o = true) :
    RollsBack s c o := by
  intro ho a d hc
  subst ho
  simp [rollsBack, hc] at h

theorem nothing_lost_rolledBack :
    rolledBack.thread 0 = .get ⟨1, tagCreat, tagPermAll, 0⟩ (.done (-ENOMEM)) ∧
      rolledBack.mem.bitmask.bit 0 = false ∧ NothingLost rolledBack :=
  ⟨by decide +kernel, by decide +kernel,
    nothing_lost creations_init (within_after rollsBack_sound (by decide +kernel))⟩

end TagAos.Registry
