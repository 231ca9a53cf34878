import TagAos.Service.Lifetime

/-!
# The waiting counters are exact

`tag_entry->waiting` of every tag is the number of receives that are between its increment and its
decrement, whatever way they leave (`Counted`); a receive is counted in `waiting` of an instance
only during that time, and in one instance only.  So a tag whose counter is zero has no instance
that anybody waits on.

A deletion looks at the counter after it has taken the tag out of `tags` under the write lock.  No
receive can then be using the tag, so the counter is zero there, and no receive is in flight on a
tag that is freed.
-/

set_option autoImplicit false

namespace TagAos.Service

open Conc
open Registry (DeleteState)

/-! ## Who is counted

A receive is counted in its tag from the increment of `tag_entry->waiting` to its decrement, and in
its instance for a part of that time.  The points in between are read off the code once. -/

/-- The points of `tag_receive` between the increment and the decrement of
`tag_entry->waiting`. -/
def counts : ReceiveState → Bool
  | .start | .loadTag | .checkPerm | .lockLevel | .loadLevel | .enter _ | .clear _ _
  | .release _ _ | .unlockTag _ | .done _ => false
  | _ => true

/-- The call is a receive on the tag `y`, between its increment and its decrement. -/
def Counted {M : Type} (s : Config CallId M Thread) (y : TagAddr) (c : CallId) : Prop :=
  ∃ tag a p, s.thread c = .user tag (some y) (.receive a p) ∧ counts p = true

theorem counted_ann (i : ℕ) (p : ReceiveState) : (p.ann i).counted = counts p := by
  cases p <;> rfl

/-- Only receives are counted. -/
theorem counted_iff {t : TagAos.Thread} :
    t.ann.counted = true ↔ ∃ a p, t = .receive a p ∧ counts p = true := by
  cases t with
  | receive a p =>
    rw [TagAos.Thread.ann, counted_ann]
    constructor
    · exact fun h => ⟨a, p, rfl, h⟩
    · rintro ⟨_, _, heq, h⟩
      cases heq
      exact h
  | send b p =>
    constructor
    · intro h
      cases p <;> cases h
    · rintro ⟨_, _, heq, _⟩
      cases heq
  | awake e p =>
    constructor
    · intro h
      cases p <;> cases h
    · rintro ⟨_, _, heq, _⟩
      cases heq

/-- Who is counted in an instance is counted in the tag. -/
theorem counted_of_reg {t : TagAos.Thread} {l : Addr} (h : t.ann.reg = some l) :
    t.ann.counted = true := by
  cases t with
  | receive a p => cases p <;> first | rfl | cases h
  | send b p => cases p <;> cases h
  | awake e p => cases p <;> cases h

/-- Who is counted holds `tag_lock`. -/
theorem holdsTag_of_counted {t : TagAos.Thread} (h : t.ann.counted = true) :
    t.ann.holdsTag = true := by
  obtain ⟨a, p, rfl, hp⟩ := counted_iff.1 h
  cases p
  case leave rel r => cases rel <;> rfl
  case unlockLevelError rel r => cases rel <;> rfl
  all_goals first | rfl | cases hp

/-- A receive in flight that has loaded its tag holds `tag_lock`. -/
theorem holdsTag_of_inFlight {a : ReceiveArgs} {p : ReceiveState}
    (h : (TagAos.Thread.receive a p).inFlight = true) :
    (TagAos.Thread.receive a p).ann.holdsTag = true := by
  cases p
  case leave rel r | clear rel r | release rel r => cases rel <;> rfl
  case unlockLevelError rel r => cases rel <;> rfl
  all_goals first | rfl | cases h

section

variable {s s' : State} {c : CallId} {y : TagAddr}

theorem annsOn_counted : (s.annsOn y c).counted = true ↔ Counted s y c := by
  rw [State.annsOn, onTag]
  cases hc : s.thread c with
  | user tag x t =>
    split
    · rename_i hx
      obtain rfl : x = some y := hx
      refine Iff.trans counted_iff ⟨?_, ?_⟩
      · rintro ⟨a, p, rfl, hp⟩
        exact ⟨tag, a, p, hc, hp⟩
      · rintro ⟨tag', a, p, hc', hp⟩
        rw [hc] at hc'
        cases hc'
        exact ⟨a, p, rfl, hp⟩
    · rename_i hx
      refine iff_of_false Bool.false_ne_true ?_
      rintro ⟨tag', a, p, hc', -⟩
      rw [hc] at hc'
      cases hc'
      exact hx rfl
  | read a x p =>
    have hnot : ¬ Counted s y c := by
      rintro ⟨_, _, _, hc', -⟩
      rw [hc] at hc'
      cases hc'
    refine iff_of_false ?_ hnot
    split
    · cases p <;> exact Bool.false_ne_true
    · exact Bool.false_ne_true
  | get | delete =>
    have hnot : ¬ Counted s y c := by
      rintro ⟨_, _, _, hc', -⟩
      rw [hc] at hc'
      cases hc'
    refine iff_of_false ?_ hnot
    split <;> exact Bool.false_ne_true

theorem annsOn_counted_of_reg {l : Addr} (h : (s.annsOn y c).reg = some l) :
    (s.annsOn y c).counted = true := by
  rw [State.annsOn, onTag] at h ⊢
  split at h
  · rename_i hx
    rw [if_pos hx]
    cases hc : s.thread c with
    | user tag x t => rw [hc] at h; exact counted_of_reg h
    | read a x p => rw [hc] at h; cases p <;> cases h
    | get | delete => rw [hc] at h; cases h
  · cases h

/-! ## The counters

The counters of one tag are known from `TagAos.Tag.Ownership`.  What the service adds is the
deletion, which looks at the counter when the tag is out of `tags`. -/

/-- The counter of a tag counts the receives on it. -/
theorem Reachable.waiting (h : Reachable s) (hy : y < s.mem.brk) :
    Census (Counted s y) (s.mem.obj y).tagWaiting :=
  (h.tag hy).counted.congr fun _ => annsOn_counted

/-- The counters of its instances count some of them, and none twice. -/
theorem Reachable.sum_waiting_le (h : Reachable s) (hy : y < s.mem.brk) (A : Finset Addr) :
    ∑ l ∈ A, (s.mem.obj y).waiting l ≤ (s.mem.obj y).tagWaiting := by
  have hinv := h.tag hy
  refine hinv.counted.sum_le hinv.reg (fun l c hl => annsOn_counted_of_reg hl) ?_
  intro l l' c hl hl'
  exact Option.some.inj (hl.symm.trans hl')

/-- A tag that nobody is counted in has no instance that anybody is counted in. -/
theorem Reachable.waiting_zero (h : Reachable s) (hy : y < s.mem.brk)
    (hzero : (s.mem.obj y).tagWaiting = 0) (l : Addr) : (s.mem.obj y).waiting l = 0 := by
  have hinv := h.tag hy
  by_contra hne
  obtain ⟨c, hc⟩ := (hinv.reg l).exists_of_pos
    (lt_of_le_of_ne (hinv.reg l).nonneg (Ne.symm hne))
  have hcounted := hinv.counted
  rw [hzero] at hcounted
  exact hcounted.not_of_zero c (annsOn_counted_of_reg hc)

/-- A receive that is counted uses its tag. -/
theorem uses_of_counted (h : Counted s y c) : ∃ d, (s.thread c).uses = some (d, y) := by
  obtain ⟨tag, a, p, hc, hp⟩ := h
  refine ⟨tag.toNat, ?_⟩
  have hheld := holdsTag_of_counted (counted_iff.2 ⟨a, p, rfl, hp⟩)
  rw [hc]
  exact if_pos hheld

/-- Nobody is counted in a tag that is not linked. -/
theorem Reachable.waiting_unlinked (h : Reachable s) (hy : y < s.mem.brk)
    (hun : ∀ d, s.mem.tags d ≠ some y) : (s.mem.obj y).tagWaiting = 0 := by
  have hcensus := h.waiting hy
  by_contra hne
  obtain ⟨c, hc⟩ := hcensus.exists_of_pos (lt_of_le_of_ne hcensus.nonneg (Ne.symm hne))
  obtain ⟨d, hd⟩ := uses_of_counted hc
  exact hun d (h.lifetimes.uses c d y hd)

/-- A deletion finds nobody counted. -/
theorem Reachable.testWaiting (h : Reachable s) {tag : ℤ} {u i : ℕ} {e : Registry.Entry}
    (hc : s.thread c = .delete tag u (some y) i (.testWaiting e)) :
    (s.mem.obj y).tagWaiting = 0 :=
  h.waiting_unlinked (h.bounds.entry c y (by rw [hc]; rfl))
    (h.lifetimes.holds c y (by rw [hc]; rfl))

theorem deleteStep_restore {m m' : Registry.Mem} {tag rc : ℤ} {u : ℕ} {p : DeleteState}
    {o : Registry.Outcome} {e : Registry.Entry} (hp : onAddr p = false)
    (h : Registry.deleteStep c m tag u p o = some (m', .restore e rc)) : rc = -EINTR := by
  cases p
  case start | checkPerm =>
    cases o <;> simp only [Registry.deleteStep, reduceCtorEq, Option.some.injEq,
      Prod.mk.injEq] at h
    obtain ⟨-, h⟩ := h
    split_ifs at h
  case tryLock =>
    cases o <;> simp only [Registry.deleteStep, reduceCtorEq] at h
    · split at h <;> cases h
    · cases h
  case lockClear e₀ =>
    cases o <;> simp only [Registry.deleteStep, reduceCtorEq, Option.some.injEq, Prod.mk.injEq,
      Option.map_eq_some_iff, and_false, exists_false] at h
    obtain ⟨-, h⟩ := h
    cases h
    rfl
  case loadTag | clearTag | testWaiting | restore | freeTag => cases hp
  all_goals cases o <;> cases h

/-- A deletion does not come to put its tag back because of a receive. -/
theorem Reachable.not_pending (h : Reachable s) {tag : ℤ} {u i : ℕ} {x : Option TagAddr}
    {e : Registry.Entry} : s.thread c ≠ .delete tag u x i (.restore e (-EPROTO)) := by
  refine h.induction (P := fun s => ∀ c tag u x i e,
    s.thread c ≠ .delete tag u x i (.restore e (-EPROTO))) (fun s h0 c tag u x i e hc => ?_)
    (fun s f t hr hp hs c tag u x i e hc => ?_) c tag u x i e
  · have hidle := h0.idle c
    rw [hc] at hidle
    cases hidle
  · by_cases hcf : c = f
    · subst hcf
      cases ht : s.thread c with
      | delete tag₀ u₀ x₀ i₀ p =>
        obtain ⟨m, x', i', p', hx, rfl⟩ := hs.delete ht
        rw [Config.set_thread_self] at hc
        cases hc
        cases hx with
        | waiting hy hne => subst hy; exact hne (hr.testWaiting ht)
        | registry hon ho hreg =>
          have hcode := deleteStep_restore hon hreg
          exact absurd hcode (by decide)
      | get a x₀ p =>
        obtain ⟨m, x', p', -, rfl⟩ := hs.get ht
        rw [Config.set_thread_self] at hc; cases hc
      | user tag₀ x₀ t =>
        obtain ⟨m, x', t', -, rfl⟩ := hs.user ht
        rw [Config.set_thread_self] at hc; cases hc
      | read a x₀ p =>
        rcases hs.read ht with ⟨o, q, -, rfl⟩ | ⟨m, x', q, -, rfl⟩ <;>
        · rw [Config.set_thread_self] at hc; cases hc
    · rw [hs.thread_of_ne hcf] at hc
      exact hp c tag u x i e hc

/-- No receive is in flight on a tag that is being freed. -/
theorem Reachable.not_inFlight (h : Reachable s) (hb : (s.thread c).buries = some y) {f : CallId}
    {tag : ℤ} {a : ReceiveArgs} {p : ReceiveState}
    (hf : s.thread f = .user tag (some y) (.receive a p)) :
    (TagAos.Thread.receive a p).inFlight = false := by
  rw [Bool.eq_false_iff]
  intro hin
  have huses : (s.thread f).uses = some (tag.toNat, y) := by
    rw [hf]
    exact if_pos (holdsTag_of_inFlight hin)
  exact (h.lifetimes.buries c y hb).tags _ (h.lifetimes.uses f _ y huses)

end

end TagAos.Service
