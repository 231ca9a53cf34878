import TagAos.Tag.Ownership

/-!
# Superseded instances

A receiver that finds `ready` set on its level replaces the instance by one of the next epoch.
This file says what becomes of the old one.

* `Gone` — no level points to the instance, and nobody is about to make one point to it.  Once
  gone an instance stays gone.
* `Retired` — it is gone and has no reader left.  Nobody becomes a reader of an instance that is
  not linked, so this is stable as well.
* `Reachable.epoch` — the epoch comparison of a last receiver finds a newer epoch only when its
  instance is gone; an instance is retired before it is freed.
* `tagLevel_of_waitsOn` — a receiver that waits for a message waits on the instance its level
  points to.
-/

set_option autoImplicit false

namespace TagAos

open Conc

/-! ## Gone for good

To replace an instance a receiver writes the pointer of the level under its write lock.  Nobody else
has the pointer in hand then, so the old instance cannot come back: only its present readers know of
it. -/

/-- Instance `x` has been replaced. -/
structure Gone (m : Mem) (A : CallId → Ann) (x : Addr) : Prop where
  /-- It has been allocated. -/
  lt : x < m.brk
  /-- No level points to it. -/
  unlinked : ¬ m.Linked x
  /-- Nobody is about to link it. -/
  fresh : ∀ d, (A d).fresh ≠ some x

/-- Instance `x` has been replaced and its last reader has left it. -/
structure Retired (m : Mem) (A : CallId → Ann) (x : Addr) : Prop extends Gone m A x where
  /-- Nobody holds its `rcu_lock` for reading. -/
  reader : ∀ d, (Sem.rcu x, Mode.read) ∉ (A d).held

section Step

variable {m m' : Mem} {A A' : CallId → Ann} {c d : CallId} {x : Addr} {i : ℕ}
  (h : Inv m A) (wf : ∀ d, (A d).WF)
  (hc : Change c m (A c) (A' c) m') (ho : ∀ d, d ≠ c → A' d = A d)

/-- An instance of level `i` that level `i` does not point to is gone, if its owner has not just
created it. -/
theorem Gone.of_own {new : Addr} (h : Inv m A) (hown : (i, x) ∈ (A c).own)
    (hf : (A c).fresh = none) (hl : m.tagLevel i = some new) (hne : new ≠ x) : Gone m A x where
  lt := (h.own c i x hown).1
  unlinked := by
    rintro ⟨j, hj⟩
    obtain rfl : i = j := (h.own c i x hown).2.1.symm.trans (h.table j x hj).2
    exact hne (Option.some.inj (hl.symm.trans hj))
  fresh d := by
    by_cases hd : d = c
    · subst hd; rw [hf]; simp
    · exact (h.own c i x hown).2.2 d hd

include h hc ho

theorem Gone.step (hx : Gone m A x) : Gone m' A' x := by
  cases hc
  case linked j y lock hy keep =>
    refine ⟨hx.lt, ?_, fun d hd => hx.fresh d (Inv.frame_opt (f := Ann.fresh) ho keep.fresh hd)⟩
    rintro ⟨k, hk⟩
    by_cases hkj : k = j
    · subst hkj
      simp only [Function.update_self, Option.some.injEq] at hk
      subst hk
      rcases hy with ⟨hf, _⟩ | hl
      · exact hx.fresh c hf
      · exact hx.unlinked ⟨k, h.link c k y hl⟩
    · simp only [Function.update_of_ne hkj] at hk
      exact hx.unlinked ⟨k, hk⟩
  case created j e hf keep =>
    refine ⟨Nat.lt_succ_of_lt hx.lt, hx.unlinked, fun d hd => ?_⟩
    by_cases hdc : d = c
    · subst hdc
      rcases keep.fresh with hk | hk
      · rw [hk] at hd; cases hd
      · rw [hk] at hd; cases hd
        exact lt_irrefl _ hx.lt
    · rw [ho d hdc] at hd
      exact hx.fresh d hd
  case' interrupted y hy keep => have keep := keep (h.fresh_ne hy)
  all_goals
    rename_i keep
    exact ⟨hx.lt, hx.unlinked,
      fun d hd => hx.fresh d (Inv.frame_opt (f := Ann.fresh) ho keep.fresh hd)⟩

theorem Retired.step (hx : Retired m A x) : Retired m' A' x := by
  refine ⟨hx.toGone.step h hc ho, fun d hd => ?_⟩
  obtain ⟨rfl, -, -, ⟨-, ⟨i, hl⟩, -⟩ | ⟨hmd, -⟩⟩ := h.new_holder hc ho hd (hx.reader d)
  · exact hx.unlinked ⟨i, h.link d i x hl⟩
  · cases hmd

omit ho in
/-- **What a reader sees stays.**  While somebody holds the `rcu_lock` of an instance whose `ready`
is set, `ready` stays set, and the size and the buffer stay as they are. -/
theorem Inv.frozen (wf : ∀ d, (A d).WF) (hd : (Sem.rcu x, Mode.read) ∈ (A d).held)
    (hr : m.ready x = true) :
    m'.ready x = true ∧ m'.size x = m.size x ∧ m'.buffer x = m.buffer x := by
  cases hc
  case armed y hi hm hrcu keep =>
    by_cases hxy : x = y
    · subst hxy; simp
    · simp [hxy, hr]
  case reset y hrcu keep =>
    have hxy : x ≠ y := by
      rintro rfl
      exact h.no_reader hrcu hd
    simp [hxy, hr]
  case created j e hf keep =>
    have hx : x ≠ m.brk := ne_of_lt (h.held_lt wf hd)
    simp [Mem.createLevel, hx, hr]
  case sized y n hi keep =>
    have hxy : x ≠ y := by
      rintro rfl
      rw [h.idle c x hi] at hr; cases hr
    simp [hxy, hr]
  case written y bs hi keep =>
    have hxy : x ≠ y := by
      rintro rfl
      rw [h.idle c x hi] at hr; cases hr
    simp [hxy, hr]
  all_goals exact ⟨hr, rfl, rfl⟩

end Step

/-! ## Last receivers

The last receiver of an instance compares epochs under the `rcu_lock` of the instance.  What it
finds out is about the pointer of the level, which it does not keep locked; it stays true all the
same, because instances that are gone stay gone. -/

/-- What a last receiver knows about its instance `l`. -/
def ReceiveState.Epoch (m : Mem) (A : CallId → Ann) : ReceiveState → Prop
  | cmpEpoch l new _ => new = l ∨ Gone m A l
  | unlockFree l _ => Gone m A l
  | free l _ => Retired m A l
  | _ => True

/-- What is known about superseded instances. -/
structure EpochInv (s : State) : Prop where
  /-- Last receivers know what their comparison has told them. -/
  receive : ∀ c a p, s.thread c = .receive a p → p.Epoch s.mem s.anns
  /-- An instance is retired before it is freed. -/
  freed : ∀ x, s.mem.freed x ≠ 0 → Retired s.mem s.anns x

section Step

variable {m m' : Mem} {A A' : CallId → Ann} {c : CallId} {a : ReceiveArgs} {q q' : ReceiveState}

/-- What a last receiver learns from its own step, said of the state before the step. -/
theorem ReceiveState.Epoch.succ (h : Inv m A) (hown : (A c).own = (q.ann a.lvl).own)
    (hfresh : (A c).fresh = (q.ann a.lvl).fresh)
    (hheld : ∀ x md, (Sem.rcu x, md) ∈ (q.ann a.lvl).held → (Sem.rcu x, md) ∈ (A c).held)
    (hx : Exec c m (receiveCode a q) m' q') (hq : q.Epoch m A) : q'.Epoch m A := by
  cases q
  case loadNew l r =>
    cases hx with
    | loadLevelNull => trivial
    | @loadLevel _ new _ _ hl =>
      by_cases hne : new = l
      · exact .inl hne
      · exact .inr (Gone.of_own h (c := c) (by simp [hown, ReceiveState.ann])
          (by simp [hfresh, ReceiveState.ann]) hl hne)
  case cmpEpoch l new r =>
    cases hx with
    | cmpEpochNewer he =>
      rcases hq with rfl | hq
      · exact absurd he (lt_irrefl _)
      · exact hq
    | cmpEpochOlder => trivial
  case unlockFree l r =>
    cases hx
    exact ⟨hq, fun d => h.no_reader (c := c) (hheld l _ (by simp [ReceiveState.ann]))⟩
  case start | leave | clear | release => cases ReceiveState.ends_succ hx rfl <;> trivial
  case condTagReady | readSize => cases ReceiveState.turns_succ hx rfl <;> trivial
  all_goals cases hx <;> trivial

/-- Only a last receiver frees, and it has the instance retired. -/
theorem ReceiveState.Epoch.freed (hx : Exec c m (receiveCode a q) m' q') (hq : q.Epoch m A)
    (x : Addr) (hf : m'.freed x ≠ 0) : m.freed x ≠ 0 ∨ Retired m A x := by
  cases q
  case free l r =>
    cases hx
    by_cases hxl : x = l
    · subst hxl; exact .inr hq
    · exact .inl (by simpa [hxl] using hf)
  case start =>
    rw [receiveCode] at hx
    split at hx <;> cases hx <;> exact .inl hf
  case release rel r => cases rel <;> cases hx <;> exact .inl hf
  all_goals cases hx <;> exact .inl hf

/-- What a last receiver knows, no step takes away. -/
theorem ReceiveState.Epoch.step (h : Inv m A) (hc : Change c m (A c) (A' c) m')
    (ho : ∀ d, d ≠ c → A' d = A d) {p : ReceiveState} (hp : p.Epoch m A) : p.Epoch m' A' := by
  cases p
  case cmpEpoch l new r => exact hp.imp_right fun hg => hg.step h hc ho
  case unlockFree l r => exact Gone.step h hc ho hp
  case free l r => exact Retired.step h hc ho hp
  all_goals trivial

end Step

/-- A send frees nothing. -/
theorem send_freed {c : CallId} {m m' : Mem} {b : SendArgs} {q q' : SendState}
    (hx : Exec c m (sendCode b q) m' q') : m'.freed = m.freed := by
  refine hx.freed.resolve_right ?_
  rintro ⟨x, hi, -⟩
  cases q
  case start =>
    rw [sendCode] at hi
    split at hi <;> cases hi
  all_goals cases hi

/-- An `AWAKE_ALL` command frees nothing. -/
theorem awake_freed {c : CallId} {m m' : Mem} {e : ℕ} {q q' : AwakeState}
    (hx : Exec c m (awakeCode e q) m' q') : m'.freed = m.freed := by
  refine hx.freed.resolve_right ?_
  rintro ⟨x, hi, -⟩
  cases q <;> cases hi

theorem Step.epoch {s s' : State} {c : CallId} (hi : Inv s.mem s.anns) (hs : Step s c s')
    (he : EpochInv s) : EpochInv s' := by
  have hc := hs.change
  have ho := hs.anns_of_ne
  constructor
  · intro d a p hp
    refine ReceiveState.Epoch.step hi hc ho ?_
    by_cases hd : d = c
    · subst hd
      obtain ⟨q, ht, hx⟩ := hs.of_receive hp
      have hann := State.anns_of_receive ht
      exact (he.receive d a q ht).succ hi (by rw [hann]) (by rw [hann])
        (fun x md h => by rw [hann]; exact h) hx
    · rw [hs.thread_of_ne hd] at hp
      exact he.receive d a p hp
  · intro x hx
    refine Retired.step hi hc ho ?_
    by_cases hold : s.mem.freed x = 0
    · cases ht : s.thread c with
      | receive a q =>
        obtain ⟨m, q', he', rfl⟩ := hs.receive ht
        exact ((he.receive c a q ht).freed he' x hx).elim (absurd hold) id
      | send b q =>
        obtain ⟨m, q', he', rfl⟩ := hs.send ht
        rw [Config.set_mem, send_freed he'] at hx
        exact absurd hold hx
      | awake e q =>
        obtain ⟨m, q', he', rfl⟩ := hs.awake ht
        rw [Config.set_mem, awake_freed he'] at hx
        exact absurd hold hx
    · exact he.freed x hold

theorem Init.epoch {s : State} (h : Init s) : EpochInv s := by
  constructor
  · intro c a p hp
    obtain rfl := h.receive hp
    trivial
  · obtain ⟨pm, e, hm⟩ := h.mem
    intro x hx
    rw [hm] at hx
    exact absurd rfl hx

/-- **Superseded instances.**  In every reachable state a last receiver that has found a newer
epoch has its instance gone, and an instance is retired before it is freed. -/
theorem Reachable.epoch {s : State} (h : Reachable s) : EpochInv s := by
  obtain ⟨s₀, h0, hr⟩ := h
  exact hr.invariant_run h0.epoch fun u c v hu he _ hs => hs.epoch (Reachable.inv ⟨s₀, h0, hu⟩) he

/-! ## Waiting receivers

The converse: as long as a receiver waits for a message in vain, its instance is the one the next
send will find. -/

/-- The instance on which a receiver is in `wait_event_interruptible`. -/
def ReceiveState.waitsOn : ReceiveState → Option Addr
  | waitReady l | waitTagReady l | prepare l | condReady l _ | condTagReady l _ | sleep l
  | finish l => some l
  | _ => none

theorem ReceiveState.ann_of_waitsOn {p : ReceiveState} {l : Addr} (i : ℕ)
    (h : p.waitsOn = some l) :
    p.ann i = { held := [(.rcu l, .read), (.tag, .read)], counted := true, reg := some l,
                own := [(i, l)] } := by
  cases p <;> cases h <;> rfl

/-- A receiver that is registered on an instance, has not left its wait, and has not been sent a
message waits on the instance its level points to, whatever `tag_entry->ready` says. -/
theorem tagLevel_of_waitsOn {s : State} (h : Reachable s) {c : CallId} {a : ReceiveArgs}
    {p : ReceiveState} {l : Addr} (hc : s.thread c = .receive a p) (hp : p.waitsOn = some l)
    (hr : s.mem.ready l = false) : s.mem.tagLevel a.lvl = some l := by
  have hann := (State.anns_of_receive hc).trans (p.ann_of_waitsOn a.lvl hp)
  rcases h.inv.superseded c l (by simp [hann]) with ⟨i, hi⟩ | hready
  · have hown := (h.inv.own c a.lvl l (by simp [hann])).2.1
    rwa [← hown, (h.inv.table i l hi).2]
  · rw [hr] at hready; cases hready

end TagAos
