import TagAos.Tag.Leak
import Mathlib.Data.Nat.Count

/-!
# How many epochs have been opened

A new instance gets the epoch of the one it replaces, plus one, as an `int`.  So the epoch of an
instance is not its place in the order in which the instances of its level were linked, but that
place modulo `2 ^ 32`, between `-2 ^ 31` and `2 ^ 31`.

* `Mem.generation` — the place of an instance among those of its level; `CountInv` ties its epoch
  to it, and holds in every reachable state.
* `newer_iff_replaced_iff` — when the test of a last receiver says whether its instance has been
  replaced.
* `exists_round` — two receivers that take turns open one epoch after the other, with one instance
  allocated at a time but while they hand over.  After `2 ^ 31` epochs the test is wrong
  (`replaced_not_newer`).
-/

set_option autoImplicit false

namespace TagAos

open Conc

/-! ## Counting instances

Instances are numbered in the order of their allocation, over all levels.  The place of an instance
among those of its own level is what its epoch counts. -/

/-- How many instances of its level are older than `x`: as many epochs had been opened on the
level when `x` was created. -/
def Mem.generation (m : Mem) (x : Addr) : ℕ := Nat.count (fun y => m.level y = m.level x) x

/-- How many epochs have been opened on the level of `l` since `l` was linked, when `new` is the
instance opened last. -/
def Mem.opened (m : Mem) (l new : Addr) : ℕ := m.generation new - m.generation l

theorem count_congr {p q : ℕ → Prop} [DecidablePred p] [DecidablePred q] {n : ℕ}
    (h : ∀ k < n, p k ↔ q k) : Nat.count p n = Nat.count q n :=
  le_antisymm (Nat.count_mono_left fun k hk => (h k hk).1)
    (Nat.count_mono_left fun k hk => (h k hk).2)

/-- The place of an instance does not depend on younger ones. -/
theorem Mem.generation_congr {m m' : Mem} {x : Addr} (h : ∀ y ≤ x, m'.level y = m.level y) :
    m'.generation x = m.generation x :=
  count_congr fun y hy => by rw [h y hy.le, h x le_rfl]

/-- Of two instances of a level the younger one comes later. -/
theorem Mem.generation_lt {m : Mem} {x y : Addr} (hxy : x < y) (h : m.level x = m.level y) :
    m.generation x < m.generation y := by
  rw [generation, h]
  exact Nat.count_strict_mono h hxy

/-- An instance that is created when `l` is the youngest of its level comes right after `l`. -/
theorem Mem.generation_createLevel {m : Mem} {i : ℕ} {e : ℤ} {l : Addr} (hl : l < m.brk)
    (hlevel : m.level l = i) (hlast : ∀ x : ℕ, x < m.brk → m.level x = i → x ≤ l) :
    (m.createLevel i e).generation m.brk = m.generation l + 1 := by
  have hold : (m.createLevel i e).generation m.brk = Nat.count (fun y => m.level y = i) m.brk := by
    refine count_congr fun y hy => ?_
    simp [createLevel, ne_of_lt hy]
  obtain ⟨k, hk⟩ := Nat.exists_eq_add_of_lt hl
  have hrest : Nat.count (fun y => m.level (l + 1 + y) = i) k = 0 := by
    refine Nat.count_iff_forall_not.2 fun y hy hy' => ?_
    have := hlast (l + 1 + y) (by omega) hy'
    omega
  rw [hold, hk, Nat.add_right_comm, Nat.count_add, hrest, Nat.add_zero, Nat.count_succ,
    if_pos hlevel, generation, hlevel]

/-! ## The epoch of an instance

An epoch is computed from the epoch before, in `int` arithmetic, while the count goes on in the
natural numbers.  The two agree modulo `2 ^ 32`. -/

/-- What a receiver that opens an epoch relies on. -/
def ReceiveState.Opens (m : Mem) : ReceiveState → Prop
  | create _ l e => e = toInt (m.epoch l + 1)
  | install _ old new => old < new
  | _ => True

/-- The epoch of an instance is its place in its level, as an `int`. -/
structure CountInv (s : State) : Prop where
  /-- Receivers that open an epoch number it right. -/
  receive : ∀ c a p, s.thread c = .receive a p → p.Opens s.mem
  /-- The youngest instance of a level is linked or about to be. -/
  latest : Latest (fun _ x n => x < n) s
  /-- The epoch is what remains of the place in 32 bits. -/
  epoch : ∀ x, x < s.mem.brk → s.mem.epoch x = toInt (s.mem.generation x)

section Step

variable {s s' : State} {c : CallId}

theorem ReceiveState.Opens.keep (h : Instances s c s') (hi : Inv s.mem s.anns) {d : CallId}
    {a : ReceiveArgs} {p : ReceiveState} (hd : s.thread d = .receive a p) (hp : p.Opens s.mem) :
    p.Opens s'.mem := by
  cases p
  case create sem l e =>
    have hown := hi.own d a.lvl l (by rw [State.anns_of_receive hd]; simp [ann])
    rw [Opens, (h.epoch_eq hown.1).2]
    exact hp
  all_goals exact hp

theorem ReceiveState.Opens.succ {m : Mem} {a : ReceiveArgs} {q q' : ReceiveState}
    (hi : Inv s.mem s.anns) (hc : s.thread c = .receive a q)
    (hx : Exec c s.mem (receiveCode a q) m q') : q'.Opens m := by
  cases q
  case readEpoch sem l =>
    cases hx
    rfl
  case create sem l e =>
    have hown := hi.own c a.lvl l (by rw [State.anns_of_receive hc]; simp [ann])
    cases hx
    · exact hown.1
    · trivial
  case start | leave | clear | release => cases ends_succ hx rfl <;> trivial
  case condTagReady | readSize => cases turns_succ hx rfl <;> trivial
  all_goals cases hx <;> trivial

/-- While a receiver creates an instance, the one it replaces is the youngest of the level. -/
theorem CountInv.le_of_create (h : CountInv s) (hi : Inv s.mem s.anns) {a : ReceiveArgs}
    {sem l : Addr} {e : ℤ} (hc : s.thread c = .receive a (.create sem l e)) {x : Addr}
    (hx : x < s.mem.brk) (hlevel : s.mem.level x = a.lvl) : x ≤ l := by
  have hann := State.anns_of_receive hc
  have hlink : s.mem.tagLevel a.lvl = some l := hi.link c _ _ (by rw [hann]; rfl)
  rcases h.latest _ l x hlink hx hlevel with heq | hlt | ⟨d, a', sem', old, hd⟩
  · exact heq.le
  · exact hlt.le
  · -- nobody else is about to link an instance of the level
    have hannd := State.anns_of_receive hd
    have hlvl : a'.lvl = a.lvl :=
      (hi.own d a'.lvl x (by rw [hannd]; simp [ReceiveState.ann])).2.1.symm.trans hlevel
    have hheld : (.level a.lvl, .write) ∈ (s.anns c).held := by
      rw [hann]
      simp [ReceiveState.ann]
    have hheld' : (.level a.lvl, .write) ∈ (s.anns d).held := by
      rw [hannd, ← hlvl]
      simp [ReceiveState.ann]
    rw [(hi.write_alone hheld hheld').1, hc] at hd
    cases hd

/-- A step keeps the epoch of every instance equal to its generation modulo `2 ^ 32`. -/
theorem CountInv.step (hr : Reachable s) (hs : Step s c s') (h : CountInv s) : CountInv s' := by
  have hinst := hs.instances hr
  constructor
  · intro d a p hd
    by_cases hdc : d = c
    · subst hdc
      obtain ⟨q, hq, hx⟩ := hs.of_receive hd
      exact ReceiveState.Opens.succ hr.inv hq hx
    · rw [hs.thread_of_ne hdc] at hd
      exact (h.receive d a p hd).keep hinst hr.inv hd
  · exact h.latest.step hr hs (fun _ _ _ => lt_trans) (fun _ _ _ _ hlt => hlt)
      fun a sem old new => h.receive c a _
  · have hold : ∀ x, x < s.mem.brk → s'.mem.epoch x = toInt (s'.mem.generation x) := by
      intro x hx
      rw [(hinst.epoch_eq hx).2, h.epoch x hx,
        Mem.generation_congr fun y hy => (hinst.epoch_eq (lt_of_le_of_lt hy hx)).1]
    intro x hx
    cases hinst with
    | install _ mem => exact hold x (by rw [mem] at hx; exact hx)
    | @create a sem l e point _ mem =>
      by_cases hxb : x = s.mem.brk
      · subst hxb
        have hown := hr.inv.own c a.lvl l
          (by rw [State.anns_of_receive point]; simp [ReceiveState.ann])
        have he : e = toInt (s.mem.epoch l + 1) := h.receive c a _ point
        rw [mem, Mem.generation_createLevel hown.1 hown.2.1
          fun x hx hlevel => h.le_of_create hr.inv point hx hlevel]
        show Function.update s.mem.epoch s.mem.brk e s.mem.brk = _
        rw [Function.update_self, he, h.epoch l hown.1, toInt, toInt, toInt, Int.bmod_add_bmod]
        rfl
      · exact hold x (lt_of_le_of_ne (Nat.lt_succ_iff.1 (by rw [mem] at hx; exact hx)) hxb)
    | same _ brk _ _ _ => exact hold x (brk ▸ hx)

theorem Init.count (h : Init s) : CountInv s := by
  constructor
  · intro c a p hp
    obtain rfl := h.receive hp
    trivial
  · exact h.latest
  · obtain ⟨pm, e, hm⟩ := h.mem
    intro x _
    have hgen : s.mem.generation x = 0 := by
      rw [hm]
      exact Nat.count_iff_forall_not.2 fun y hy => ne_of_lt hy
    rw [hgen, hm]
    rfl

end Step

/-- This holds in every reachable state. -/
theorem Reachable.count {s : State} (h : Reachable s) : CountInv s := by
  obtain ⟨s₀, h0, hr⟩ := h
  exact hr.invariant_run h0.count fun u c v hu hi _ hs => hi.step ⟨s₀, h0, hu⟩ hs

/-! ## Counting on in 32 bits

The arithmetic behind the comparison: when a number that is counted on in 32 bits is greater than
the one before. -/

/-- Counting `k` on from the `int` `e` leads to a greater one, or `k` is zero. -/
def Ahead (e : ℤ) (k : ℕ) : Prop := k = 0 ∨ 0 < k % 2 ^ 32 ∧ e + (k % 2 ^ 32 : ℕ) < 2 ^ 31

/-- Whole rounds do not count. -/
theorem toInt_add_mod (x : ℤ) (k : ℕ) : toInt (x + (k % 2 ^ 32 : ℕ)) = toInt (x + k) := by
  rw [toInt, toInt, Int.bmod_add_cancel_left, Int.natCast_emod, Int.emod_bmod]

theorem ahead_iff {e : ℤ} (he : -2 ^ 31 ≤ e ∧ e < 2 ^ 31) (k : ℕ) :
    Ahead e k ↔ k = 0 ∨ e < toInt (e + k) := by
  refine or_congr Iff.rfl ?_
  rw [← toInt_add_mod]
  have hr : k % 2 ^ 32 < 2 ^ 32 := Nat.mod_lt _ (by decide)
  generalize k % 2 ^ 32 = r at hr
  rcases lt_or_ge (e + r) (2 ^ 31) with h | h
  · have hfit : toInt (e + r) = e + r := Int.bmod_eq_of_le (by omega) (by omega)
    rw [hfit]
    omega
  · -- the sum wraps round
    have hwrap : toInt (e + r) = e + r - 2 ^ 32 := by
      rw [toInt, ← Int.sub_bmod_right (e + r) (2 ^ 32)]
      exact Int.bmod_eq_of_le (by omega) (by omega)
    rw [hwrap]
    omega

/-- As long as the count itself is an `int`, counting on leads to greater ones. -/
theorem ahead_of_lt {g k : ℕ} (h : g + k < 2 ^ 31) : Ahead (toInt g) k := by
  have hg : toInt g = g := Int.bmod_eq_of_le (by omega) (by omega)
  rw [Ahead, hg]
  omega

/-! ## The test of the last receiver

The comparison is right or wrong for each pair of instances; the condition is about how many epochs
have been opened between them and where the count stands, both known before the comparison is made.
-/

/-- The comparison of a last receiver on the instance `l` of level `i`, which has loaded `new`,
says whether `l` has been replaced. -/
def Mem.TestRight (m : Mem) (i : ℕ) (l new : Addr) : Prop :=
  m.epoch l < m.epoch new ↔ m.tagLevel i ≠ some l

section Test

variable {s₀ s : State} {c : CallId} {a : ReceiveArgs} {l new : Addr} {r : Result}

/-- What a last receiver has loaded, if it is still linked, comes after its instance by as many
places as epochs have been opened since. -/
theorem Reachable.opened (h : Reachable s) (hc : s.thread c = .receive a (.cmpEpoch l new r))
    (hnew : s.mem.tagLevel a.lvl = some new) :
    s.mem.generation l + s.mem.opened l new = s.mem.generation new ∧
      (s.mem.opened l new = 0 ↔ new = l) := by
  have hann := State.anns_of_receive hc
  have hown := h.inv.own c a.lvl l (by rw [hann]; simp [ReceiveState.ann])
  have hlast := h.count.latest.of_own h.inv (x := l) (c := c)
    (by rw [hann]; simp [ReceiveState.ann]) (by simp [hc]) hnew
  rw [Mem.opened]
  rcases hlast with rfl | hlt
  · simp
  · have hlevel := hown.2.1.trans (h.inv.table _ _ hnew).2.symm
    have hgen := Mem.generation_lt hlt hlevel
    exact ⟨by omega, ⟨fun hzero => by omega, fun heq => absurd heq hlt.ne'⟩⟩

/-- **When the comparison of epochs tells whether an instance has been replaced.** -/
theorem newer_iff_replaced_iff (h0 : Init s₀) (h : Run Step s₀ s)
    (hc : s.thread c = .receive a (.cmpEpoch l new r))
    (hnew : s.mem.tagLevel a.lvl = some new) :
    s.mem.TestRight a.lvl l new ↔ Ahead (s.mem.epoch l) (s.mem.opened l new) := by
  have hr : Reachable s := ⟨s₀, h0, h⟩
  have hl := hr.inv.own c a.lvl l (by rw [State.anns_of_receive hc]; simp [ReceiveState.ann])
  have hepoch := hr.count.epoch l hl.1
  obtain ⟨hsum, hzero⟩ := hr.opened hc hnew
  have hnewer : toInt (s.mem.epoch l + s.mem.opened l new) = s.mem.epoch new := by
    rw [hepoch, hr.count.epoch new (hr.inv.table _ _ hnew).1, ← hsum, toInt, toInt, toInt,
      Int.bmod_add_bmod, Int.natCast_add]
  have hreplaced : s.mem.tagLevel a.lvl ≠ some l ↔ s.mem.opened l new ≠ 0 := by
    rw [hnew, Ne, Option.some.injEq]
    exact hzero.not.symm
  rw [Mem.TestRight, hreplaced, ahead_iff (by rw [hepoch]; exact toInt_range _), hnewer]
  by_cases hopened : s.mem.opened l new = 0
  · -- nothing has been opened
    obtain rfl := hzero.1 hopened
    simp [hopened]
  · simp [hopened]

/-- One replacement after the message: receiver 0 is about to compare instance 0 with its
successor. -/
def replacedOnce : State :=
  (State.start busyLevel).after (goes 0 15 ++ goes 1 18 ++ goes 3 26 ++ goes 0 13)

/-- After one replacement the test is right. -/
theorem newer_iff_replaced_iff_replacedOnce :
    replacedOnce.mem.opened 0 32 = 1 ∧ replacedOnce.mem.TestRight 0 0 32 := by
  have hopened : replacedOnce.mem.opened 0 32 = 1 := by decide +kernel
  have hepoch : replacedOnce.mem.epoch 0 = 0 := by decide +kernel
  refine ⟨hopened, (newer_iff_replaced_iff (State.init_start busyLevel_idle)
    (s := replacedOnce) (State.run_after _ _) (c := 0) (a := ⟨0, true, 2, 0⟩)
    (r := .message [7, 8]) (by decide +kernel) (by decide +kernel)).2 ?_⟩
  rw [hopened, hepoch]
  exact .inr ⟨by decide, by decide⟩

/-- The comparison is right until `2 ^ 31` epochs have been opened on the level. -/
theorem testRight_of_few (h : Reachable s) (hc : s.thread c = .receive a (.cmpEpoch l new r))
    (hnew : s.mem.tagLevel a.lvl = some new) (hfew : s.mem.generation new < 2 ^ 31) :
    s.mem.TestRight a.lvl l new := by
  obtain ⟨s₀, h0, hr⟩ := h
  have hreach : Reachable s := ⟨s₀, h0, hr⟩
  have hl := hreach.inv.own c a.lvl l
    (by rw [State.anns_of_receive hc]; simp [ReceiveState.ann])
  obtain ⟨hsum, -⟩ := hreach.opened hc hnew
  refine (newer_iff_replaced_iff h0 hr hc hnew).2 ?_
  rw [hreach.count.epoch l hl.1]
  exact ahead_of_lt (by omega)

end Test

/-! ## One call on its own

To drive the system through `2 ^ 31` epochs the runs of single calls are put together from their
operations.  Nobody else moves meanwhile, so each operation is determined. -/

/-- By its own operations the call gets from a point to where `P` holds. -/
inductive LeadsTo {π : Type} (code : π → Instr π) (c : CallId) (P : Mem → π → Prop) :
    Mem → π → Prop
  | here {m : Mem} {p : π} (h : P m p) : LeadsTo code c P m p
  | next {m m' : Mem} {p p' : π} (h : Exec c m (code p) m' p') (rest : LeadsTo code c P m' p') :
      LeadsTo code c P m p

theorem receive_readable (a : ReceiveArgs) (p : ReceiveState) : (receiveCode a p).Readable := by
  cases p
  case start =>
    rw [receiveCode]
    split <;> trivial
  case release rel r => cases rel <;> trivial
  all_goals trivial

theorem send_readable {b : SendArgs} (hb : b.count ≤ b.data.length) (p : SendState) :
    (sendCode b p).Readable := by
  cases p
  case start =>
    rw [sendCode]
    split <;> trivial
  case copy => exact hb
  all_goals trivial

/-- What one call does on its own is a run. -/
theorem LeadsTo.run {π : Type} {code : π → Instr π} {c : CallId} {P : Mem → π → Prop} {m : Mem}
    {p : π} (h : LeadsTo code c P m p) (hcode : ∀ p, (code p).Readable) {f : π → Thread}
    (hf : ∀ p, (f p).code = (code p).map f) {s : State} (hm : s.mem = m)
    (hc : s.thread c = f p) : ∃ m' p', P m' p' ∧ Run Step s (s.set c m' (f p')) := by
  induction h generalizing s with
  | here h =>
    subst hm
    exact ⟨_, _, h, by rw [← hc, Config.set_self]; exact RunUnder.refl s⟩
  | @next m m₁ p p₁ hx _ ih =>
    subst hm
    obtain ⟨o, ho⟩ := hx.exec (hcode p)
    have hs : Step s c (s.set c m₁ (f p₁)) := ⟨o, by simp [step, hc, hf, exec_map, ho]⟩
    obtain ⟨m', p', hP, hr⟩ := ih (s := s.set c m₁ (f p₁)) rfl (Config.set_thread_self ..)
    rw [Config.set_set] at hr
    exact ⟨m', p', hP, RunUnder.head trivial hs hr⟩

theorem downRead_of_eq {s : RwSem CallId} {r : Finset CallId} (h : s = .shared r) (c : CallId) :
    s.downRead c = some (.shared (insert c r)) := by
  rw [h]
  rfl

/-! ## Two receivers that take turns

The smallest situation that opens an epoch after the other and leaves none behind: one receiver
waits, a send comes, the next receiver finds the message and opens an epoch, and the first one goes
home. -/

/-- A send without a message. -/
def ping : SendArgs := ⟨0, none, 0, 0⟩

/-- A receive that just wants to be woken up. -/
def pong : ReceiveArgs := ⟨0, false, 0, 0⟩

/-- The receive `c` is the only call on the tag.  It is registered on `l`, the instance of
epoch `e` that level 0 points to. -/
structure Lone (m : Mem) (c : CallId) (l : Addr) (e : ℤ) (ready : Bool) : Prop where
  tags : m.tags = true
  permission : m.permission = 0
  tagReady : m.tagReady = false
  tagWaiting : m.tagWaiting = 1
  tagLevel : m.tagLevel 0 = some l
  lt : l < m.brk
  ready : m.ready l = ready
  waiting : m.waiting l = 1
  epoch : m.epoch l = e
  wMutex : m.wMutex l = none
  tag : m.sem .tag = .shared {c}
  level : m.sem (.level 0) = .shared ∅
  rcu : m.sem (.rcu l) = .shared {c}

/-- The receives `c` and `d` are the only calls on the tag.  `c` was registered on `l`, of epoch
`e`, which has a message; `d` is registered on `new`, of epoch `e'`, which level 0 points to.
`w` calls are still counted on `l`, and its `rcu_lock` is held as `rcu` says. -/
structure Pair (m : Mem) (c d : CallId) (l new : Addr) (e e' w : ℤ) (rcu : RwSem CallId) :
    Prop where
  tags : m.tags = true
  permission : m.permission = 0
  tagReady : m.tagReady = false
  tagWaiting : m.tagWaiting = 2
  tagLevel : m.tagLevel 0 = some new
  ne : l ≠ new
  lt : new < m.brk
  ready : m.ready l = true
  ready' : m.ready new = false
  waiting : m.waiting l = w
  waiting' : m.waiting new = 1
  epoch : m.epoch l = e
  epoch' : m.epoch new = e'
  wMutex : m.wMutex new = none
  tag : m.sem .tag = .shared {d, c}
  level : m.sem (.level 0) = .shared ∅
  rcu : m.sem (.rcu l) = rcu
  rcu' : m.sem (.rcu new) = .shared {d}

section Turns

variable {m : Mem} {c d : CallId} {l new : Addr} {e e' : ℤ}

/-- A send sets `ready`. -/
theorem Lone.send (h : Lone m c l e false) (hd : d ≠ c) :
    LeadsTo (sendCode ping) d (fun m' p => p = .done 1 ∧ Lone m' c l e true) m .start := by
  have hdc : d ∉ ({c} : Finset CallId) := by simpa using hd
  refine .next (.downRead (downRead_of_eq h.tag d)) ?_
  refine .next (.loadTags h.tags) ?_
  refine .next (.checkPerm (by simp [Mem.checkPerm, h.permission, tagPermUsr])) ?_
  refine .next .readTagWaiting ?_
  have hcounted : (if m.tagWaiting = 0 then SendState.unlockTag 0 else .lockLevel) = .lockLevel :=
    if_neg (by rw [h.tagWaiting]; decide)
  dsimp only
  rw [hcounted]
  have hlevel : Function.update m.sem .tag (.shared {d, c}) (.level 0) = .shared ∅ := by
    simp [h.level]
  refine .next (.downRead (downRead_of_eq hlevel d)) ?_
  refine .next (.loadLevel h.tagLevel) ?_
  refine .next (.downRead (downRead_of_eq (r := {c}) (by simp [h.rcu]) d)) ?_
  refine .next .upRead ?_
  refine .next (.tryMutex h.wMutex) ?_
  refine .next (.loadReadyClear h.ready) ?_
  refine .next .readWaiting ?_
  dsimp only
  rw [h.waiting]
  -- somebody waits, so the message is sent; there is nothing to copy
  refine .next .storeSize ?_
  refine .next .storeReady ?_
  refine .next .unlockMutex ?_
  refine .next .wakeUpAll ?_
  refine .next .upRead ?_
  refine .next .upRead (.here ⟨rfl, ?_⟩)
  exact {
    tags := h.tags
    permission := h.permission
    tagReady := h.tagReady
    tagWaiting := h.tagWaiting
    tagLevel := h.tagLevel
    lt := h.lt
    ready := by simp
    waiting := h.waiting
    epoch := h.epoch
    wMutex := by simp
    tag := by simp [RwSem.upRead, Finset.erase_insert hdc]
    level := by simp [RwSem.upRead, SendArgs.lvl, ping]
    rcu := by simp [RwSem.upRead, Finset.erase_insert hdc] }

/-- A receive that finds `ready` set opens a new epoch and registers on it. -/
theorem Lone.receive (h : Lone m c l e true) (hd : d ≠ c) :
    LeadsTo (receiveCode pong) d (fun m' p => ∃ new, p = .waitReady new ∧
      Pair m' c d l new e (toInt (e + 1)) 1 (.shared {c})) m .start := by
  have hdc : d ∉ ({c} : Finset CallId) := by simpa using hd
  have hne : l ≠ m.brk := ne_of_lt h.lt
  refine .next (.downRead (downRead_of_eq h.tag d)) ?_
  refine .next (.loadTags h.tags) ?_
  refine .next (.checkPerm (by simp [Mem.checkPerm, h.permission, tagPermUsr])) ?_
  have hlevel : Function.update m.sem .tag (.shared {d, c}) (.level 0) = .shared ∅ := by
    simp [h.level]
  refine .next (.downRead (downRead_of_eq hlevel d)) ?_
  refine .next (.loadLevel h.tagLevel) ?_
  refine .next .incTagWaiting ?_
  refine .next (.downRead (downRead_of_eq (r := {c}) (by simp [h.rcu]) d)) ?_
  refine .next .upRead ?_
  refine .next (.loadReadySet h.ready) ?_
  refine .next (.downWrite (s := .exclusive d)
    (by simp [pong, ReceiveArgs.lvl, RwSem.upRead, RwSem.downWrite])) ?_
  refine .next (.loadLevel h.tagLevel) ?_
  refine .next (.loadReadySet h.ready) ?_
  -- the new epoch
  refine .next .loadEpoch ?_
  dsimp only
  rw [h.epoch]
  refine .next .createLevel ?_
  refine .next .storeLevel ?_
  refine .next .upRead ?_
  refine .next (.downRead (downRead_of_eq (r := ∅)
    (by simp [Mem.createLevel, hne.symm, RwSem.free]) d)) ?_
  refine .next .upWrite ?_
  refine .next .incWaiting (.here ⟨m.brk, rfl, ?_⟩)
  exact {
    tags := h.tags
    permission := h.permission
    tagReady := h.tagReady
    tagWaiting := by simp [Mem.createLevel, h.tagWaiting]
    tagLevel := by simp [ReceiveArgs.lvl, pong]
    ne := hne
    lt := Nat.lt_succ_self _
    ready := by simp [Mem.createLevel, hne, h.ready]
    ready' := by simp [Mem.createLevel]
    waiting := by simp [Mem.createLevel, hne, h.waiting]
    waiting' := by simp [Mem.createLevel]
    epoch := by simp [Mem.createLevel, hne, h.epoch]
    epoch' := by simp [Mem.createLevel]
    wMutex := by simp [Mem.createLevel]
    tag := by simp [Mem.createLevel]
    level := by simp [Mem.createLevel, RwSem.upWrite, RwSem.free, ReceiveArgs.lvl, pong]
    rcu := by simp [Mem.createLevel, hne, RwSem.upRead, Finset.erase_insert hdc]
    rcu' := by simp }

/-- The receiver of the old instance is woken up and leaves it as the last one. -/
theorem Pair.last (h : Pair m c d l new e e' 1 (.shared {c})) :
    LeadsTo (receiveCode pong) c (fun m' p => p = .cmpEpoch l new (.message []) ∧
      Pair m' c d l new e e' 0 (.exclusive c)) m (.waitReady l) := by
  have hne := h.ne
  refine .next (.loadReadySet h.ready) ?_
  refine .next (.loadTagReadyClear h.tagReady) ?_
  refine .next (.loadReadySet h.ready) ?_
  refine .next (.loadReadySet h.ready) ?_
  refine .next .loadSize ?_
  have hsize : ReceiveState.afterSize pong l (m.size l) = .unlockRcu l (.message []) := by
    simp [ReceiveState.afterSize, pong]
  rw [hsize]
  refine .next .upRead ?_
  refine .next (.decWaitingZero (by simp [h.waiting])) ?_
  refine .next (.tryWrite (s := .exclusive c)
    (by simp [h.rcu, RwSem.upRead, RwSem.downWrite])) ?_
  refine .next (.loadLevel h.tagLevel) (.here ⟨rfl, ?_⟩)
  exact { h with
    waiting := by simp [h.waiting]
    waiting' := by simp [hne.symm, h.waiting']
    tag := by simp [h.tag]
    level := by simp [h.level]
    rcu := by simp
    rcu' := by simp [hne.symm, h.rcu'] }

/-- A last receiver that finds a newer epoch frees its instance and goes home. -/
theorem Pair.leave (h : Pair m c d l new e e' 0 (.exclusive c)) (hd : d ≠ c) (he : e < e') :
    LeadsTo (receiveCode pong) c (fun m' p => (∃ r, p = .done r) ∧ Lone m' d new e' false) m
      (.cmpEpoch l new (.message [])) := by
  have hne := h.ne
  have hdc : ({d, c} : Finset CallId).erase c = {d} := by
    rw [Finset.erase_insert_of_ne hd]
    simp
  refine .next (.cmpEpochNewer (by rw [h.epoch, h.epoch']; exact he)) ?_
  refine .next .upWrite ?_
  refine .next .freeLevel ?_
  refine .next (.decTagWaiting (by simp [h.tagWaiting])) ?_
  refine .next .upRead (.here ⟨⟨_, rfl⟩, ?_⟩)
  exact {
    tags := h.tags
    permission := h.permission
    tagReady := h.tagReady
    tagWaiting := by simp [h.tagWaiting]
    tagLevel := h.tagLevel
    lt := h.lt
    ready := h.ready'
    waiting := h.waiting'
    epoch := h.epoch'
    wMutex := h.wMutex
    tag := by simp [h.tag, RwSem.upRead, hdc]
    level := by simp [h.level]
    rcu := by simp [hne.symm, h.rcu'] }

end Turns

/-! ## One epoch after the other

The induction on the number of epochs.  The invariant of a round says which instance the level
points to and what its epoch is, and nothing about the calls that have gone. -/

/-- Receives and sends by turns. -/
def rounds (d : ℕ) : Thread := if d % 2 = 0 then .receive pong .start else .send ping .start

theorem rounds_idle (d : ℕ) : (rounds d).idle = true := by
  unfold rounds
  split <;> rfl

theorem rounds_receive (k : ℕ) : rounds (2 * k) = .receive pong .start := if_pos (by omega)

theorem rounds_send (k : ℕ) : rounds (2 * k + 1) = .send ping .start := if_neg (by omega)

/-- `k` epochs have been opened; the receiver that has opened the last one is about to wait. -/
structure Round (s : State) (k : ℕ) (l : Addr) : Prop where
  lone : Lone s.mem (2 * k) l k false
  waits : s.thread (2 * k) = .receive pong (.waitReady l)
  rest : ∀ d : ℕ, 2 * k < d → s.thread d = rounds d

/-- One more epoch has been opened, and the receiver of the old instance is about to compare the
two. -/
structure Compares (s : State) (k : ℕ) (l new : Addr) : Prop where
  pair : Pair s.mem (2 * k) (2 * (k + 1)) l new k (toInt (k + 1)) 0 (.exclusive (2 * k))
  point : s.thread (2 * k) = .receive pong (.cmpEpoch l new (.message []))
  waits : s.thread (2 * (k + 1)) = .receive pong (.waitReady new)
  rest : ∀ d : ℕ, 2 * (k + 1) < d → s.thread d = rounds d

section Rounds

variable {s : State} {k : ℕ} {l new : Addr}

/-- A send, a receive that opens an epoch, and the old receiver up to its comparison. -/
theorem Round.compares (h : Round s k l) : ∃ t new, Run Step s t ∧ Compares t k l new := by
  have h10 : (2 * k + 1 : ℕ) ≠ 2 * k := by omega
  have h20 : (2 * (k + 1) : ℕ) ≠ 2 * k := by omega
  have h21 : (2 * (k + 1) : ℕ) ≠ 2 * k + 1 := by omega
  obtain ⟨m₁, _, ⟨rfl, hsent⟩, hr₁⟩ := (h.lone.send h10).run (send_readable (Nat.zero_le _))
    (f := .send ping) (fun _ => rfl) rfl
    (by rw [h.rest (2 * k + 1) (by omega), rounds_send])
  obtain ⟨m₂, _, ⟨new, rfl, hopened⟩, hr₂⟩ := (hsent.receive h20).run (receive_readable pong)
    (f := .receive pong) (s := s.set (2 * k + 1) m₁ (.send ping (.done 1))) (fun _ => rfl) rfl
    (by rw [Config.set_thread_of_ne _ _ _ _ h21, h.rest (2 * (k + 1)) (by omega),
      rounds_receive])
  obtain ⟨m₃, _, ⟨rfl, hlast⟩, hr₃⟩ := hopened.last.run (receive_readable pong) (f := .receive pong)
    (s := (s.set (2 * k + 1) m₁ (.send ping (.done 1))).set (2 * (k + 1)) m₂
      (.receive pong (.waitReady new))) (fun _ => rfl) rfl
    (by rw [Config.set_thread_of_ne _ _ _ _ h20.symm, Config.set_thread_of_ne _ _ _ _ h10.symm,
      h.waits])
  refine ⟨_, new, (hr₁.trans hr₂).trans hr₃, hlast, Config.set_thread_self .., ?_,
    fun d hd => ?_⟩
  · rw [Config.set_thread_of_ne _ _ _ _ h20, Config.set_thread_self]
  · have h0 : d ≠ 2 * k := by omega
    have h1 : d ≠ 2 * k + 1 := by omega
    rw [Config.set_thread_of_ne _ _ _ _ h0, Config.set_thread_of_ne _ _ _ _ (ne_of_gt hd),
      Config.set_thread_of_ne _ _ _ _ h1]
    exact h.rest d (by omega)

/-- As long as the epoch does not overflow, the old receiver frees its instance. -/
theorem Compares.next (h : Compares s k l new) (hk : k + 1 < 2 ^ 31) :
    ∃ t, Run Step s t ∧ Round t (k + 1) new := by
  have hne : (2 * (k + 1) : ℕ) ≠ 2 * k := by omega
  have hfit : toInt (k + 1) = (k + 1 : ℕ) := Int.bmod_eq_of_le (by omega) (by omega)
  obtain ⟨m, _, ⟨⟨r, rfl⟩, hlone⟩, hr⟩ := (h.pair.leave hne (by rw [hfit]; omega)).run
    (receive_readable pong) (f := .receive pong) (fun _ => rfl) rfl h.point
  refine ⟨_, hr, hfit ▸ hlone, ?_, fun d hd => ?_⟩
  · rw [Config.set_thread_of_ne _ _ _ _ hne, h.waits]
  · have hd' : d ≠ 2 * k := by omega
    rw [Config.set_thread_of_ne _ _ _ _ hd', h.rest d hd]

/-- The first receiver on a fresh tag. -/
theorem round_zero : Round ((State.start rounds).after (goes 0 10)) 0 0 where
  lone := {
    tags := by rfl
    permission := by rfl
    tagReady := by rfl
    tagWaiting := by rfl
    tagLevel := by rfl
    lt := by decide
    ready := by rfl
    waiting := by rfl
    epoch := by rfl
    wMutex := by rfl
    tag := by rfl
    level := by rfl
    rcu := by rfl }
  waits := by rfl
  rest d hd := State.thread_after (n := 1) (by decide) _ hd

/-- **Two receivers that take turns open one epoch after the other**, up to the last that fits. -/
theorem exists_round (k : ℕ) (hk : k < 2 ^ 31) :
    ∃ s l, Run Step (State.start rounds) s ∧ Round s k l := by
  induction k with
  | zero => exact ⟨_, 0, State.run_after .., round_zero⟩
  | succ k ih =>
    obtain ⟨s, l, hr, hround⟩ := ih (by omega)
    obtain ⟨t, new, hr', hcompares⟩ := hround.compares
    obtain ⟨u, hr'', hround'⟩ := hcompares.next hk
    exact ⟨u, new, (hr.trans hr').trans hr'', hround'⟩

end Rounds

/-- After `2 ^ 31` epochs a replaced instance does not look replaced. -/
theorem replaced_not_newer : ¬ ∀ (s₀ s : State) (c : CallId) (a : ReceiveArgs) (l new : Addr)
    (r : Result), Init s₀ → Run Step s₀ s → s.thread c = .receive a (.cmpEpoch l new r) →
      s.mem.tagLevel a.lvl = some new → s.mem.TestRight a.lvl l new := by
  intro h
  obtain ⟨s, l, hr, hround⟩ := exists_round (2 ^ 31 - 1) (by decide)
  obtain ⟨t, new, hr', hpair, hpoint, -, -⟩ := hround.compares
  have hlink : t.mem.tagLevel pong.lvl = some new := hpair.tagLevel
  have hright := h _ t _ _ _ _ _ (State.init_start rounds_idle) (hr.trans hr') hpoint hlink
  have hnewer := hright.2 (by rw [hlink]; exact fun heq => hpair.ne (Option.some.inj heq).symm)
  rw [hpair.epoch, hpair.epoch'] at hnewer
  revert hnewer
  decide

end TagAos
