import TagAos.Service.Refinement

/-!
# Callers without permission

A tag created with `TAG_PERM_USR` belongs to its creator and to root.  `tag_send`, `tag_receive`
and the two commands of `tag_ctl` check that after they have taken `tag_lock` and loaded the tag.
They do so at different points of different code; `Phase` names the few they have in common,
and `PhaseStep` says what a call does in each until it is refused.  All it changes is `tag_lock`,
and when it returns that is as it was: so a call that runs in one go leaves no trace
(`powerless`).
-/

set_option autoImplicit false

namespace TagAos.Service

open Conc
open Registry (Lock DeleteState)

/-! ## Requests

What is common to the four kinds of calls that check the permission, and what it means to be
refused.  A `dev_read` and a `tag_get` check nothing and do not occur. -/

/-- What a call on a tag asks for when its arguments are valid: its descriptor, and the caller's
effective uid. -/
def userRequest (tag : ℤ) : TagAos.Thread → Option (ℤ × ℕ)
  | .receive a _ => if validTag tag && a.valid then some (tag, a.euid) else none
  | .send b _ => if validTag tag && b.valid then some (tag, b.euid) else none
  | .awake e _ => if validTag tag then some (tag, e) else none

/-- The same for any call that checks the permission. -/
def Thread.request : Thread → Option (ℤ × ℕ)
  | .user tag _ t => userRequest tag t
  | .delete tag euid _ _ _ => if validTag tag then some (tag, euid) else none
  | _ => none

/-- What a call has returned, and the bytes it has copied to the user. -/
def Thread.result : Thread → Option (ℤ × List UInt8)
  | .user _ _ (.receive _ (.done r)) => some (r.returnCode, r.delivered)
  | .user _ _ (.send _ (.done rc)) | .user _ _ (.awake _ (.done rc))
  | .delete _ _ _ _ (.done rc) => some (rc, [])
  | _ => none

/-- The call is a deletion. -/
def Thread.deletes : Thread → Bool
  | .delete _ _ _ _ _ => true
  | _ => false

/-- The next operation of the call loads its tag. -/
def Thread.loads : Thread → Bool
  | .user _ _ (.receive _ .loadTag) | .user _ _ (.send _ .loadTag) | .user _ _ (.awake _ .loadTag)
  | .delete _ _ _ _ .loadTag => true
  | _ => false

/-- The tag was created with `TAG_PERM_USR` by somebody else, and the caller is not root. -/
structure Denies (m : Mem) (y : TagAddr) (euid : ℕ) : Prop where
  permission : (m.obj y).permission = tagPermUsr
  root : euid ≠ 0
  creator : euid ≠ (m.obj y).euid

/-- The descriptor has a live tag that the caller may not use. -/
def Forbidden (m : Mem) (tag : ℤ) (euid : ℕ) : Prop :=
  ∃ y, m.tags tag.toNat = some y ∧ Denies m y euid

instance (m : Mem) (y : TagAddr) (euid : ℕ) : Decidable (Denies m y euid) :=
  decidable_of_iff ((m.obj y).permission = tagPermUsr ∧ euid ≠ 0 ∧ euid ≠ (m.obj y).euid)
    ⟨fun h => ⟨h.1, h.2.1, h.2.2⟩, fun h => ⟨h.permission, h.root, h.creator⟩⟩

instance (m : Mem) (tag : ℤ) (euid : ℕ) : Decidable (Forbidden m tag euid) :=
  decidable_of_iff (∃ y ∈ m.tags tag.toNat, Denies m y euid) Iff.rfl

/-- The call `c` is not interrupted, and the tag it loads is forbidden. -/
def Barred (c : CallId) (tag : ℤ) (euid : ℕ) (s : State) (d : CallId) (o : Outcome) : Prop :=
  d = c → o ≠ .signal ∧ ((s.thread c).loads = true → Forbidden s.mem tag euid)

instance (c : CallId) (tag : ℤ) (euid : ℕ) (s : State) (d : CallId) (o : Outcome) :
    Decidable (Barred c tag euid s d o) := inferInstanceAs (Decidable (_ → _ ∧ _))

/-- Only the call `c` moves, and it is not interrupted. -/
def Solo (c : CallId) (_ : State) (d : CallId) (o : Outcome) : Prop := d = c ∧ o ≠ .signal

instance (c : CallId) (s : State) (d : CallId) (o : Outcome) : Decidable (Solo c s d o) :=
  inferInstanceAs (Decidable (_ ∧ _))

/-- The call `c` runs from its first operation to its return while no other call moves, and asks
for a tag that is forbidden to it. -/
structure Whole (s : State) (c : CallId) (s' : State) : Prop where
  idle : (s.thread c).idle = true
  request : ∃ tag euid, (s.thread c).request = some (tag, euid) ∧ Forbidden s.mem tag euid
  run : Run (MovesWithin (Solo c) Service.step) s s'
  returned : (s'.thread c).returned = true

/-- A bound on the operations that a call which is refused has left. -/
def Thread.left : Thread → ℕ
  | .delete _ _ _ _ .start => 5
  | .user _ _ (.receive _ .start) | .user _ _ (.send _ .start) | .user _ _ (.awake _ .start)
  | .delete _ _ _ _ .tryLock => 4
  | .user _ _ (.receive _ .loadTag) | .user _ _ (.send _ .loadTag) | .user _ _ (.awake _ .loadTag)
  | .delete _ _ _ _ .loadTag => 3
  | .user _ _ (.receive _ .checkPerm) | .user _ _ (.send _ .checkPerm)
  | .user _ _ (.awake _ .checkPerm) | .delete _ _ _ _ (.checkPerm _) => 2
  | .user _ _ (.receive _ (.unlockTag _)) | .user _ _ (.send _ (.unlockTag _))
  | .user _ _ (.awake _ (.unlockTag _)) | .delete _ _ _ _ (.unlockError _) => 1
  | _ => 0

/-- What a call without permission can do. -/
structure Powerless (s : State) (c : CallId) (tag : ℤ) (euid : ℕ) : Prop where
  /-- It returns `-EPERM`, or 0 if it is a deletion whose trylock fails, and copies nothing. -/
  result : (s.thread c).returned = true → (s.thread c).result = some (-EPERM, []) ∨
    (s.thread c).deletes = true ∧ (s.thread c).result = some (0, [])
  /-- Its next operation brings it closer to its return, and changes nothing but `tag_lock`. -/
  quiet : ∀ o s', Barred c tag euid s c o → Service.step s c o = some s' →
    (∃ l, s'.mem = s.mem.setLock (.tag tag.toNat) l) ∧ (∀ d, d ≠ c → s'.thread d = s.thread d) ∧
      (s'.thread c).left < (s.thread c).left
  /-- It is a failed trylock that lets it return 0. -/
  busy : ∀ o s', Barred c tag euid s c o → Service.step s c o = some s' →
    (s'.thread c).result = some (0, []) → (s.mem.lock (.tag tag.toNat)).downWrite c = none
  /-- Nothing keeps it waiting once it has `tag_lock`. -/
  goes : (s.thread c).lockHeld ≠ none → ∃ s', Service.step s c .go = some s'

/-! ## Phases

Up to the refusal the four calls do the same: they take `tag_lock`, load the tag, compare the owner,
release `tag_lock` and return.  They differ in the mode of the lock and in the points of their code,
so the phases are given once and mapped to the points of each call. -/

/-- The phases of a call that is refused.  `y` is the tag it has loaded. -/
inductive Phase
  | start
  | lock
  | load
  | check (y : TagAddr)
  | refuse
  | done (rc : ℤ)

/-- The points of a call on a tag that correspond to the phases. -/
def point : TagAos.Thread → Phase → TagAos.Thread
  | .receive a _, .load => .receive a .loadTag
  | .receive a _, .check _ => .receive a .checkPerm
  | .receive a _, .refuse => .receive a (.unlockTag (.error EPERM))
  | .receive a _, .done rc => .receive a (.done ⟨none, rc, []⟩)
  | .receive a _, _ => .receive a .start
  | .send b _, .load => .send b .loadTag
  | .send b _, .check _ => .send b .checkPerm
  | .send b _, .refuse => .send b (.unlockTag (-EPERM))
  | .send b _, .done rc => .send b (.done rc)
  | .send b _, _ => .send b .start
  | .awake e _, .load => .awake e .loadTag
  | .awake e _, .check _ => .awake e .checkPerm
  | .awake e _, .refuse => .awake e (.unlockTag (-EPERM))
  | .awake e _, .done rc => .awake e (.done rc)
  | .awake e _, _ => .awake e .start

/-- The call on the descriptor `tag` by a caller with the effective uid `euid` is in a phase, and
takes `tag_lock` in the mode `md`. -/
inductive InPhase (tag : ℤ) (euid : ℕ) : Mode → Thread → Phase → Prop
  | userLock {x : Option TagAddr} {t : TagAos.Thread}
      (h : userRequest tag t = some (tag, euid)) :
      InPhase tag euid .read (.user tag x (point t .lock)) .lock
  | userLoad {x : Option TagAddr} {t : TagAos.Thread}
      (h : userRequest tag t = some (tag, euid)) :
      InPhase tag euid .read (.user tag x (point t .load)) .load
  | userCheck {y : TagAddr} {t : TagAos.Thread}
      (h : userRequest tag t = some (tag, euid)) :
      InPhase tag euid .read (.user tag (some y) (point t (.check y))) (.check y)
  | userRefuse {x : Option TagAddr} {t : TagAos.Thread}
      (h : userRequest tag t = some (tag, euid)) :
      InPhase tag euid .read (.user tag x (point t .refuse)) .refuse
  | userDone {x : Option TagAddr} {t : TagAos.Thread}
      (h : userRequest tag t = some (tag, euid)) :
      InPhase tag euid .read (.user tag x (point t (.done (-EPERM)))) (.done (-EPERM))
  | deleteStart {x : Option TagAddr} {i : ℕ} (h : validTag tag = true) :
      InPhase tag euid .write (.delete tag euid x i .start) .start
  | deleteLock {x : Option TagAddr} {i : ℕ} :
      InPhase tag euid .write (.delete tag euid x i .tryLock) .lock
  | deleteLoad {x : Option TagAddr} {i : ℕ} :
      InPhase tag euid .write (.delete tag euid x i .loadTag) .load
  | deleteCheck {y : TagAddr} {i : ℕ} {e : Registry.Entry} (h : e.checkPerm euid = true) :
      InPhase tag euid .write (.delete tag euid (some y) i (.checkPerm e)) (.check y)
  | deleteRefuse {x : Option TagAddr} {i : ℕ} :
      InPhase tag euid .write (.delete tag euid x i (.unlockError (-EPERM))) .refuse
  | deleteDone {x : Option TagAddr} {i : ℕ} {rc : ℤ} (h : rc = -EPERM ∨ rc = 0) :
      InPhase tag euid .write (.delete tag euid x i (.done rc)) (.done rc)

/-- What a call that is refused does in each phase. -/
inductive PhaseStep (c : CallId) (tag : ℤ) (md : Mode) (m : Mem) : Phase → Mem → Phase → Prop
  | start : PhaseStep c tag md m .start m .lock
  | lock {s : RwSem CallId} (h : (m.lock (.tag tag.toNat)).acquire md c = some s) :
      PhaseStep c tag md m .lock (m.setLock (.tag tag.toNat) s) .load
  /-- The trylock of a deletion fails. -/
  | busy (hmd : md = .write) (h : (m.lock (.tag tag.toNat)).acquire md c = none) :
      PhaseStep c tag md m .lock m (.done 0)
  | load {y : TagAddr} (h : m.tags tag.toNat = some y) : PhaseStep c tag md m .load m (.check y)
  | check {y : TagAddr} : PhaseStep c tag md m (.check y) m .refuse
  | unlock :
      PhaseStep c tag md m .refuse
        (m.setLock (.tag tag.toNat) ((m.lock (.tag tag.toNat)).release md c)) (.done (-EPERM))

/-! ## The code of a call that is refused

The one place where the code of the calls is looked at.  What is said about refused calls later on
is said about phases. -/

section Code

variable {tag : ℤ} {euid : ℕ} {t : TagAos.Thread}

theorem code_lock (h : userRequest tag t = some (tag, euid)) :
    ∃ intr, userCode tag (point t .lock) = .downRead .tag (point t .load) intr := by
  cases t with
  | receive a p =>
    simp only [userRequest, Option.ite_none_right_eq_some, Bool.and_eq_true] at h
    exact ⟨_, by simp [userCode, point, TagAos.Thread.idle, h.1.1, TagAos.Thread.code, receiveCode,
      h.1.2, Instr.map]; rfl⟩
  | send b p =>
    simp only [userRequest, Option.ite_none_right_eq_some, Bool.and_eq_true] at h
    exact ⟨_, by simp [userCode, point, TagAos.Thread.idle, h.1.1, TagAos.Thread.code, sendCode,
      h.1.2, Instr.map]; rfl⟩
  | awake e p =>
    simp only [userRequest, Option.ite_none_right_eq_some] at h
    exact ⟨_, by simp [userCode, point, TagAos.Thread.idle, h.1, TagAos.Thread.code, awakeCode,
      Instr.map]; rfl⟩

theorem code_load (tag : ℤ) (y : TagAddr) (t : TagAos.Thread) :
    ∃ null, userCode tag (point t .load) = .loadTags null (point t (.check y)) := by
  cases t <;> exact ⟨_, rfl⟩

theorem code_check {y : TagAddr} (h : userRequest tag t = some (tag, euid)) :
    ∃ granted, userCode tag (point t (.check y)) = .checkPerm euid (point t .refuse) granted := by
  cases t <;>
  · simp only [userRequest, Option.ite_none_right_eq_some, Option.some.injEq,
      Prod.mk.injEq] at h
    rw [← h.2.2]
    exact ⟨_, rfl⟩

theorem code_refuse (tag : ℤ) (t : TagAos.Thread) :
    userCode tag (point t .refuse) = .upRead .tag (point t (.done (-EPERM))) := by
  cases t <;> rfl

theorem code_done (tag rc : ℤ) (t : TagAos.Thread) : userCode tag (point t (.done rc)) = .ret := by
  cases t <;> rfl

end Code

section Step

variable {s s' : State} {c : CallId} {o : Outcome} {tag : ℤ} {euid : ℕ} {md : Mode} {ph : Phase}

theorem Denies.checkPerm {m : Mem} {y : TagAddr} (h : Denies m y euid) :
    (m.obj y).checkPerm euid = true := by
  simp [TagAos.Mem.checkPerm, h.permission, h.root, Ne.symm h.creator]

theorem Denies.entry {m : Mem} {y : TagAddr} (h : Denies m y euid) :
    (m.entry y).checkPerm euid = true := by
  simp [Registry.Entry.checkPerm, Mem.entry, h.permission, h.root, Ne.symm h.creator]

theorem Mem.setObj_self (m : Mem) (y : TagAddr) : m.setObj y (m.obj y) = m := by
  simp [Mem.setObj]

theorem step_user {x : Option TagAddr} {t : TagAos.Thread} (hc : s.thread c = .user tag x t)
    (hs : Service.step s c o = some s') :
    ∃ r, execOn c s.mem tag.toNat x (userCode tag t) o = some r ∧
      s' = s.set c r.1 (.user tag r.2.1 r.2.2) := by
  simp only [Service.step, hc, Option.map_eq_some_iff] at hs
  obtain ⟨r, hr, rfl⟩ := hs
  exact ⟨r, hr, rfl⟩

theorem step_delete {x : Option TagAddr} {i : ℕ} {p : DeleteState}
    (hc : s.thread c = .delete tag euid x i p) (hs : Service.step s c o = some s') :
    ∃ r, deleteStep c s.mem tag euid x i p o = some r ∧
      s' = s.set c r.1 (.delete tag euid r.2.1 r.2.2.1 r.2.2.2) := by
  simp only [Service.step, hc, Option.map_eq_some_iff] at hs
  obtain ⟨r, hr, rfl⟩ := hs
  exact ⟨r, hr, rfl⟩

/-- Short of a signal, the environment has no choice in what a call that is refused does. -/
theorem InPhase.go (hp : InPhase tag euid md (s.thread c) ph) (ho : o ≠ .signal)
    (hs : Service.step s c o = some s') : o = .go := by
  generalize ht : s.thread c = u at hp
  cases hp with
  | userLock h =>
    obtain ⟨intr, hcode⟩ := code_lock h
    obtain ⟨r, hr, -⟩ := step_user ht hs
    rw [hcode] at hr
    cases o <;> first | rfl | exact absurd rfl ho | simp [execOn, inTag] at hr
  | @userLoad x t h =>
    obtain ⟨null, hcode⟩ := code_load tag 0 t
    obtain ⟨r, hr, -⟩ := step_user ht hs
    rw [hcode] at hr
    cases o <;> first | rfl | exact absurd rfl ho | simp [execOn, inTag] at hr
  | @userCheck y t h =>
    obtain ⟨granted, hcode⟩ := code_check (y := y) h
    obtain ⟨r, hr, -⟩ := step_user ht hs
    rw [hcode, execOn_of_inTag rfl] at hr
    cases o <;> first | rfl | exact absurd rfl ho | simp [exec] at hr
  | userRefuse h =>
    obtain ⟨r, hr, -⟩ := step_user ht hs
    rw [code_refuse] at hr
    cases o <;> first | rfl | exact absurd rfl ho | simp [execOn, inTag] at hr
  | userDone h =>
    obtain ⟨r, hr, -⟩ := step_user ht hs
    rw [code_done] at hr
    cases o <;> simp [execOn, inTag] at hr
  | _ =>
    obtain ⟨r, hr, -⟩ := step_delete ht hs
    cases o <;> first
      | rfl
      | exact absurd rfl ho
      | simp [deleteStep, registryOutcome, Registry.deleteStep] at hr

/-- A refused call on a tag, in every phase. -/
theorem InPhase.step_user (hp : InPhase tag euid .read (s.thread c) ph) (ho : o ≠ .signal)
    (hload : ph = .load → Forbidden s.mem tag euid)
    (hcheck : ∀ y, ph = .check y → Denies s.mem y euid) (hs : Service.step s c o = some s') :
    ∃ ph', InPhase tag euid .read (s'.thread c) ph' ∧
      PhaseStep c tag .read s.mem ph s'.mem ph' := by
  obtain rfl := hp.go ho hs
  generalize ht : s.thread c = u at hp
  cases hp with
  | @userLock x t h =>
    obtain ⟨intr, hcode⟩ := code_lock h
    obtain ⟨r, hr, rfl⟩ := step_user ht hs
    rw [hcode, execOn, Option.map_eq_some_iff] at hr
    obtain ⟨sem, hsem, rfl⟩ := hr
    refine ⟨.load, ?_, .lock hsem⟩
    rw [Config.set_thread_self]
    exact .userLoad h
  | @userLoad x t h =>
    obtain ⟨y, hy, -⟩ := hload rfl
    obtain ⟨null, hcode⟩ := code_load tag y t
    obtain ⟨r, hr, rfl⟩ := step_user ht hs
    simp only [hcode, execOn, hy, Option.some.injEq] at hr
    subst hr
    refine ⟨.check y, ?_, .load hy⟩
    rw [Config.set_thread_self]
    exact .userCheck h
  | @userCheck y t h =>
    obtain ⟨granted, hcode⟩ := code_check (y := y) h
    obtain ⟨r, hr, rfl⟩ := step_user ht hs
    rw [hcode, execOn_of_inTag rfl] at hr
    simp only [exec, Option.bind_some, Option.map_some, Option.some.injEq,
      (hcheck y rfl).checkPerm, if_true, Mem.setObj_self] at hr
    subst hr
    refine ⟨.refuse, ?_, .check⟩
    rw [Config.set_thread_self]
    exact .userRefuse h
  | @userRefuse x t h =>
    obtain ⟨r, hr, rfl⟩ := step_user ht hs
    simp only [code_refuse, execOn, Option.some.injEq] at hr
    subst hr
    refine ⟨.done (-EPERM), ?_, .unlock⟩
    rw [Config.set_thread_self]
    exact .userDone h
  | @userDone x t h =>
    obtain ⟨r, hr, rfl⟩ := step_user ht hs
    simp [code_done, execOn, inTag] at hr

/-- A refused deletion, in every phase. -/
theorem InPhase.step_delete (hp : InPhase tag euid .write (s.thread c) ph) (ho : o ≠ .signal)
    (hload : ph = .load → Forbidden s.mem tag euid) (hs : Service.step s c o = some s') :
    ∃ ph', InPhase tag euid .write (s'.thread c) ph' ∧
      PhaseStep c tag .write s.mem ph s'.mem ph' := by
  obtain rfl := hp.go ho hs
  generalize ht : s.thread c = u at hp
  cases hp with
  | @deleteStart x i h =>
    obtain ⟨r, hr, rfl⟩ := step_delete ht hs
    have hrange : ¬ (tag < 0 ∨ (Registry.maxTags : ℤ) ≤ tag) := by
      simp only [validTag, Bool.and_eq_true, decide_eq_true_eq] at h
      omega
    simp only [deleteStep, registryOutcome, Registry.deleteStep, Option.bind_some,
      Option.map_some, Option.some.injEq, if_neg hrange] at hr
    subst hr
    refine ⟨.lock, ?_, .start⟩
    rw [Config.set_thread_self]
    exact .deleteLock
  | @deleteLock x i =>
    obtain ⟨r, hr, rfl⟩ := step_delete ht hs
    simp only [deleteStep, registryOutcome, Registry.deleteStep, Option.bind_some,
      Registry.Mem.downWrite] at hr
    cases hsem : (s.mem.lock (.tag tag.toNat)).downWrite c with
    | some sem =>
      rw [show (s.mem.registry.sem (.tag tag.toNat)).downWrite c = some sem from hsem] at hr
      cases hr
      refine ⟨.load, ?_, .lock hsem⟩
      rw [Config.set_thread_self]
      exact .deleteLoad
    | none =>
      rw [show (s.mem.registry.sem (.tag tag.toNat)).downWrite c = none from hsem] at hr
      cases hr
      refine ⟨.done 0, ?_, .busy rfl hsem⟩
      rw [Config.set_thread_self]
      exact .deleteDone (.inr rfl)
  | @deleteLoad x i =>
    obtain ⟨y, hy, hdenies⟩ := hload rfl
    obtain ⟨r, hr, rfl⟩ := step_delete ht hs
    simp only [deleteStep, hy, Option.some.injEq] at hr
    subst hr
    refine ⟨.check y, ?_, .load hy⟩
    rw [Config.set_thread_self]
    exact .deleteCheck hdenies.entry
  | @deleteCheck y i e h =>
    obtain ⟨r, hr, rfl⟩ := step_delete ht hs
    simp only [deleteStep, registryOutcome, Registry.deleteStep, Option.bind_some,
      Option.map_some, Option.some.injEq, h, if_true] at hr
    subst hr
    refine ⟨.refuse, ?_, .check⟩
    rw [Config.set_thread_self]
    exact .deleteRefuse
  | @deleteRefuse x i =>
    obtain ⟨r, hr, rfl⟩ := step_delete ht hs
    simp only [deleteStep, registryOutcome, Registry.deleteStep, Option.bind_some,
      Option.map_some, Option.some.injEq] at hr
    subst hr
    refine ⟨.done (-EPERM), ?_, .unlock⟩
    rw [Config.set_thread_self]
    exact .deleteDone (.inl rfl)
  | @deleteDone x i rc h =>
    obtain ⟨r, hr, rfl⟩ := step_delete ht hs
    simp [deleteStep, registryOutcome, Registry.deleteStep] at hr

/-- **A call that is refused goes from phase to phase.** -/
theorem InPhase.step (hp : InPhase tag euid md (s.thread c) ph) (ho : o ≠ .signal)
    (hload : ph = .load → Forbidden s.mem tag euid)
    (hcheck : ∀ y, ph = .check y → Denies s.mem y euid) (hs : Service.step s c o = some s') :
    ∃ ph', InPhase tag euid md (s'.thread c) ph' ∧ PhaseStep c tag md s.mem ph s'.mem ph' := by
  cases md with
  | read => exact hp.step_user ho hload hcheck hs
  | write => exact hp.step_delete ho hload hs

/-- A tag that denies a user goes on to do so: permission and owner are assigned once. -/
theorem Denies.step {y : TagAddr} (h : Denies s.mem y euid) (hy : y < s.mem.brk)
    (hs : Step s c s') : Denies s'.mem y euid := by
  have he := hs.entry hy
  exact ⟨(congrArg Registry.Entry.permission he).trans h.permission, h.root,
    fun hu => h.creator (hu.trans (congrArg Registry.Entry.euid he))⟩

/-- A call that has not begun is in its first phase. -/
theorem inPhase_of_idle {t : Thread} (hidle : t.idle = true)
    (hreq : t.request = some (tag, euid)) :
    ∃ md ph, InPhase tag euid md t ph ∧ (ph = .start ∨ ph = .lock) := by
  cases t with
  | get | read => cases hreq
  | user tag' x t =>
    have htag : tag' = tag := by
      cases t <;>
      · simp only [Thread.request, userRequest, Option.ite_none_right_eq_some, Option.some.injEq,
          Prod.mk.injEq] at hreq
        exact hreq.2.1
    subst htag
    have ht : t = point t .lock := by
      cases t with
      | receive a p => cases p <;> first | rfl | cases hidle
      | send b p => cases p <;> first | rfl | cases hidle
      | awake e p => cases p <;> first | rfl | cases hidle
    rw [ht]
    exact ⟨.read, .lock, .userLock hreq, .inr rfl⟩
  | delete tag' e x i p =>
    simp only [Thread.request, Option.ite_none_right_eq_some, Option.some.injEq,
      Prod.mk.injEq] at hreq
    obtain ⟨hv, rfl, rfl⟩ := hreq
    cases p
    case start => exact ⟨.write, .start, .deleteStart hv, .inl rfl⟩
    all_goals cases hidle

theorem InPhase.loads {t : Thread} (h : InPhase tag euid md t .load) : t.loads = true := by
  generalize hph : Phase.load = ph at h
  cases h with
  | @userLoad x t => cases t <;> rfl
  | deleteLoad => rfl
  | _ => cases hph

/-- The call is refused, or on its way to it. -/
def Refusing (s : State) (c : CallId) (tag : ℤ) (euid : ℕ) (md : Mode) (ph : Phase) : Prop :=
  InPhase tag euid md (s.thread c) ph ∧ ∀ y, ph = .check y → y < s.mem.brk ∧ Denies s.mem y euid

theorem Step.brk_le (hs : Step s c s') : s.mem.brk ≤ s'.mem.brk := by
  cases hs.addr with
  | same brk | store _ _ _ brk => exact brk.ge
  | alloc brk => exact brk ▸ Nat.le_succ _

/-- What a call that is refused does next. -/
theorem Refusing.move (h : Refusing s c tag euid md ph) (hb : Bounds s)
    (hbar : Barred c tag euid s c o) (hs : Service.step s c o = some s') :
    ∃ ph', Refusing s' c tag euid md ph' ∧ PhaseStep c tag md s.mem ph s'.mem ph' := by
  obtain ⟨hp, hcheck⟩ := h
  obtain ⟨ho, hload⟩ := hbar rfl
  have hforb : ph = .load → Forbidden s.mem tag euid := by
    rintro rfl
    exact hload hp.loads
  obtain ⟨ph', hp', hps⟩ := hp.step ho hforb (fun y hy => (hcheck y hy).2) hs
  refine ⟨ph', ⟨hp', ?_⟩, hps⟩
  rintro y rfl
  generalize s'.mem = m at hps ⊢
  cases hps with
  | load hy =>
    obtain ⟨z, hz, hdenies⟩ := hforb rfl
    obtain rfl := Option.some.inj (hy.symm.trans hz)
    exact ⟨hb.tags _ _ hz, hdenies⟩

/-- A step of another call, or of this one, leaves it on its way to being refused, as long as the
tag denies its user whenever it looks. -/
theorem Refusing.step {d : CallId} (h : ∃ ph, Refusing s c tag euid md ph) (hb : Bounds s)
    (hbar : Barred c tag euid s d o) (hs : Service.step s d o = some s') :
    ∃ ph, Refusing s' c tag euid md ph := by
  obtain ⟨ph, h⟩ := h
  by_cases hdc : d = c
  · subst hdc
    obtain ⟨ph', h', -⟩ := h.move hb hbar hs
    exact ⟨ph', h'⟩
  · have hstep : Step s d s' := ⟨o, hs⟩
    obtain ⟨hp, hcheck⟩ := h
    refine ⟨ph, by rwa [hstep.thread_of_ne (Ne.symm hdc)], fun y hy => ?_⟩
    obtain ⟨hlt, hdenies⟩ := hcheck y hy
    exact ⟨lt_of_lt_of_le hlt hstep.brk_le, hdenies.step hlt hstep⟩

end Step

/-! ## A refused call from the outside

The phases follow each other without a branch, and the memory of the tag is not assigned in any of
them.  So the call comes to its end by itself, and a run with the call in it can be made into a run
without it. -/

/-- A bound on the operations that a call has left in each phase. -/
def Phase.left : Phase → ℕ
  | .start => 5
  | .lock => 4
  | .load => 3
  | .check _ => 2
  | .refuse => 1
  | .done _ => 0

/-- The call has `tag_lock`. -/
def Phase.holds : Phase → Bool
  | .load | .check _ | .refuse => true
  | _ => false

section Outside

variable {tag : ℤ} {euid : ℕ} {md : Mode} {ph ph' : Phase} {t : Thread} {m m' m'' : Mem}
  {c : CallId}

theorem InPhase.left (h : InPhase tag euid md t ph) : t.left = ph.left := by
  cases h
  case userLock t h | userLoad t h | userCheck t h | userRefuse t h | userDone t h =>
    cases t <;> rfl
  all_goals rfl

theorem InPhase.lockHeld (h : InPhase tag euid md t ph) :
    t.lockHeld = if ph.holds then some (.tag tag.toNat, md) else none := by
  cases h
  case userLock t h | userLoad t h | userCheck t h | userRefuse t h | userDone t h =>
    cases t <;> rfl
  all_goals rfl

theorem InPhase.returned (h : InPhase tag euid md t ph) (hr : t.returned = true) :
    ∃ rc, ph = .done rc := by
  cases h
  case userLock t h | userLoad t h | userCheck t h | userRefuse t h => cases t <;> cases hr
  case userDone | deleteDone => exact ⟨_, rfl⟩
  all_goals cases hr

/-- What a refused call returns: `-EPERM`, or 0 for a deletion whose trylock has failed. -/
theorem InPhase.result {rc : ℤ} (h : InPhase tag euid md t (.done rc)) :
    t.result = some (rc, []) ∧ (rc = -EPERM ∨ t.deletes = true ∧ rc = 0) := by
  cases h with
  | @userDone x t h => cases t <;> exact ⟨rfl, .inl rfl⟩
  | deleteDone h => exact ⟨rfl, h.imp_right fun h => ⟨rfl, h⟩⟩

theorem InPhase.result_done {r : ℤ × List UInt8} (h : InPhase tag euid md t ph)
    (hr : t.result = some r) : ph = .done r.1 := by
  cases h
  case userLock t h | userLoad t h | userCheck t h | userRefuse t h => cases t <;> cases hr
  case userDone t h => cases t <;> cases hr <;> rfl
  case deleteDone => cases hr; rfl
  all_goals cases hr

/-- Each of its steps leaves less to do. -/
theorem PhaseStep.left (h : PhaseStep c tag md m ph m' ph') : ph'.left < ph.left := by
  cases h <;> simp [Phase.left]

theorem Mem.setLock_self (m : Mem) (l : Lock) : m.setLock l (m.lock l) = m := by
  simp [Mem.setLock]

theorem Mem.setLock_setLock (m : Mem) (l : Lock) (r r' : RwSem CallId) :
    (m.setLock l r).setLock l r' = m.setLock l r' := by simp [Mem.setLock]

/-- All that its steps change is the lock of the descriptor. -/
theorem PhaseStep.mem (h : PhaseStep c tag md m ph m' ph') :
    ∃ l, m' = m.setLock (.tag tag.toNat) l := by
  cases h with
  | lock | unlock => exact ⟨_, rfl⟩
  | _ => exact ⟨_, (m.setLock_self _).symm⟩

/-- A deletion returns 0 on this way only when the lock is taken. -/
theorem PhaseStep.busy_of_done (h : PhaseStep c tag md m ph m' (.done 0)) :
    (m.lock (.tag tag.toNat)).downWrite c = none := by
  generalize hd : Phase.done 0 = ph' at h
  cases h with
  | busy hmd h => subst hmd; exact h
  | unlock => cases hd
  | _ => cases hd

/-- All that a call which runs by itself has changed is `tag_lock`, which it has acquired. -/
structure Traced (m : Mem) (c : CallId) (tag : ℤ) (md : Mode) (ph : Phase) (m' : Mem) : Prop where
  out : ph.holds = false → m' = m
  held : ph.holds = true → ∃ r, (m.lock (.tag tag.toNat)).acquire md c = some r ∧
    m' = m.setLock (.tag tag.toNat) r

theorem Traced.forbidden (h : Traced m c tag md ph m') (hf : Forbidden m tag euid) :
    Forbidden m' tag euid := by
  cases hh : ph.holds with
  | false => rwa [h.out hh]
  | true =>
    obtain ⟨r, -, rfl⟩ := h.held hh
    obtain ⟨y, hy, hdenies⟩ := hf
    exact ⟨y, hy, hdenies.permission, hdenies.root, hdenies.creator⟩

/-- The call has changed nothing but the lock, and holds it exactly where its phase says so. -/
theorem Traced.step (h : Traced m c tag md ph m') (hn : ¬ (m.lock (.tag tag.toNat)).Holds c md)
    (hs : PhaseStep c tag md m' ph m'' ph') : Traced m c tag md ph' m'' := by
  cases hs with
  | start | busy => exact ⟨fun _ => h.out rfl, nofun⟩
  | lock hr =>
    obtain rfl := h.out rfl
    exact ⟨nofun, fun _ => ⟨_, hr, rfl⟩⟩
  | load | check => exact ⟨nofun, fun _ => h.held rfl⟩
  | unlock =>
    obtain ⟨r, hr, rfl⟩ := h.held rfl
    refine ⟨fun _ => ?_, nofun⟩
    rw [Mem.setLock_setLock]
    simp only [Mem.setLock, Function.update_self, RwSem.release_acquire hr hn,
      Function.update_eq_self]

end Outside

section Runs

variable {s₀ s s' : State} {c : CallId} {o : Outcome} {tag : ℤ} {euid : ℕ} {md : Mode}
  {ph : Phase}

/-- Nothing keeps a call waiting once it has `tag_lock`. -/
theorem InPhase.goes (h : InPhase tag euid md (s.thread c) ph) (hh : ph.holds = true) :
    ∃ s', Service.step s c .go = some s' := by
  generalize ht : s.thread c = u at h
  cases h
  case userLoad x t h =>
    obtain ⟨null, hcode⟩ := code_load tag 0 t
    simp only [Service.step, ht, hcode, execOn]
    split <;> exact ⟨_, rfl⟩
  case userCheck y t h =>
    obtain ⟨granted, hcode⟩ := code_check (y := y) h
    simp only [Service.step, ht, hcode, execOn, exec, inTag, if_true]
    exact ⟨_, rfl⟩
  case userRefuse x t h =>
    simp only [Service.step, ht, code_refuse, execOn]
    exact ⟨_, rfl⟩
  case deleteLoad x i =>
    simp only [Service.step, ht, deleteStep]
    split <;> exact ⟨_, rfl⟩
  case deleteCheck | deleteRefuse =>
    simp only [Service.step, ht, deleteStep, registryOutcome, Registry.deleteStep]
    exact ⟨_, rfl⟩
  all_goals cases hh

/-- A call that is refused is powerless. -/
theorem Powerless.of_refusing (h : Refusing s c tag euid md ph) (hb : Bounds s) :
    Powerless s c tag euid where
  result hr := by
    obtain ⟨rc, rfl⟩ := h.1.returned hr
    obtain ⟨hres, rfl | ⟨hdel, rfl⟩⟩ := h.1.result
    · exact .inl hres
    · exact .inr ⟨hdel, hres⟩
  quiet o s' hbar hs := by
    obtain ⟨ph', h', hps⟩ := h.move hb hbar hs
    refine ⟨hps.mem, fun d hd => Step.thread_of_ne ⟨o, hs⟩ hd, ?_⟩
    rw [h.1.left, h'.1.left]
    exact hps.left
  busy o s' hbar hs hr := by
    obtain ⟨ph', h', hps⟩ := h.move hb hbar hs
    obtain rfl := h'.1.result_done hr
    exact hps.busy_of_done
  goes hl := by
    refine h.1.goes ?_
    rw [h.1.lockHeld] at hl
    by_contra hh
    exact hl (if_neg hh)

/-- A call that has not begun is at the beginning of the way. -/
theorem refusing_of_idle (hidle : (s.thread c).idle = true)
    (hreq : (s.thread c).request = some (tag, euid)) :
    ∃ md ph, Refusing s c tag euid md ph ∧ ph.holds = false := by
  obtain ⟨md, ph, hp, rfl | rfl⟩ := inPhase_of_idle hidle hreq
  · exact ⟨md, _, ⟨hp, nofun⟩, rfl⟩
  · exact ⟨md, _, ⟨hp, nofun⟩, rfl⟩

theorem Reachable.within {A : State → CallId → Outcome → Prop} (h : Reachable s₀)
    (hr : Run (MovesWithin A Service.step) s₀ s) : Reachable s := h.run (run_of_within hr)

/-- A call that runs in one go and is refused leaves no trace. -/
theorem Whole.quiet (hr : Reachable s) (h : Whole s c s') :
    s'.mem = s.mem ∧ ∀ d, d ≠ c → s'.thread d = s.thread d := by
  obtain ⟨tag, euid, hreq, hforb⟩ := h.request
  obtain ⟨md, ph, hstart, hout⟩ := refusing_of_idle h.idle hreq
  have hn : ¬ (s.mem.lock (.tag tag.toNat)).Holds c md := by
    rw [hr.locks, Thread.lockHeld_of_idle h.idle]
    nofun
  have hinv : ∃ ph, Refusing s' c tag euid md ph ∧ Traced s.mem c tag md ph s'.mem ∧
      ∀ d, d ≠ c → s'.thread d = s.thread d := by
    refine h.run.invariant_run (P := fun t => ∃ ph, Refusing t c tag euid md ph ∧
      Traced s.mem c tag md ph t.mem ∧ ∀ d, d ≠ c → t.thread d = s.thread d)
      ⟨ph, hstart, ⟨fun _ => rfl, fun hh => ?_⟩, fun _ _ => rfl⟩ ?_
    · rw [hout] at hh
      cases hh
    · rintro u d v hu ⟨ph, href, htrace, hothers⟩ - ⟨o, ⟨rfl, ho⟩, hs⟩
      have hbar : Barred d tag euid u d o := fun _ => ⟨ho, fun _ => htrace.forbidden hforb⟩
      obtain ⟨ph', href', hps⟩ := href.move (hr.within hu).bounds hbar hs
      exact ⟨ph', href', htrace.step hn hps,
        fun e he => (Step.thread_of_ne ⟨o, hs⟩ he).trans (hothers e he)⟩
  obtain ⟨ph, href, htrace, hothers⟩ := hinv
  obtain ⟨rc, rfl⟩ := href.1.returned h.returned
  exact ⟨htrace.out rfl, hothers⟩

/-- A step reads and changes the memory and its own call. -/
theorem step_local : Local Step where
  frame hs hd := hs.thread_of_ne hd
  replay := by
    rintro s s' t c ⟨o, ho⟩ hmem hthread
    refine ⟨o, ?_⟩
    simp only [Service.step, hmem, hthread] at ho ⊢
    split at ho <;>
    · obtain ⟨r, hr, rfl⟩ := Option.map_eq_some_iff.1 ho
      simp [hr]

/-- **A caller without permission is powerless, and a call of his that runs in one go can be left
out.** -/
theorem powerless (h : Reachable s₀) :
    (∀ c tag euid, (s₀.thread c).idle = true → (s₀.thread c).request = some (tag, euid) →
      ∀ s, Run (MovesWithin (Barred c tag euid) Service.step) s₀ s → Powerless s c tag euid) ∧
    ∀ U s, Run (Apart Step Whole U) s₀ s →
      ∃ t, RunUnder Step (fun _ c => c ∉ U) s₀ t ∧ t.mem = s.mem ∧
        ∀ c, c ∉ U → t.thread c = s.thread c := by
  constructor
  · intro c tag euid hidle hreq s hrun
    obtain ⟨md, ph, hstart, -⟩ := refusing_of_idle hidle hreq
    have href : ∃ ph, Refusing s c tag euid md ph := by
      refine hrun.invariant_run (P := fun s => ∃ ph, Refusing s c tag euid md ph)
        ⟨ph, hstart⟩ ?_
      rintro u d v hu hp - ⟨o, hbar, hs⟩
      exact Refusing.step hp (h.within hu).bounds hbar hs
    obtain ⟨ph, href⟩ := href
    exact .of_refusing href (h.within hrun).bounds
  · intro U s hrun
    refine exists_run_without step_local (P := Reachable) (fun _ _ _ hr hs => hr.step hs)
      (fun s c s' hr hw => ?_) h hrun
    exact ⟨hr.within hw.run, hw.quiet hr⟩

end Runs

/-- Call 0 creates a tag for the uid 7, call 1 sends to it for the uid 9, and the others wake its
receivers for the uid 7. -/
def requests : CallId → Thread
  | 0 => .get ⟨5, Registry.tagCreat, tagPermUsr, 7⟩ none .start
  | 1 => .user 0 none (.send ⟨0, some [42], 1, 9⟩ .start)
  | _ => .user 0 none (.awake 7 .start)

/-- The tag has been created. -/
def owned : State := (State.start requests).after (goes 0 39)

/-- The send has returned. -/
def refused : State := owned.after (goes 1 4)

theorem owned_reachable : Reachable owned :=
  State.reachable_after (fun c => by match c with | 0 | 1 | _ + 2 => rfl)
    (fun c => by match c with | 0 | 1 | _ + 2 => rfl) _

theorem refused_whole : Whole owned 1 refused where
  idle := by decide +kernel
  request := ⟨0, 9, by decide +kernel, by decide +kernel⟩
  run := within_after (fun s c o (h : decide (Solo 1 s c o) = true) => of_decide_eq_true h)
    (by decide +kernel)
  returned := by decide +kernel

/-- A send by another user has been refused, and the run without it leads to the same memory. -/
theorem powerless_refused :
    ((refused.thread 1).result = some (-EPERM, []) ∧ Powerless refused 1 0 9) ∧
      ∃ t, RunUnder Step (fun _ c => c ∉ ({1} : Set CallId)) owned t ∧
        t.mem = (refused.after (goes 2 1)).mem := by
  have h := powerless owned_reachable
  refine ⟨⟨by decide +kernel, h.1 1 0 9 (by decide +kernel) (by decide +kernel) _ ?_⟩, ?_⟩
  · exact within_after
      (fun s c o (h : decide (Barred 1 0 9 s c o) = true) => of_decide_eq_true h)
      (by decide +kernel)
  · have hstep : Step refused 2 (refused.after (goes 2 1)) := ⟨.go, by rfl⟩
    have hrun : Run (Apart Step Whole {1}) owned (refused.after (goes 2 1)) :=
      Run.step (Run.single (.whole rfl refused_whole)) (.step (by decide) hstep)
    obtain ⟨t, hr, hmem, -⟩ := h.2 _ _ hrun
    exact ⟨t, hr, hmem⟩

end TagAos.Service
