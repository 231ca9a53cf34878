import TagAos.Registry.Consistency
import TagAos.Service.DevRead
import TagAos.Tag.Progress

/-!
# The service

`TagAos.Tag.System` follows the calls on one tag that is never deleted, and `TagAos.Registry.Calls`
the creation and deletion of tags that nobody uses.  Here all the calls run on one memory: a call
finds its tag through `tags` under the `tag_lock` of its descriptor, and a deletion takes the tag
out of `tags`, looks at its `waiting`, and frees it with its levels.

Nothing is modelled twice.  A `tag_t` with its levels is a `TagAos.Mem`, and a call that has loaded
it runs its own code there (`execOn`); a `tag_get` and a deletion do what `TagAos.Registry` says
they do to the bitmask, the table and `common_lock`, and only what they do with the addresses of
tags is added (`getStep`, `deleteStep`).  Tags are named by the allocation they come from, so
that an address is not used again.
-/

set_option autoImplicit false

namespace TagAos.Service

open Conc
open Registry (Lock maxTags GetArgs GetState DeleteState)

/-! ## Memory

A `tag_t` and its levels are one `TagAos.Mem`, at an address of their own.  Every instance has an
address of its own too, within its tag, and addresses are not used again when what was there has
been freed; `TagAos.Service.Slab` is the system in which they are. -/

/-- The address of a `tag_t`. -/
abbrev TagAddr := ℕ

/-- The memory of the module. -/
structure Mem where
  /-- `tag_bitmask`. -/
  bitmask : Registry.Bitmask
  /-- `tag_table`. -/
  table : AList fun _ : ℤ => ℕ
  /-- `tags`. -/
  tags : ℕ → Option TagAddr
  /-- `common_lock` and `tag_lock`. -/
  lock : Lock → RwSem CallId
  /-- `key` of a tag. -/
  key : TagAddr → ℤ
  /-- `tag_key` of a tag. -/
  tagKey : TagAddr → ℕ
  /-- The other fields of a tag, and the instances of its levels. -/
  obj : TagAddr → TagAos.Mem
  /-- The address of the next tag. -/
  brk : TagAddr
  /-- How often a deletion has handed an instance of the tag to `free_level`. -/
  cleared : TagAddr → Addr → ℕ
  /-- How often a tag has been freed. -/
  tagFreed : TagAddr → ℕ

namespace Mem

/-- The memory of the module as it is loaded.  No tag has been allocated. -/
def initial : Mem where
  bitmask := Registry.initializeBitmask maxTags
  table := ∅
  tags _ := none
  lock _ := .free
  key _ := 0
  tagKey _ := 0
  obj _ := .fresh 0 0
  brk := 0
  cleared _ _ := 0
  tagFreed _ := 0

/-- The fields of a tag that are assigned once, when it is created. -/
def entry (m : Mem) (x : TagAddr) : Registry.Entry :=
  ⟨m.key x, m.tagKey x, (m.obj x).permission, (m.obj x).euid⟩

/-- What a `tag_get` and a deletion see of it. -/
def registry (m : Mem) : Registry.Mem :=
  ⟨m.bitmask, m.table, fun d => (m.tags d).map m.entry, m.lock⟩

/-- Take over the bitmask, the table and the locks. -/
def withRegistry (m : Mem) (r : Registry.Mem) : Mem :=
  { m with bitmask := r.bitmask, table := r.table, lock := r.sem }

/-- One semaphore after an operation on it. -/
def setLock (m : Mem) (l : Lock) (s : RwSem CallId) : Mem :=
  { m with lock := Function.update m.lock l s }

/-- Assign `tags[d]`. -/
def setTag (m : Mem) (d : ℕ) (x : Option TagAddr) : Mem :=
  { m with tags := Function.update m.tags d x }

/-- One tag after an operation on it. -/
def setObj (m : Mem) (x : TagAddr) (t : TagAos.Mem) : Mem :=
  { m with obj := Function.update m.obj x t }

/-- A new tag with the descriptor `d`, at the next address. -/
def newTag (m : Mem) (a : GetArgs) (d : ℕ) : Mem :=
  { m with
    key := Function.update m.key m.brk a.key
    tagKey := Function.update m.tagKey m.brk d
    obj := Function.update m.obj m.brk (.fresh a.permission a.euid)
    brk := m.brk + 1 }

/-- `free_level` on the instance of level `i` of a tag, if there is one. -/
def clearLevel (m : Mem) (x : TagAddr) (i : ℕ) : Mem :=
  match (m.obj x).tagLevel i with
  | none => m
  | some l =>
    { m with cleared :=
        Function.update m.cleared x (Function.update (m.cleared x) l (m.cleared x l + 1)) }

/-- `kfree` on a tag. -/
def freeTag (m : Mem) (x : TagAddr) : Mem :=
  { m with tagFreed := Function.update m.tagFreed x (m.tagFreed x + 1) }

end Mem

/-! ## Operations of calls that use a tag

A call on a tag runs the code of `TagAos.Tag`.  Two kinds of instructions are about something else
here: those on `tag_lock` and the load of `tags[d]`. -/

section ExecOn

variable {π ρ : Type}

/-- The instruction works on the tag itself: it is neither a local step, nor an access to
`tag_lock` or `tags`. -/
def inTag : Instr π → Bool
  | .jump _ | .loadTags _ _ | .downRead .tag _ _ | .upRead .tag _ | .downWrite .tag _ _
  | .tryWrite .tag _ _ | .upWrite .tag _ | .ret => false
  | _ => true

/-- Run one instruction of the call `c` on the descriptor `d`.  `x` is the local variable
`tag_entry`, which the call declares when it holds `tag_lock[d]`. -/
def execOn (c : CallId) (m : Mem) (d : ℕ) (x : Option TagAddr) :
    Instr π → Outcome → Option (Mem × Option TagAddr × π)
  | .jump p, .go => some (m, x, p)
  | .downRead .tag ok _, .go =>
    ((m.lock (.tag d)).downRead c).map fun s => (m.setLock (.tag d) s, none, ok)
  | .downRead .tag _ intr, .signal => some (m, x, intr)
  | .upRead .tag p, .go => some (m.setLock (.tag d) ((m.lock (.tag d)).upRead c), x, p)
  | .loadTags null found, .go =>
    match m.tags d with
    | none => some (m, none, null)
    | some y => some (m, some y, found)
  | i, o =>
    if inTag i then
      x.bind fun y => (exec c (m.obj y) i o).map fun r => (m.setObj y r.1, x, r.2)
    else none

/-- The ways one instruction of the call `c` on the descriptor `d` can go. -/
inductive ExecOn (c : CallId) (m : Mem) (d : ℕ) (x : Option TagAddr) :
    Instr π → Mem → Option TagAddr → π → Prop
  | jump {p : π} : ExecOn c m d x (.jump p) m x p
  | lockTag {s : RwSem CallId} {ok intr : π} (h : (m.lock (.tag d)).downRead c = some s) :
      ExecOn c m d x (.downRead .tag ok intr) (m.setLock (.tag d) s) none ok
  | lockTagIntr {ok intr : π} : ExecOn c m d x (.downRead .tag ok intr) m x intr
  | unlockTag {p : π} :
      ExecOn c m d x (.upRead .tag p) (m.setLock (.tag d) ((m.lock (.tag d)).upRead c)) x p
  | loadTags {y : TagAddr} {null found : π} (h : m.tags d = some y) :
      ExecOn c m d x (.loadTags null found) m (some y) found
  | loadTagsNull {null found : π} (h : m.tags d = none) :
      ExecOn c m d x (.loadTags null found) m none null
  /-- The instruction works on the tag that has been loaded. -/
  | tag {y : TagAddr} {i : Instr π} {t : TagAos.Mem} {p : π} (hi : inTag i = true)
      (hx : x = some y) (h : Exec c (m.obj y) i t p) : ExecOn c m d x i (m.setObj y t) x p

/-- Whatever `execOn` does is one of the ways `ExecOn` lists. -/
theorem ExecOn.of_execOn {c : CallId} {m m' : Mem} {d : ℕ} {x x' : Option TagAddr} {i : Instr π}
    {o : Outcome} {p : π} (h : execOn c m d x i o = some (m', x', p)) :
    ExecOn c m d x i m' x' p := by
  unfold execOn at h
  split at h
  case h_1 => cases h; exact .jump
  case h_2 =>
    simp only [Option.map_eq_some_iff, Prod.mk.injEq] at h
    obtain ⟨s, hs, rfl, rfl, rfl⟩ := h
    exact .lockTag hs
  case h_3 => cases h; exact .lockTagIntr
  case h_4 => cases h; exact .unlockTag
  case h_5 =>
    split at h
    · rename_i ht; cases h; exact .loadTagsNull ht
    · rename_i ht; cases h; exact .loadTags ht
  case h_6 =>
    split_ifs at h with hi
    simp only [Option.bind_eq_some_iff, Option.map_eq_some_iff, Prod.mk.injEq] at h
    obtain ⟨y, hy, ⟨t, q⟩, hx, rfl, rfl, rfl⟩ := h
    exact .tag hi hy (Exec.of_exec hx)

/-- Where a call may go on. -/
theorem ExecOn.next {c : CallId} {m m' : Mem} {d : ℕ} {x x' : Option TagAddr} {i : Instr π}
    {p : π} (h : ExecOn c m d x i m' x' p) : i.Next p := by
  cases h with
  | jump | unlockTag => rfl
  | lockTag | loadTagsNull => exact .inl rfl
  | lockTagIntr | loadTags => exact .inr rfl
  | tag _ _ h => exact h.next

theorem inTag_map (f : π → ρ) (i : Instr π) : inTag (i.map f) = inTag i := by
  cases i
  case downRead l _ _ | upRead l _ | downWrite l _ _ | tryWrite l _ _ | upWrite l _ =>
    cases l <;> rfl
  all_goals rfl

theorem execOn_of_inTag {c : CallId} {m : Mem} {d : ℕ} {x : Option TagAddr} {i : Instr π}
    (h : inTag i = true) (o : Outcome) :
    execOn c m d x i o =
      x.bind fun y => (exec c (m.obj y) i o).map fun r => (m.setObj y r.1, x, r.2) := by
  unfold execOn
  split <;> first | cases h | rw [if_pos h]

/-- Renaming the local states does not change what an instruction does. -/
theorem execOn_map (f : π → ρ) (c : CallId) (m : Mem) (d : ℕ) (x : Option TagAddr) (i : Instr π)
    (o : Outcome) :
    execOn c m d x (i.map f) o = (execOn c m d x i o).map fun r => (r.1, r.2.1, f r.2.2) := by
  cases hi : inTag i with
  | true =>
    rw [execOn_of_inTag hi, execOn_of_inTag ((inTag_map f i).trans hi)]
    cases x <;> simp [exec_map, Function.comp_def]
  | false =>
    cases i
    case jump | ret => cases o <;> rfl
    case loadTags null found =>
      cases o
      case go =>
        simp only [Instr.map, execOn]
        split <;> rfl
      all_goals rfl
    case downRead l ok intr =>
      cases l
      case tag =>
        cases o
        case go =>
          simp only [Instr.map, execOn, Option.map_map]
          rfl
        all_goals rfl
      all_goals cases hi
    case upRead l p | downWrite l p q | tryWrite l p q | upWrite l p =>
      cases l
      case tag => cases o <;> rfl
      all_goals cases hi
    all_goals cases hi

end ExecOn

/-! ## The calls

One type for all callers of the module.  The arguments come with the call, so a state in which no
call has begun says which calls are going to be made. -/

/-- A call: its arguments, the point it is at and its local variable `tag_entry`. -/
inductive Thread
  | get (a : GetArgs) (x : Option TagAddr) (p : GetState)
  /-- `i` is the loop counter of `clear_tag_level`. -/
  | delete (tag : ℤ) (euid : ℕ) (x : Option TagAddr) (i : ℕ) (p : DeleteState)
  /-- A `tag_send`, a `tag_receive` or a `tag_ctl(TAG_AWAKE_ALL)`. -/
  | user (tag : ℤ) (x : Option TagAddr) (t : TagAos.Thread)
  | read (a : ReadArgs) (x : Option TagAddr) (p : ReadState)
  deriving DecidableEq

/-- The descriptor is in range. -/
def validTag (tag : ℤ) : Bool := 0 ≤ tag && tag < maxTags

/-- The call as its input check rejects it. -/
def reject : TagAos.Thread → TagAos.Thread
  | .receive a _ => .receive a (.done (.error EINVAL))
  | .send b _ => .send b (.done (-EINVAL))
  | .awake e _ => .awake e (.done (-EINVAL))

/-- The next operation of a call that uses a tag: the descriptor is part of its input check. -/
def userCode (tag : ℤ) (t : TagAos.Thread) : Instr TagAos.Thread :=
  if t.idle && !validTag tag then .jump (reject t) else t.code

/-- The environment decides the same about an operation on the registry. -/
def registryOutcome : Outcome → Option Registry.Outcome
  | .go => some .go
  | .signal => some .signal
  | .nomem => some .nomem
  | .fault _ => none

/-- `tag_get`: the operation at each point. -/
def getStep (c : CallId) (m : Mem) (a : GetArgs) (x : Option TagAddr) :
    GetState → Outcome → Option (Mem × Option TagAddr × GetState)
  | .allocEntry d, .go => some (m.newTag a d, some m.brk, .publish d)
  | .publish d, .go => some (m.setTag d x, x, .done d)
  | p, o =>
    (registryOutcome o).bind fun o =>
      (Registry.getStep c m.registry a p o).map fun r => (m.withRegistry r.1, x, r.2)

/-- `tag_ctl(TAG_DELETE)`: the operation at each point. -/
def deleteStep (c : CallId) (m : Mem) (tag : ℤ) (euid : ℕ) (x : Option TagAddr) (i : ℕ) :
    DeleteState → Outcome → Option (Mem × Option TagAddr × ℕ × DeleteState)
  | .loadTag, .go =>
    match m.tags tag.toNat with
    | none => some (m, none, i, .unlockError (-ENODATA))
    | some y => some (m, some y, i, .checkPerm (m.entry y))
  | .clearTag e, .go => some (m.setTag tag.toNat none, x, i, .unlockTag e)
  | .testWaiting e, .go =>
    x.map fun y =>
      (m, x, i, if (m.obj y).tagWaiting ≠ 0 then .restore e (-EPROTO) else .lockClear e)
  | .restore _ rc, .go => some (m.setTag tag.toNat x, x, i, .done rc)
  -- clear_tag_level(tag_entry -> tag_level), then the tag itself
  | .freeTag e, .go =>
    x.map fun y =>
      if i < levels then (m.clearLevel y i, x, i + 1, .freeTag e)
      else (m.freeTag y, x, i, .done 1)
  | p, o =>
    (registryOutcome o).bind fun o =>
      (Registry.deleteStep c m.registry tag euid p o).map fun r => (m.withRegistry r.1, x, i, r.2)

/-- The ways an operation of `tag_get` can go. -/
inductive GetMove (c : CallId) (m : Mem) (a : GetArgs) (x : Option TagAddr) :
    GetState → Mem → Option TagAddr → GetState → Prop
  | alloc {d : ℕ} : GetMove c m a x (.allocEntry d) (m.newTag a d) (some m.brk) (.publish d)
  | publish {d : ℕ} : GetMove c m a x (.publish d) (m.setTag d x) x (.done d)
  /-- What `TagAos.Registry` says. -/
  | registry {p p' : GetState} {o : Registry.Outcome} {r : Registry.Mem}
      (hp : ∀ d, p ≠ .publish d) (hp' : ∀ d, p' ≠ .publish d)
      (h : Registry.getStep c m.registry a p o = some (r, p')) :
      GetMove c m a x p (m.withRegistry r) x p'

theorem publish_of_getStep {c : CallId} {m m' : Registry.Mem} {a : GetArgs} {p : GetState}
    {o : Registry.Outcome} {d : ℕ} (h : Registry.getStep c m a p o = some (m', .publish d)) :
    p = .allocEntry d ∧ o = .go := by
  cases p
  case start =>
    cases o <;> simp only [Registry.getStep, reduceCtorEq, Option.some.injEq, Prod.mk.injEq] at h
    rw [Registry.getStart] at h
    split_ifs at h <;> cases h.2
  case unlockCreate r =>
    cases r <;> cases o <;>
      simp only [Registry.getStep, reduceCtorEq, Option.some.injEq, Prod.mk.injEq, and_false] at h
  case addLevel d₀ i =>
    cases o <;> simp only [Registry.getStep, reduceCtorEq, Option.some.injEq, Prod.mk.injEq,
      and_false] at h
    split_ifs at h <;> cases h.2
  case allocEntry d₀ =>
    cases o <;> simp only [Registry.getStep, reduceCtorEq, Option.some.injEq, Prod.mk.injEq,
      and_false] at h
    cases h.2
    exact ⟨rfl, rfl⟩
  case lookup =>
    cases o <;> simp only [Registry.getStep, reduceCtorEq] at h
    split at h <;> cases h
  all_goals
    cases o <;> simp only [Registry.getStep, reduceCtorEq, Option.some.injEq, Prod.mk.injEq,
      and_false, Option.map_eq_some_iff, exists_false] at h

theorem GetMove.of_getStep {c : CallId} {m m' : Mem} {a : GetArgs} {x x' : Option TagAddr}
    {p p' : GetState} {o : Outcome} (h : getStep c m a x p o = some (m', x', p')) :
    GetMove c m a x p m' x' p' := by
  unfold getStep at h
  split at h
  case h_1 => cases h; exact .alloc
  case h_2 => cases h; exact .publish
  case h_3 halloc hpublish =>
    simp only [Option.bind_eq_some_iff, Option.map_eq_some_iff, Prod.mk.injEq] at h
    obtain ⟨o', ho, ⟨r, q⟩, hr, rfl, rfl, rfl⟩ := h
    refine .registry ?_ ?_ hr
    · rintro d rfl
      cases o <;> cases ho <;> first | exact hpublish d rfl rfl | cases hr
    · rintro d rfl
      obtain ⟨rfl, rfl⟩ := publish_of_getStep hr
      cases o <;> cases ho
      exact halloc d rfl rfl

/-- A deletion works with the address of its tag. -/
def onAddr : DeleteState → Bool
  | .loadTag | .clearTag _ | .testWaiting _ | .restore _ _ | .freeTag _ => true
  | _ => false

/-- The ways an operation of a deletion can go. -/
inductive DeleteMove (c : CallId) (m : Mem) (tag : ℤ) (euid : ℕ) (x : Option TagAddr) (i : ℕ) :
    DeleteState → Mem → Option TagAddr → ℕ → DeleteState → Prop
  | loadTagNull (h : m.tags tag.toNat = none) :
      DeleteMove c m tag euid x i .loadTag m none i (.unlockError (-ENODATA))
  | loadTag {y : TagAddr} (h : m.tags tag.toNat = some y) :
      DeleteMove c m tag euid x i .loadTag m (some y) i (.checkPerm (m.entry y))
  | clearTag {e : Registry.Entry} :
      DeleteMove c m tag euid x i (.clearTag e) (m.setTag tag.toNat none) x i (.unlockTag e)
  | waiting {e : Registry.Entry} {y : TagAddr} (hx : x = some y) (h : (m.obj y).tagWaiting ≠ 0) :
      DeleteMove c m tag euid x i (.testWaiting e) m x i (.restore e (-EPROTO))
  | notWaiting {e : Registry.Entry} {y : TagAddr} (hx : x = some y)
      (h : (m.obj y).tagWaiting = 0) :
      DeleteMove c m tag euid x i (.testWaiting e) m x i (.lockClear e)
  | restore {e : Registry.Entry} {rc : ℤ} :
      DeleteMove c m tag euid x i (.restore e rc) (m.setTag tag.toNat x) x i (.done rc)
  | clearLevel {e : Registry.Entry} {y : TagAddr} (hx : x = some y) (hi : i < levels) :
      DeleteMove c m tag euid x i (.freeTag e) (m.clearLevel y i) x (i + 1) (.freeTag e)
  | freeTag {e : Registry.Entry} {y : TagAddr} (hx : x = some y) (hi : ¬ i < levels) :
      DeleteMove c m tag euid x i (.freeTag e) (m.freeTag y) x i (.done 1)
  /-- What `TagAos.Registry` says. -/
  | registry {p p' : DeleteState} {o : Registry.Outcome} {r : Registry.Mem}
      (hp : onAddr p = false) (ho : o ≠ .busy)
      (h : Registry.deleteStep c m.registry tag euid p o = some (r, p')) :
      DeleteMove c m tag euid x i p (m.withRegistry r) x i p'

theorem DeleteMove.of_deleteStep {c : CallId} {m m' : Mem} {tag : ℤ} {euid i i' : ℕ}
    {x x' : Option TagAddr} {p p' : DeleteState} {o : Outcome}
    (h : deleteStep c m tag euid x i p o = some (m', x', i', p')) :
    DeleteMove c m tag euid x i p m' x' i' p' := by
  unfold deleteStep at h
  split at h
  case h_1 =>
    split at h
    · rename_i ht; cases h; exact .loadTagNull ht
    · rename_i ht; cases h; exact .loadTag ht
  case h_2 => cases h; exact .clearTag
  case h_3 =>
    obtain ⟨y, hx, h⟩ := Option.map_eq_some_iff.1 h
    split_ifs at h with hzero
    · cases h; exact .waiting hx hzero
    · cases h; exact .notWaiting hx (not_not.1 hzero)
  case h_4 => cases h; exact .restore
  case h_5 =>
    obtain ⟨y, hx, h⟩ := Option.map_eq_some_iff.1 h
    split_ifs at h with hi
    · cases h; exact .clearLevel hx hi
    · cases h; exact .freeTag hx hi
  case h_6 h1 h2 h3 h4 h5 =>
    simp only [Option.bind_eq_some_iff, Option.map_eq_some_iff, Prod.mk.injEq] at h
    obtain ⟨o', ho, ⟨r, q⟩, hr, rfl, rfl, rfl, rfl⟩ := h
    refine .registry ?_ ?_ hr
    · cases p
      case loadTag => cases o <;> cases ho <;> first | exact absurd rfl (h1 rfl) | cases hr
      case clearTag e =>
        cases o <;> cases ho <;> first | exact absurd rfl (h2 e rfl) | cases hr
      case testWaiting e =>
        cases o <;> cases ho <;> first | exact absurd rfl (h3 e rfl) | cases hr
      case restore e rc =>
        cases o <;> cases ho <;> first | exact absurd rfl (h4 e rc rfl) | cases hr
      case freeTag e =>
        cases o <;> cases ho <;> first | exact absurd rfl (h5 e rfl) | cases hr
      all_goals rfl
    · rintro rfl
      cases o <;> cases ho

/-- The fields of the tag that has been loaded. -/
def Mem.entryOf (m : Mem) (x : Option TagAddr) : Registry.Entry := m.entry (x.getD 0)

/-- `dev_read`: the operation at each point. -/
def readStep (c : CallId) (m : Mem) (a : ReadArgs) (x : Option TagAddr) (p : ReadState)
    (o : Outcome) : Option (Mem × Option TagAddr × ReadState) :=
  match readFails a p o with
  | some q => some (m, x, q)
  | none => execOn c m p.desc x (readCode a (m.entryOf x) p) o

namespace Thread

/-- The call has not begun. -/
def idle : Thread → Bool
  | get _ _ .start | delete _ _ _ _ .start | read _ _ .start => true
  | user _ _ t => t.idle
  | _ => false

/-- The call has returned. -/
def returned : Thread → Bool
  | get _ _ (.done _) | delete _ _ _ _ (.done _) | read _ _ (.done _) => true
  | user _ _ t => t.returned
  | _ => false

/-- The local variable `tag_entry`. -/
def entry : Thread → Option TagAddr
  | get _ x _ | delete _ _ x _ _ | user _ x _ | read _ x _ => x

end Thread

/-! ## States and steps

A step is one operation of one call.  There is no scheduler: any call that can perform its operation
may be next, and the calls that are made are arbitrary, as is their number. -/

/-- The memory of the module and the point each call is at. -/
abbrev State := Config CallId Mem Thread

/-- One operation of the call `c`. -/
def step (s : State) (c : CallId) (o : Outcome) : Option State :=
  match s.thread c with
  | .get a x p =>
    (getStep c s.mem a x p o).map fun r => s.set c r.1 (.get a r.2.1 r.2.2)
  | .delete tag euid x i p =>
    (deleteStep c s.mem tag euid x i p o).map fun r =>
      s.set c r.1 (.delete tag euid r.2.1 r.2.2.1 r.2.2.2)
  | .user tag x t =>
    (execOn c s.mem tag.toNat x (userCode tag t) o).map fun r => s.set c r.1 (.user tag r.2.1 r.2.2)
  | .read a x p => (readStep c s.mem a x p o).map fun r => s.set c r.1 (.read a r.2.1 r.2.2)

/-- Some operation of the call `c`. -/
def Step (s : State) (c : CallId) (s' : State) : Prop := Moves step s c s'

/-- The module has just been loaded, and no call has begun. -/
structure Init (s : State) : Prop where
  mem : s.mem = Mem.initial
  idle : ∀ c, (s.thread c).idle = true
  /-- No call has loaded a tag. -/
  entry : ∀ c, (s.thread c).entry = none

/-- A state that some interleaving of some calls leads to. -/
def Reachable (s : State) : Prop := ∃ s₀, Init s₀ ∧ Run Step s₀ s

theorem Reachable.init {s : State} (h : Init s) : Reachable s := ⟨s, h, RunUnder.refl s⟩

theorem Reachable.run {s s' : State} (h : Reachable s) (hr : Run Step s s') : Reachable s' := by
  obtain ⟨s₀, h0, h⟩ := h
  exact ⟨s₀, h0, h.trans hr⟩

theorem Reachable.step {s s' : State} {c : CallId} (h : Reachable s) (hs : Step s c s') :
    Reachable s' := h.run (Run.single hs)

/-- The invariant rule. -/
theorem Reachable.induction {P : State → Prop} {s : State} (h : Reachable s)
    (h0 : ∀ s, Init s → P s) (hstep : ∀ s c t, Reachable s → P s → Step s c t → P t) : P s := by
  obtain ⟨s₀, hi, hr⟩ := h
  exact hr.invariant_run (h0 s₀ hi) fun u c v hu hp _ hs => hstep u c v ⟨s₀, hi, hu⟩ hp hs

/-! ## What a step is

The step function is a `match` over everything that can happen; these lemmas take it apart for the
call that moves. -/

section Step

variable {s s' : State} {c : CallId} {x : Option TagAddr}

theorem Step.get {a : GetArgs} {p : GetState} (h : Step s c s') (hc : s.thread c = .get a x p) :
    ∃ m x' p', GetMove c s.mem a x p m x' p' ∧ s' = s.set c m (.get a x' p') := by
  obtain ⟨o, ho⟩ := h
  simp only [Service.step, hc, Option.map_eq_some_iff] at ho
  obtain ⟨⟨m, x', p'⟩, hx, rfl⟩ := ho
  exact ⟨m, x', p', .of_getStep hx, rfl⟩

theorem Step.delete {tag : ℤ} {euid i : ℕ} {p : DeleteState} (h : Step s c s')
    (hc : s.thread c = .delete tag euid x i p) :
    ∃ m x' i' p', DeleteMove c s.mem tag euid x i p m x' i' p' ∧
      s' = s.set c m (.delete tag euid x' i' p') := by
  obtain ⟨o, ho⟩ := h
  simp only [Service.step, hc, Option.map_eq_some_iff] at ho
  obtain ⟨⟨m, x', i', p'⟩, hx, rfl⟩ := ho
  exact ⟨m, x', i', p', .of_deleteStep hx, rfl⟩

theorem Step.user {tag : ℤ} {t : TagAos.Thread} (h : Step s c s')
    (hc : s.thread c = .user tag x t) :
    ∃ m x' t', ExecOn c s.mem tag.toNat x (userCode tag t) m x' t' ∧
      s' = s.set c m (.user tag x' t') := by
  obtain ⟨o, ho⟩ := h
  simp only [Service.step, hc, Option.map_eq_some_iff] at ho
  obtain ⟨⟨m, x', t'⟩, hx, rfl⟩ := ho
  exact ⟨m, x', t', .of_execOn hx, rfl⟩

/-- The first step of a call whose descriptor is out of range. -/
theorem Step.rejected {tag : ℤ} {t : TagAos.Thread} (h : Step s c s')
    (hc : s.thread c = .user tag x t) (ht : t.idle = true) (hv : validTag tag = false) :
    s' = s.set c s.mem (.user tag x (reject t)) := by
  obtain ⟨m, x', t', hx, rfl⟩ := h.user hc
  rw [userCode, ht, hv] at hx
  cases hx with
  | jump => rfl
  | tag hi => cases hi

/-- A step of a call that uses a tag, in terms of the code of `t`. -/
theorem Step.code {tag : ℤ} {t : TagAos.Thread} (h : Step s c s')
    (hc : s.thread c = .user tag x t) :
    t.idle = true ∧ validTag tag = false ∧ s' = s.set c s.mem (.user tag x (reject t)) ∨
      ∃ o m x' t', execOn c s.mem tag.toNat x t.code o = some (m, x', t') ∧
        s' = s.set c m (.user tag x' t') := by
  by_cases hv : (t.idle && !validTag tag) = true
  · rw [Bool.and_eq_true, Bool.not_eq_true'] at hv
    exact .inl ⟨hv.1, hv.2, h.rejected hc hv.1 hv.2⟩
  · obtain ⟨o, ho⟩ := h
    simp only [Service.step, hc, userCode, if_neg hv, Option.map_eq_some_iff] at ho
    obtain ⟨⟨m, x', t'⟩, hx, rfl⟩ := ho
    exact .inr ⟨o, m, x', t', hx, rfl⟩

/-- A step of a receive is a step of `receiveCode`. -/
theorem Step.receive {tag : ℤ} {a : ReceiveArgs} {q : ReceiveState} (h : Step s c s')
    (hc : s.thread c = .user tag x (.receive a q)) :
    q = .start ∧ s' = s.set c s.mem (.user tag x (.receive a (.done (.error EINVAL)))) ∨
      ∃ m x' q', ExecOn c s.mem tag.toNat x (receiveCode a q) m x' q' ∧
        s' = s.set c m (.user tag x' (.receive a q')) := by
  rcases h.code hc with ⟨hidle, -, rfl⟩ | ⟨o, m, x', t', hx, rfl⟩
  · cases q <;> first | exact .inl ⟨rfl, rfl⟩ | cases hidle
  · simp only [Thread.code, execOn_map, Option.map_eq_some_iff] at hx
    obtain ⟨⟨m, x', q'⟩, hx, heq⟩ := hx
    cases heq
    exact .inr ⟨m, x', q', .of_execOn hx, rfl⟩

/-- A step of a send is a step of `sendCode`. -/
theorem Step.send {tag : ℤ} {b : SendArgs} {q : SendState} (h : Step s c s')
    (hc : s.thread c = .user tag x (.send b q)) :
    q = .start ∧ s' = s.set c s.mem (.user tag x (.send b (.done (-EINVAL)))) ∨
      ∃ m x' q', ExecOn c s.mem tag.toNat x (sendCode b q) m x' q' ∧
        s' = s.set c m (.user tag x' (.send b q')) := by
  rcases h.code hc with ⟨hidle, -, rfl⟩ | ⟨o, m, x', t', hx, rfl⟩
  · cases q <;> first | exact .inl ⟨rfl, rfl⟩ | cases hidle
  · simp only [Thread.code, execOn_map, Option.map_eq_some_iff] at hx
    obtain ⟨⟨m, x', q'⟩, hx, heq⟩ := hx
    cases heq
    exact .inr ⟨m, x', q', .of_execOn hx, rfl⟩

/-- A step of an `AWAKE_ALL` command is a step of `awakeCode`. -/
theorem Step.awake {tag : ℤ} {e : ℕ} {q : AwakeState} (h : Step s c s')
    (hc : s.thread c = .user tag x (.awake e q)) :
    q = .start ∧ s' = s.set c s.mem (.user tag x (.awake e (.done (-EINVAL)))) ∨
      ∃ m x' q', ExecOn c s.mem tag.toNat x (awakeCode e q) m x' q' ∧
        s' = s.set c m (.user tag x' (.awake e q')) := by
  rcases h.code hc with ⟨hidle, -, rfl⟩ | ⟨o, m, x', t', hx, rfl⟩
  · cases q <;> first | exact .inl ⟨rfl, rfl⟩ | cases hidle
  · simp only [Thread.code, execOn_map, Option.map_eq_some_iff] at hx
    obtain ⟨⟨m, x', q'⟩, hx, heq⟩ := hx
    cases heq
    exact .inr ⟨m, x', q', .of_execOn hx, rfl⟩

theorem Step.read {a : ReadArgs} {p : ReadState} (h : Step s c s')
    (hc : s.thread c = .read a x p) :
    (∃ o q, readFails a p o = some q ∧ s' = s.set c s.mem (.read a x q)) ∨
      ∃ m x' q, ExecOn c s.mem p.desc x (readCode a (s.mem.entryOf x) p) m x' q ∧
        s' = s.set c m (.read a x' q) := by
  obtain ⟨o, ho⟩ := h
  simp only [Service.step, hc, Option.map_eq_some_iff] at ho
  obtain ⟨⟨m, x', q⟩, hx, rfl⟩ := ho
  rw [readStep] at hx
  split at hx
  · rename_i q' hq; cases hx; exact .inl ⟨o, q, hq, rfl⟩
  · exact .inr ⟨m, x', q, .of_execOn hx, rfl⟩

/-- A step does not move any other call. -/
theorem Step.thread_of_ne {d : CallId} (h : Step s c s') (hd : d ≠ c) :
    s'.thread d = s.thread d := by
  obtain ⟨o, ho⟩ := h
  have hset : ∃ m p, s' = s.set c m p := by
    simp only [Service.step] at ho
    split at ho <;>
    · obtain ⟨r, -, rfl⟩ := Option.map_eq_some_iff.1 ho
      exact ⟨_, _, rfl⟩
  obtain ⟨m, p, rfl⟩ := hset
  exact Config.set_thread_of_ne _ _ _ _ hd

end Step

/-! ## Running a schedule

For runs on fixed calls. -/

/-- The module as it is loaded, and the calls that are going to be made. -/
def State.start (calls : CallId → Thread) : State := ⟨Mem.initial, calls⟩

/-- Run a schedule.  A call that cannot move is passed over. -/
abbrev State.after (s : State) (l : List (CallId × Outcome)) : State := Conc.after Service.step s l

theorem State.reachable_after {calls : CallId → Thread} (hidle : ∀ c, (calls c).idle = true)
    (hentry : ∀ c, (calls c).entry = none) (l : List (CallId × Outcome)) :
    Reachable ((State.start calls).after l) :=
  (Reachable.init ⟨rfl, hidle, hentry⟩).run (run_after _ l)

end TagAos.Service
