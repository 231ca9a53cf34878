import TagAos.Conc.Schedule
import TagAos.Conc.RwSem
import TagAos.Registry.Bitmask
import TagAos.Tag.Instr
import Mathlib.Data.List.AList

/-!
# `tag_get` and the deletion of a tag

The registry is what `tag_get` and `tag_ctl(TAG_DELETE)` share: the bitmask of descriptors, the
table from keys to descriptors, and the array of tags.  `getStep` and `deleteStep` give the
operation at each point of the two calls and the point that follows.  What is done under
`common_lock` in write mode is one operation (`Mem.reserve`, `Mem.clearCommon`), between the
operations that acquire and release the lock; each access to `tags` is one operation.

The hash map is a finite map.  `kzalloc` and `kfree` of the memory of a tag do not touch the
registry: an allocation either succeeds or fails.  The calls that use a tag hold its `tag_lock`
for reading and may be counted in its `waiting`, so the trylock of a deletion and its look at
`waiting` may always turn out badly.
-/

set_option autoImplicit false

namespace TagAos.Registry

open Conc

/-! ## Constants

From the headers of the module. -/

/-- `MAX_TAGS`. -/
def maxTags : ℕ := 256

/-- `IPC_PRIVATE`. -/
def ipcPrivate : ℤ := 0

/-- `TAG_OPEN`. -/
def tagOpen : ℤ := 0

/-- `TAG_CREAT`. -/
def tagCreat : ℤ := 1

/-- `TAG_PERM_ALL`. -/
def tagPermAll : ℤ := 0

/-! ## Memory

A tag is known here by the fields that are assigned when it is created; what calls do inside of it
is left to `TagAos.Tag`.  The operations under `common_lock` are one step each: nobody else reads or
writes what they work on meanwhile. -/

/-- A `tag_t`. -/
structure Entry where
  key : ℤ
  /-- `tag_key`, the descriptor. -/
  tagKey : ℕ
  permission : ℤ
  euid : ℕ
  deriving DecidableEq, Repr

/-- `CHECKPERM(tag_entry)` for a caller with effective uid `cur`: the access is refused. -/
def Entry.checkPerm (e : Entry) (cur : ℕ) : Bool :=
  e.permission = tagPermUsr && cur != 0 && e.euid != cur

/-- The semaphores of the registry. -/
inductive Lock
  /-- `common_lock`. -/
  | common
  /-- `tag_lock[d]`. -/
  | tag (d : ℕ)
  deriving DecidableEq, Repr

/-- The shared memory of the registry. -/
structure Mem where
  /-- `tag_bitmask`. -/
  bitmask : Bitmask
  /-- `tag_table`. -/
  table : AList fun _ : ℤ => ℕ
  /-- `tags`. -/
  tags : ℕ → Option Entry
  sem : Lock → RwSem CallId

/-- The registry as the module initialises it. -/
def Mem.initial : Mem := ⟨initializeBitmask maxTags, ∅, fun _ => none, fun _ => .free⟩

/-- What `tag_get(TAG_CREAT)` does under `common_lock`: reserve a descriptor for the key.  `oom`
says that `hashmap_set` runs out of memory. -/
def Mem.reserve (m : Mem) (key : ℤ) (oom : Bool) : Mem × Except ℤ ℕ :=
  if maxTags ≤ m.table.entries.length then (m, .error EMAXTAG)
  else
    match m.bitmask.getAvailNumber with
    | none => (m, .error EPROTO)
    | some (tagKey, bitmask) =>
      if maxTags ≤ tagKey then ({ m with bitmask := bitmask }, .error EPROTO)
      else if key = ipcPrivate then ({ m with bitmask := bitmask }, .ok tagKey)
      else if (m.table.lookup key).isSome then
        ({ m with bitmask := (bitmask.clearNumber tagKey).2 }, .error EBUSY)
      else if oom then ({ m with bitmask := (bitmask.clearNumber tagKey).2 }, .error ENOMEM)
      else ({ m with bitmask := bitmask, table := m.table.insert key tagKey }, .ok tagKey)

/-- What `clear_tag_common` does under `common_lock`. -/
def Mem.clearCommon (m : Mem) (key : ℤ) (tagKey : ℕ) : Mem :=
  let table :=
    if key ≠ ipcPrivate ∧ m.table.lookup key = some tagKey then m.table.erase key else m.table
  let cleared := m.bitmask.clearNumber tagKey
  if cleared.1 = 1 then { m with bitmask := cleared.2, table := table }
  -- the number was not in use: put the entry back
  else if key ≠ ipcPrivate then
    { m with bitmask := cleared.2, table := table.insert key tagKey }
  else { m with bitmask := cleared.2, table := table }

/-! ## The calls

The points are those at which a lock is taken or released, memory is allocated, or `tags` is
accessed.  What fails at each is decided by the environment. -/

/-- What the environment decides about one operation. -/
inductive Outcome
  /-- Nothing unusual. -/
  | go
  /-- The acquisition of a lock is interrupted. -/
  | signal
  /-- An allocation fails. -/
  | nomem
  /-- A call that uses the tag is in the way. -/
  | busy
  deriving DecidableEq, Repr

/-- The arguments of a `tag_get`, with the caller's effective uid. -/
structure GetArgs where
  key : ℤ
  command : ℤ
  permission : ℤ
  euid : ℕ
  deriving DecidableEq, Repr

/-- The points of `tag_get`.  An argument `d` is the value of `tag_key`. -/
inductive GetState
  | start
  -- TAG_CREAT
  | lockCreate
  | reserve
  | unlockCreate (r : Except ℤ ℕ)
  | allocLevels (d : ℕ)
  | addLevel (d i : ℕ)
  | allocEntry (d : ℕ)
  | publish (d : ℕ)
  | lockClear (d : ℕ)
  | clearCommon (d : ℕ)
  | unlockClear
  -- TAG_OPEN
  | lockOpen
  | lookup
  | loadTag (d : ℕ)
  | unlockOpen (rc : ℤ)
  | done (rc : ℤ)
  deriving DecidableEq

/-- The points of `tag_ctl(TAG_DELETE)`.  An argument `e` is the tag that was found. -/
inductive DeleteState
  | start
  | tryLock
  | loadTag
  | checkPerm (e : Entry)
  | clearTag (e : Entry)
  | unlockTag (e : Entry)
  | unlockError (rc : ℤ)
  | testWaiting (e : Entry)
  | lockClear (e : Entry)
  | clearCommon (e : Entry)
  | unlockClear (e : Entry)
  | restore (e : Entry) (rc : ℤ)
  | freeTag (e : Entry)
  | done (rc : ℤ)
  deriving DecidableEq

/-- Acquire `l` for writing. -/
def Mem.downWrite (m : Mem) (c : CallId) (l : Lock) : Option Mem :=
  ((m.sem l).downWrite c).map fun s => { m with sem := Function.update m.sem l s }

/-- Acquire `l` for reading. -/
def Mem.downRead (m : Mem) (c : CallId) (l : Lock) : Option Mem :=
  ((m.sem l).downRead c).map fun s => { m with sem := Function.update m.sem l s }

/-- Release `l` after writing. -/
def Mem.upWrite (m : Mem) (c : CallId) (l : Lock) : Mem :=
  { m with sem := Function.update m.sem l ((m.sem l).upWrite c) }

/-- Release `l` after reading. -/
def Mem.upRead (m : Mem) (c : CallId) (l : Lock) : Mem :=
  { m with sem := Function.update m.sem l ((m.sem l).upRead c) }

open GetState in
/-- `tag_get`: the input check. -/
def getStart (a : GetArgs) : GetState :=
  if a.key < 0 then done (-EINVAL)
  else if a.command = tagCreat then
    if a.permission ≠ tagPermUsr ∧ a.permission ≠ tagPermAll then done (-EINVAL) else lockCreate
  else if a.command = tagOpen then
    if a.key = ipcPrivate then done (-EINVAL) else lockOpen
  else done (-EINVAL)

open GetState in
/-- `tag_get`: the operation at each point. -/
def getStep (c : CallId) (m : Mem) (a : GetArgs) : GetState → Outcome → Option (Mem × GetState)
  | start, .go => some (m, getStart a)
  | lockCreate, .go => (m.downWrite c .common).map fun m => (m, reserve)
  | lockCreate, .signal => some (m, done (-EINTR))
  | reserve, .go => some ((m.reserve a.key false).1, unlockCreate (m.reserve a.key false).2)
  | reserve, .nomem => some ((m.reserve a.key true).1, unlockCreate (m.reserve a.key true).2)
  | unlockCreate (.error e), .go => some (m.upWrite c .common, done (-e))
  | unlockCreate (.ok d), .go => some (m.upWrite c .common, allocLevels d)
  | allocLevels d, .go => some (m, addLevel d 0)
  | allocLevels d, .nomem => some (m, lockClear d)
  | addLevel d i, .go => some (m, if i + 1 < levels then addLevel d (i + 1) else allocEntry d)
  | addLevel d _, .nomem => some (m, lockClear d)
  | allocEntry d, .go => some (m, publish d)
  | allocEntry d, .nomem => some (m, lockClear d)
  | publish d, .go =>
    some ({ m with tags := Function.update m.tags d (some ⟨a.key, d, a.permission, a.euid⟩) },
      done d)
  | lockClear d, .go => (m.downWrite c .common).map fun m => (m, clearCommon d)
  | lockClear _, .signal => some (m, done (-EINTR))
  | clearCommon d, .go => some (m.clearCommon a.key d, unlockClear)
  | unlockClear, .go => some (m.upWrite c .common, done (-ENOMEM))
  | lockOpen, .go => (m.downRead c .common).map fun m => (m, lookup)
  | lockOpen, .signal => some (m, done (-EINTR))
  | lookup, .go =>
    match m.table.lookup a.key with
    | none => some (m, unlockOpen (-ENODATA))
    | some d => some (m, loadTag d)
  | loadTag d, .go => some (m, unlockOpen (if m.tags d = none then -ENODATA else d))
  | unlockOpen rc, .go => some (m.upRead c .common, done rc)
  | _, _ => none

open DeleteState in
/-- `tag_ctl(TAG_DELETE)` on the descriptor `tag`, by a caller with effective uid `euid`: the
operation at each point. -/
def deleteStep (c : CallId) (m : Mem) (tag : ℤ) (euid : ℕ) :
    DeleteState → Outcome → Option (Mem × DeleteState)
  | start, .go => some (m, if tag < 0 ∨ (maxTags : ℤ) ≤ tag then done (-EINVAL) else tryLock)
  | tryLock, .go =>
    match m.downWrite c (.tag tag.toNat) with
    | some m => some (m, loadTag)
    | none => some (m, done 0)
  | tryLock, .busy => some (m, done 0)
  | loadTag, .go =>
    match m.tags tag.toNat with
    | none => some (m, unlockError (-ENODATA))
    | some e => some (m, checkPerm e)
  | checkPerm e, .go => some (m, if e.checkPerm euid then unlockError (-EPERM) else clearTag e)
  | clearTag e, .go => some ({ m with tags := Function.update m.tags tag.toNat none }, unlockTag e)
  | unlockTag e, .go => some (m.upWrite c (.tag tag.toNat), testWaiting e)
  | unlockError rc, .go => some (m.upWrite c (.tag tag.toNat), done rc)
  | testWaiting e, .go => some (m, lockClear e)
  | testWaiting e, .busy => some (m, restore e (-EPROTO))
  | lockClear e, .go => (m.downWrite c .common).map fun m => (m, clearCommon e)
  | lockClear e, .signal => some (m, restore e (-EINTR))
  | clearCommon e, .go => some (m.clearCommon e.key e.tagKey, unlockClear e)
  | unlockClear e, .go => some (m.upWrite c .common, freeTag e)
  | restore e rc, .go =>
    some ({ m with tags := Function.update m.tags tag.toNat (some e) }, done rc)
  -- the levels and the tag itself are freed
  | freeTag _, .go => some (m, done 1)
  | _, _ => none

/-! ## States and steps

As in `TagAos.Tag.System`: any call that can perform its operation may be next. -/

/-- A call on the registry: its arguments and the point it is at. -/
inductive Thread
  | get (a : GetArgs) (p : GetState)
  | delete (tag : ℤ) (euid : ℕ) (p : DeleteState)
  deriving DecidableEq

/-- The call has not begun. -/
def Thread.idle : Thread → Bool
  | get _ .start | delete _ _ .start => true
  | _ => false

/-- The registry and the point each call is at. -/
abbrev State := Config CallId Mem Thread

/-- One operation of the call `c`. -/
def step (s : State) (c : CallId) (o : Outcome) : Option State :=
  match s.thread c with
  | .get a p => (getStep c s.mem a p o).map fun r => s.set c r.1 (.get a r.2)
  | .delete tag euid p =>
    (deleteStep c s.mem tag euid p o).map fun r => s.set c r.1 (.delete tag euid r.2)

/-- Some operation of the call `c`. -/
def Step (s : State) (c : CallId) (s' : State) : Prop := Moves step s c s'

/-- The registry of a module that has just been loaded, on which no call has begun. -/
structure Init (s : State) : Prop where
  mem : s.mem = Mem.initial
  idle : ∀ c, (s.thread c).idle = true

theorem Step.get {s s' : State} {c : CallId} {a : GetArgs} {p : GetState} (h : Step s c s')
    (hc : s.thread c = .get a p) :
    ∃ o m p', getStep c s.mem a p o = some (m, p') ∧ s' = s.set c m (.get a p') := by
  obtain ⟨o, ho⟩ := h
  simp only [step, hc, Option.map_eq_some_iff] at ho
  obtain ⟨⟨m, p'⟩, hx, rfl⟩ := ho
  exact ⟨o, m, p', hx, rfl⟩

theorem Step.delete {s s' : State} {c : CallId} {tag : ℤ} {euid : ℕ} {p : DeleteState}
    (h : Step s c s') (hc : s.thread c = .delete tag euid p) :
    ∃ o m p', deleteStep c s.mem tag euid p o = some (m, p') ∧
      s' = s.set c m (.delete tag euid p') := by
  obtain ⟨o, ho⟩ := h
  simp only [step, hc, Option.map_eq_some_iff] at ho
  obtain ⟨⟨m, p'⟩, hx, rfl⟩ := ho
  exact ⟨o, m, p', hx, rfl⟩

/-- A step does not move any other call. -/
theorem Step.thread_of_ne {s s' : State} {c d : CallId} (h : Step s c s') (hd : d ≠ c) :
    s'.thread d = s.thread d := by
  cases hc : s.thread c with
  | get a p =>
    obtain ⟨-, m, p', -, rfl⟩ := h.get hc
    exact Config.set_thread_of_ne _ _ _ _ hd
  | delete tag euid p =>
    obtain ⟨-, m, p', -, rfl⟩ := h.delete hc
    exact Config.set_thread_of_ne _ _ _ _ hd

end TagAos.Registry
