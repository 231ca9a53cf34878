import TagAos.Device.Read
import TagAos.Tag.Ownership

/-!
# `dev_read` beside the other calls

`TagAos.Device.Read` says what `dev_read` returns on a table that does not change.  Here it is one
of the calls that use the service at the same time: `ReadState` names its points and `readCode`
the operation at each, with the locks it takes and gives back on every path.  The operations on
its own buffers are private; an allocation of one can fail, and `readFails` says where the call
goes on then.

`read_sound` checks it against the locking discipline of `TagAos.Tag.Discipline`: like
`tag_ctl(TAG_AWAKE_ALL)` it visits the current instance of one level after the other.
-/

set_option autoImplicit false

namespace TagAos.Service

open Conc Device
open Registry (maxTags)

deriving instance DecidableEq for Reading, Device.Outcome

/-! ## The call

The code of `dev_read` with its locks, in the order of the source.  The text is put together as in
`TagAos.Device.Read`. -/

/-- The arguments of a `dev_read`. -/
structure ReadArgs where
  /-- `buf` is not null. -/
  buf : Bool
  size : ℕ
  /-- `*off`. -/
  off : ℤ
  deriving DecidableEq

/-- The local variables of the loops of `dev_read`. -/
structure ReadVars where
  i : ℕ
  j : ℕ
  relativeOff : ℕ
  /-- `tag_key`, the key of the tag. -/
  key : ℤ
  euid : ℕ
  /-- `buffer`, `nbytes` and `curr_block`. -/
  reading : Reading
  deriving DecidableEq

/-- The points of `dev_read`.  An argument `l` is the value of `tag_level`. -/
inductive ReadState
  | start
  | allocBuffer
  | allocHeader
  | allocDivider
  | lockTag (v : ReadVars)
  | loadTag (v : ReadVars)
  | loadEntry (v : ReadVars)
  | lockLevel (v : ReadVars)
  | loadLevel (v : ReadVars)
  | unlockLevelSkip (v : ReadVars)
  | lockRcu (v : ReadVars) (l : Addr)
  | unlockLevel (v : ReadVars) (l : Addr)
  | allocTemp (v : ReadVars) (l : Addr)
  | readWaiting (v : ReadVars) (l : Addr)
  | append (v : ReadVars) (l : Addr) (temp : List Char)
  | unlockRcuSkip (v : ReadVars) (l : Addr)
  | unlockRcuError (v : ReadVars) (l : Addr)
  | unlockRcu (v : ReadVars) (l : Addr)
  | appendDivider (v : ReadVars)
  | unlockTag (v : ReadVars)
  | unlockTagError (v : ReadVars)
  | unlockTagExit (v : ReadVars)
  | copyOut (v : ReadVars)
  | done (r : Device.Outcome)
  deriving DecidableEq

namespace ReadState

/-- The loop over the descriptors goes on. -/
def nextTag (v : ReadVars) : ReadState :=
  if v.i + 1 < maxTags then lockTag { v with i := v.i + 1 } else copyOut v

/-- The loop over the levels goes on. -/
def nextLevel (v : ReadVars) : ReadState :=
  if v.j + 1 < levels then lockLevel { v with j := v.j + 1 } else appendDivider v

/-- The descriptor whose `tag_lock` the call takes or holds. -/
def desc : ReadState → ℕ
  | lockTag v | loadTag v | loadEntry v | lockLevel v | loadLevel v | unlockLevelSkip v
  | lockRcu v _ | unlockLevel v _ | allocTemp v _ | readWaiting v _ | append v _ _
  | unlockRcuSkip v _ | unlockRcuError v _ | unlockRcu v _ | appendDivider v | unlockTag v
  | unlockTagError v | unlockTagExit v => v.i
  | _ => 0

end ReadState

/-- A return of -1. -/
def ReadArgs.failed (a : ReadArgs) : ReadState := .done ⟨[], -1, a.off⟩

/-- The variables at the head of the loop, after the header and the first divider. -/
def ReadArgs.vars (a : ReadArgs) : ReadVars := ⟨0, 0, a.off.toNat, 0, 0, .start⟩

/-- What is copied to the user at the end. -/
def ReadArgs.window (a : ReadArgs) (v : ReadVars) : List Char :=
  (v.reading.buffer.drop v.relativeOff).take
    (min a.size (v.reading.buffer.length - v.relativeOff))

open ReadState in
/-- `dev_read`: the operation at each point, where the tag it has loaded has the fields `e`. -/
def readCode (a : ReadArgs) (e : Registry.Entry) : ReadState → Instr ReadState
  | start =>
    .jump (if a.size = 0 then done ⟨[], 0, a.off⟩
      else if a.buf = false ∨ a.off < 0 then a.failed else allocBuffer)
  | allocBuffer => .jump allocHeader
  | allocHeader => .jump allocDivider
  | allocDivider => .jump (lockTag a.vars)
  -- an interrupted lock makes the loops go on with the next tag or level
  | lockTag v => .downRead .tag (loadTag v) (nextTag v)
  | loadTag v =>
    .loadTags (unlockTag v)
      (if tagSize < v.relativeOff then unlockTag { v with relativeOff := v.relativeOff - tagSize }
        else loadEntry v)
  | loadEntry v => .jump (lockLevel { v with j := 0, key := e.key, euid := e.euid })
  | lockLevel v => .downRead (.level v.j) (loadLevel v) (nextLevel v)
  | loadLevel v => .loadLevel v.j (unlockLevelSkip v) (lockRcu v)
  | unlockLevelSkip v => .upRead (.level v.j) (nextLevel v)
  | lockRcu v l => .downRead (.rcu l) (unlockLevel v l) (unlockLevelSkip v)
  | unlockLevel v l => .upRead (.level v.j) (allocTemp v l)
  | allocTemp v l => .jump (readWaiting v l)
  | readWaiting v l => .readWaiting l fun n => append v l (rowText v.key v.euid v.j n)
  | append v l temp => .jump (unlockRcu { v with reading := v.reading.append temp } l)
  | unlockRcuSkip v l => .upRead (.rcu l) (nextLevel v)
  | unlockRcuError v l => .upRead (.rcu l) (unlockTagError v)
  | unlockRcu v l =>
    .upRead (.rcu l)
      (if sumSize a.size v.relativeOff < v.reading.nbytes then unlockTagExit v else nextLevel v)
  | appendDivider v => .jump (unlockTag { v with reading := v.reading.append divider })
  | unlockTag v => .upRead .tag (nextTag v)
  | unlockTagError _ => .upRead .tag a.failed
  | unlockTagExit v => .upRead .tag (copyOut v)
  | copyOut v =>
    .jump (if v.reading.buffer.length ≤ v.relativeOff then done ⟨[], 0, a.off⟩
      else done ⟨a.window v, (a.window v).length, a.off + (a.window v).length⟩)
  | done _ => .ret

/-- The text does not fit in the buffer any more, so `append_buffer` allocates a larger one. -/
def grows (r : Reading) (source : List Char) : Bool :=
  charBlock * r.currBlock < r.nbytes + source.length

open ReadState in
/-- Where `dev_read` goes on when the environment does not let its private operation succeed. -/
def readFails (a : ReadArgs) : ReadState → Outcome → Option ReadState
  | allocBuffer, .nomem | allocHeader, .nomem | allocDivider, .nomem => some a.failed
  | allocTemp v l, .nomem => some (unlockRcuSkip v l)
  | append v l temp, .nomem => if grows v.reading temp then some (unlockRcuError v l) else none
  | appendDivider v, .nomem =>
    if grows v.reading divider then some (unlockTagError v) else none
  -- `copy_to_user`
  | copyOut v, .fault k =>
    if v.relativeOff < v.reading.buffer.length ∧ k < (a.window v).length then
      some (done ⟨(a.window v).take k, -1, a.off⟩)
    else none
  | _, _ => none

/-! ## The locking discipline

`dev_read` takes the `tag_lock` of a descriptor, then for each level the `level_lock` and the
`rcu_lock` of the instance, and gives back the `level_lock` before it reads the counter. -/

/-- The proof outline of `dev_read`. -/
def ReadState.ann : ReadState → Ann
  | .start | .allocBuffer | .allocHeader | .allocDivider | .lockTag _ | .copyOut _ | .done _ => {}
  | .loadTag _ | .loadEntry _ | .lockLevel _ | .appendDivider _ | .unlockTag _ | .unlockTagError _
  | .unlockTagExit _ => { held := [(.tag, .read)] }
  | .loadLevel v | .unlockLevelSkip v => { held := [(.level v.j, .read), (.tag, .read)] }
  | .lockRcu v l =>
    { held := [(.level v.j, .read), (.tag, .read)], link := some (v.j, l), own := [(v.j, l)] }
  | .unlockLevel v l =>
    { held := [(.rcu l, .read), (.level v.j, .read), (.tag, .read)], link := some (v.j, l),
      own := [(v.j, l)] }
  | .allocTemp v l | .readWaiting v l | .append v l _ | .unlockRcuSkip v l | .unlockRcuError v l
  | .unlockRcu v l => { held := [(.rcu l, .read), (.tag, .read)], own := [(v.j, l)] }

theorem read_wf (p : ReadState) : p.ann.WF := by
  cases p
  all_goals constructor <;> simp +contextual [ReadState.ann]

theorem read_sound (a : ReadArgs) (e : Registry.Entry) (p : ReadState) :
    (readCode a e p).Sound ReadState.ann p.ann := by
  cases p
  case start =>
    rw [readCode, ReadArgs.failed]
    split_ifs <;> simp [Instr.Sound, ReadState.ann, Ann.keep_iff]
  case loadTag v =>
    rw [readCode]
    split <;> simp [Instr.Sound, ReadState.ann, Ann.keep_iff]
  case lockTag v | unlockTag v =>
    rw [readCode, ReadState.nextTag]
    split <;> simp [Instr.Sound, ReadState.ann, Ann.acquire, Ann.release, Ann.keep_iff]
  case lockLevel v | unlockLevelSkip v =>
    rw [readCode, ReadState.nextLevel]
    split <;> simp [Instr.Sound, ReadState.ann, Ann.acquire, Ann.release, Ann.keep_iff]
  case unlockRcuSkip v l | unlockRcu v l =>
    rw [readCode, ReadState.nextLevel]
    split_ifs <;> simp [Instr.Sound, ReadState.ann, Ann.release, Ann.keep_iff]
  case copyOut v =>
    rw [readCode]
    split <;> simp [Instr.Sound, ReadState.ann, Ann.keep_iff]
  all_goals
    simp [readCode, ReadArgs.failed, Instr.Sound, ReadState.ann, Ann.acquire, Ann.release,
      Ann.keep_iff]

/-- A failure of a private operation leaves everything owned. -/
theorem readFails_keep {a : ReadArgs} {p q : ReadState} {o : Outcome}
    (h : readFails a p o = some q) : p.ann.Keep q.ann := by
  cases p <;> cases o <;> simp only [readFails, reduceCtorEq, Option.some.injEq,
    Option.ite_none_right_eq_some, ReadArgs.failed] at h
  case append.nomem => obtain ⟨-, rfl⟩ := h; simp [ReadState.ann, Ann.keep_iff]
  case appendDivider.nomem => obtain ⟨-, rfl⟩ := h; simp [ReadState.ann, Ann.keep_iff]
  case copyOut.fault => obtain ⟨-, rfl⟩ := h; simp [ReadState.ann, Ann.keep_iff]
  all_goals subst h; simp [ReadState.ann, Ann.keep_iff]

end TagAos.Service
