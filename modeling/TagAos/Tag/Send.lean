import TagAos.Tag.Instr

/-!
# `tag_send` and `tag_ctl(TAG_AWAKE_ALL)`

The two commands that wake receivers up, in the form of `TagAos.Tag.Receive`: the points between
two operations on shared memory, and the operation at each.  `tag_send` visits the current
instance of one level; `tag_ctl(TAG_AWAKE_ALL)` sets the flag of the tag and then visits the
current instance of every level in turn.
-/

set_option autoImplicit false

namespace TagAos

open Conc

/-! ## `tag_send`

The points are in the order of the source.  The two ways out after the store to `ready` and after a
copy that has failed differ in the order of the releases, and are kept apart. -/

/-- The arguments of a `tag_send`, with the caller's effective uid.  `buffer` holds the bytes that
can be read from the user's pointer, and is `none` when that pointer is null. -/
structure SendArgs where
  level : ℤ
  buffer : Option (List UInt8)
  size : ℕ
  euid : ℕ
  deriving DecidableEq, Repr

namespace SendArgs

/-- The input check. -/
def valid (b : SendArgs) : Bool := 0 ≤ b.level && b.level < levels && b.size ≤ bufferSize

/-- The index `level`, once checked. -/
def lvl (b : SendArgs) : ℕ := b.level.toNat

/-- `size`, after `if(buffer == 0) size = 0`. -/
def count (b : SendArgs) : ℕ := if b.buffer.isSome then b.size else 0

/-- The bytes `copy_from_user` reads. -/
def data (b : SendArgs) : List UInt8 := b.buffer.getD []

/-- The message sent. -/
def message (b : SendArgs) : List UInt8 := b.data.take b.count

end SendArgs

/-- The points of `tag_send`.  An argument `l` is the value of `tag_level`, `rc` the value the
call is going to return. -/
inductive SendState
  | start
  | loadTag
  | checkPerm
  | testTagWaiting
  | lockLevel
  | loadLevel
  | unlockLevelNull
  | lockRcu (l : Addr)
  | unlockLevelIntr
  | unlockLevel (l : Addr)
  | lockMutex (l : Addr)
  | testReady (l : Addr)
  | testWaiting (l : Addr)
  | copy (l : Addr)
  | setSize (l : Addr)
  | setReady (l : Addr)
  | unlockMutex (l : Addr) (rc : ℤ)
  | wake (l : Addr)
  | unlockRcu (l : Addr) (rc : ℤ)
  | unlockTag (rc : ℤ)
  -- the message could not be copied: the mutex is released last
  | faultUnlockRcu (l : Addr)
  | faultUnlockTag (l : Addr)
  | faultUnlockMutex (l : Addr)
  | done (rc : ℤ)
  deriving DecidableEq, Repr

open SendState in
/-- `tag_send`: the operation at each point. -/
def sendCode (b : SendArgs) : SendState → Instr SendState
  | start =>
    if b.valid then .downRead .tag loadTag (done (-EINTR)) else .jump (done (-EINVAL))
  | loadTag => .loadTags (unlockTag (-ENODATA)) checkPerm
  | checkPerm => .checkPerm b.euid (unlockTag (-EPERM)) testTagWaiting
  | testTagWaiting => .readTagWaiting fun n => if n = 0 then unlockTag 0 else lockLevel
  | lockLevel => .downRead (.level b.lvl) loadLevel (unlockTag (-EINTR))
  | loadLevel => .loadLevel b.lvl unlockLevelNull lockRcu
  | unlockLevelNull => .upRead (.level b.lvl) (unlockTag (-EINTR))
  | lockRcu l => .downRead (.rcu l) (unlockLevel l) unlockLevelIntr
  | unlockLevelIntr => .upRead (.level b.lvl) (unlockTag (-EINTR))
  | unlockLevel l => .upRead (.level b.lvl) (lockMutex l)
  | lockMutex l => .tryMutex l (testReady l) (unlockRcu l 0)
  | testReady l => .loadReady l (unlockMutex l 0) (testWaiting l)
  | testWaiting l =>
    .readWaiting l fun n =>
      if n = 0 then unlockMutex l 0 else if 0 < b.count then copy l else setSize l
  | copy l => .copyFromUser l b.data b.count (setSize l) (faultUnlockRcu l)
  | setSize l => .storeSize l b.count (setReady l)
  | setReady l => .storeReady l true (unlockMutex l 1)
  | unlockMutex l rc => .unlockMutex l (if rc = 1 then wake l else unlockRcu l rc)
  | wake l => .wakeUpAll l (unlockRcu l 1)
  | unlockRcu l rc => .upRead (.rcu l) (unlockTag rc)
  | unlockTag rc => .upRead .tag (done rc)
  | faultUnlockRcu l => .upRead (.rcu l) (faultUnlockTag l)
  | faultUnlockTag l => .upRead .tag (faultUnlockMutex l)
  | faultUnlockMutex l => .unlockMutex l (done (-EFAULT))
  | done _ => .ret

/-! ## `tag_ctl(TAG_AWAKE_ALL)`

A test, a store, and a loop over the levels with two locks in each round. -/

/-- The points of `tag_ctl` with the command `TAG_AWAKE_ALL`.  `i` is the loop counter. -/
inductive AwakeState
  | start
  | loadTag
  | checkPerm
  | testTagReady
  | testTagWaiting
  | setTagReady
  | lockLevel (i : ℕ)
  | loadLevel (i : ℕ)
  | lockRcu (i : ℕ) (l : Addr)
  | unlockLevelIntr (i : ℕ)
  | testWaiting (i : ℕ) (l : Addr)
  | wake (i : ℕ) (l : Addr)
  | unlockRcu (i : ℕ) (l : Addr)
  | unlockLevel (i : ℕ)
  | unlockTag (rc : ℤ)
  | done (rc : ℤ)
  deriving DecidableEq, Repr

open AwakeState in
/-- `tag_ctl(tag, TAG_AWAKE_ALL)` by a caller with effective uid `euid`: the operation at each
point. -/
def awakeCode (euid : ℕ) : AwakeState → Instr AwakeState
  | start => .downRead .tag loadTag (done (-EINTR))
  | loadTag => .loadTags (unlockTag (-ENODATA)) checkPerm
  | checkPerm => .checkPerm euid (unlockTag (-EPERM)) testTagReady
  | testTagReady => .loadTagReady (unlockTag 0) testTagWaiting
  | testTagWaiting => .readTagWaiting fun n => if n = 0 then unlockTag 0 else setTagReady
  | setTagReady => .storeTagReady true (lockLevel 0)
  | lockLevel i => .downRead (.level i) (loadLevel i) (unlockTag (-EINTR))
  | loadLevel i => .loadLevel i (unlockLevel i) (lockRcu i)
  | lockRcu i l => .downRead (.rcu l) (testWaiting i l) (unlockLevelIntr i)
  | unlockLevelIntr i => .upRead (.level i) (unlockTag (-EINTR))
  | testWaiting i l => .readWaiting l fun n => if 0 < n then wake i l else unlockRcu i l
  | wake i l => .wakeUpAll l (unlockRcu i l)
  | unlockRcu i l => .upRead (.rcu l) (unlockLevel i)
  | unlockLevel i =>
    .upRead (.level i) (if i + 1 < levels then lockLevel (i + 1) else unlockTag 1)
  | unlockTag rc => .upRead .tag (done rc)
  | done _ => .ret

end TagAos
