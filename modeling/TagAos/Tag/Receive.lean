import TagAos.Tag.Instr

/-!
# `tag_receive`

`ReceiveState` names the points `tag_receive` can be at between two operations on shared memory,
with the local variables that are live there; `receiveCode` gives the operation performed at each
point and the points that can follow.  The points come in the order of the source text.

`wait_event_interruptible` is spelled out as in Linux: the condition is tested once before
queueing; then, in a loop, the caller queues itself (unless a signal is pending), tests the
condition again, gives up if a signal was pending, and otherwise sleeps.  The condition
`tag_level->ready || tag_entry->ready` is two loads.
-/

set_option autoImplicit false

namespace TagAos

open Conc

/-- The arguments of a `tag_receive`, with the caller's effective uid. -/
structure ReceiveArgs where
  level : ℤ
  /-- `buffer` is not null. -/
  buffer : Bool
  size : ℕ
  euid : ℕ
  deriving DecidableEq, Repr

namespace ReceiveArgs

/-- The input check. -/
def valid (a : ReceiveArgs) : Bool := 0 ≤ a.level && a.level < levels && a.size ≤ bufferSize

/-- The index `level`, once checked. -/
def lvl (a : ReceiveArgs) : ℕ := a.level.toNat

/-- `size`, after `if(buffer == 0) size = 0`. -/
def count (a : ReceiveArgs) : ℕ := if a.buffer then a.size else 0

end ReceiveArgs

/-- What a `tag_receive` has to show for itself at the end. -/
structure Result where
  /-- The value of `wait_event_interruptible`, if it was reached: 0, or `-ERESTARTSYS` when a
  signal ended the wait. -/
  waited : Option ℤ
  /-- `return_code`. -/
  returnCode : ℤ
  /-- The bytes `copy_to_user` has stored in the caller's buffer. -/
  delivered : List UInt8
  deriving DecidableEq, Repr

/-- A return before the wait. -/
def Result.error (e : ℤ) : Result := ⟨none, -e, []⟩

/-- A return that delivers nothing, after a wait that ended without a signal. -/
def Result.nothing : Result := ⟨some 0, 0, []⟩

/-- A return after a wait that a signal has ended. -/
def Result.interrupted : Result := ⟨some (-ERESTARTSYS), 0, []⟩

/-- A return with a message. -/
def Result.message (bs : List UInt8) : Result := ⟨some 0, 1, bs⟩

/-- A return after `copy_to_user` has failed. -/
def Result.badBuffer (bs : List UInt8) : Result := ⟨some 0, -EFAULT, bs⟩

/-- The semaphore, besides `tag_lock`, that an exit of `tag_receive` still has to release after
it has left `tag_entry->waiting`. -/
inductive Release
  | nothing
  /-- `up_read(&(tag_entry -> level_lock[level]))`. -/
  | level
  /-- `up_read` of an `rcu_lock`. -/
  | rcu (a : Addr)
  /-- `up_write` of an `rcu_lock`. -/
  | rcuWrite (a : Addr)
  deriving DecidableEq, Repr

/-- The points of `tag_receive`.  An argument `l` is the value of `tag_level`, `sem` the instance
whose `rcu_lock` is saved in `temp_sem`, `old` is `old_level`, `new` is `new_tag_level`. -/
inductive ReceiveState
  | start
  | loadTag
  | checkPerm
  | lockLevel
  | loadLevel
  | enter (l : Addr)
  | lockRcu (l : Addr)
  | unlockLevel (l : Addr)
  | testReady (l : Addr)
  -- a new epoch may be needed
  | lockLevelWrite (l : Addr)
  | reloadLevel (sem : Addr)
  | retestReady (sem l : Addr)
  | readEpoch (sem l : Addr)
  | create (sem l : Addr) (epoch : ℤ)
  | install (sem old new : Addr)
  | unlockOld (sem l old : Addr)
  | lockNew (l old : Addr)
  | rollback (old : Addr)
  | unlockLevelWrite (l : Addr)
  -- registration and wait
  | register (l : Addr)
  | waitReady (l : Addr)
  | waitTagReady (l : Addr)
  | prepare (l : Addr)
  | condReady (l : Addr) (pending : Bool)
  | condTagReady (l : Addr) (pending : Bool)
  | sleep (l : Addr)
  | finish (l : Addr)
  -- the return code and the message
  | codeTagReady (l : Addr)
  | codeReady (l : Addr)
  | recheck (l : Addr)
  | readSize (l : Addr)
  | copy (l : Addr) (n : ℕ)
  | unlockRcu (l : Addr) (r : Result)
  | leaveLevel (l : Addr) (r : Result)
  -- the last receiver of the instance
  | tryLock (l : Addr) (r : Result)
  | loadNew (l : Addr) (r : Result)
  | cmpEpoch (l new : Addr) (r : Result)
  | unlockFree (l : Addr) (r : Result)
  | free (l : Addr) (r : Result)
  | resetReady (l : Addr) (r : Result)
  | resetSize (l : Addr) (r : Result)
  | wipeSize (l : Addr) (r : Result)
  | wipe (l : Addr) (n : ℕ) (r : Result)
  | unlockReset (l : Addr) (r : Result)
  -- the exits
  | unlockLevelError (rel : Release) (r : Result)
  | leave (rel : Release) (r : Result)
  | clear (rel : Release) (r : Result)
  | release (rel : Release) (r : Result)
  | unlockTag (r : Result)
  | done (r : Result)
  deriving DecidableEq, Repr

namespace ReceiveState

/-- Where an exit goes on once it has left `tag_entry->waiting`. -/
def afterLeave : Release → Result → ReceiveState
  | .nothing, r => unlockTag r
  | rel, r => release rel r

/-- Release what the exit still holds besides `tag_lock`. -/
def releaseCode (i : ℕ) (r : Result) : Release → Instr ReceiveState
  | .nothing => .jump (unlockTag r)
  | .level => .upRead (.level i) (unlockTag r)
  | .rcu a => .upRead (.rcu a) (unlockTag r)
  | .rcuWrite a => .upWrite (.rcu a) (unlockTag r)

/-- Copy `n` bytes to the user, if there is something to copy and somewhere to copy it. -/
def afterSize (a : ReceiveArgs) (l : Addr) (size : ℕ) : ReceiveState :=
  if 0 < min a.count size ∧ a.buffer then copy l (min a.count size)
  else unlockRcu l (.message [])

end ReceiveState

open ReceiveState in
/-- `tag_receive`: the operation at each point. -/
def receiveCode (a : ReceiveArgs) : ReceiveState → Instr ReceiveState
  | start =>
    if a.valid then .downRead .tag loadTag (done (.error EINTR)) else .jump (done (.error EINVAL))
  | loadTag => .loadTags (unlockTag (.error ENODATA)) checkPerm
  | checkPerm => .checkPerm a.euid (unlockTag (.error EPERM)) lockLevel
  | lockLevel => .downRead (.level a.lvl) loadLevel (unlockTag (.error EINTR))
  | loadLevel => .loadLevel a.lvl (release .level (.error EINVAL)) enter
  | enter l => .incTagWaiting (lockRcu l)
  | lockRcu l => .downRead (.rcu l) (unlockLevel l) (leave .level (.error EINTR))
  | unlockLevel l => .upRead (.level a.lvl) (testReady l)
  -- if the level has a send already, create a new epoch and register on that one
  | testReady l => .loadReady l (lockLevelWrite l) (register l)
  | lockLevelWrite l => .downWrite (.level a.lvl) (reloadLevel l) (leave (.rcu l) (.error EINTR))
  | reloadLevel sem =>
    .loadLevel a.lvl (unlockLevelError (.rcu sem) (.error EINVAL)) (retestReady sem)
  | retestReady sem l => .loadReady l (readEpoch sem l) (unlockOld sem l l)
  | readEpoch sem l => .loadEpoch l fun e => create sem l (toInt (e + 1))
  | create sem l e =>
    .createLevel a.lvl e (unlockLevelError (.rcu sem) (.error ENOMEM)) (install sem l)
  | install sem old new => .storeLevel a.lvl new (unlockOld sem new old)
  | unlockOld sem l old => .upRead (.rcu sem) (lockNew l old)
  | lockNew l old => .downRead (.rcu l) (unlockLevelWrite l) (rollback old)
  | rollback old => .storeLevel a.lvl old (unlockLevelError .nothing (.error EINTR))
  | unlockLevelWrite l => .upWrite (.level a.lvl) (register l)
  | register l => .incWaiting l (waitReady l)
  -- wait_event_interruptible(tag_level -> local_wq, tag_level -> ready || tag_entry -> ready)
  | waitReady l => .loadReady l (codeTagReady l) (waitTagReady l)
  | waitTagReady l => .loadTagReady (codeTagReady l) (prepare l)
  | prepare l => .prepareWait l (condReady l false) (condReady l true)
  | condReady l pending => .loadReady l (finish l) (condTagReady l pending)
  | condTagReady l pending =>
    .loadTagReady (finish l) (if pending then unlockRcu l .interrupted else sleep l)
  | sleep l => .schedule l (prepare l)
  | finish l => .finishWait l (codeTagReady l)
  -- return_code == 0: woken up, or the condition was true at once
  | codeTagReady l => .loadTagReady (unlockRcu l .nothing) (codeReady l)
  | codeReady l => .loadReady l (recheck l) (unlockRcu l .nothing)
  | recheck l => .loadReady l (readSize l) (unlockRcu l (.message []))
  | readSize l => .loadSize l (afterSize a l)
  | copy l n =>
    .copyToUser l n (fun bs => unlockRcu l (.message bs)) fun bs => unlockRcu l (.badBuffer bs)
  | unlockRcu l r => .upRead (.rcu l) (leaveLevel l r)
  | leaveLevel l r => .decWaiting l (tryLock l r) (leave .nothing r)
  | tryLock l r => .tryWrite (.rcu l) (loadNew l r) (tryLock l r)
  | loadNew l r =>
    .loadLevel a.lvl (leave (.rcuWrite l) { r with returnCode := -EPROTO }) fun n => cmpEpoch l n r
  | cmpEpoch l new r => .cmpEpoch new l (unlockFree l r) (resetReady l r)
  | unlockFree l r => .upWrite (.rcu l) (free l r)
  | free l r => .freeLevel l (leave .nothing r)
  | resetReady l r => .storeReady l false (resetSize l r)
  | resetSize l r => .storeSize l 0 (wipeSize l r)
  -- memset(tag_level -> buffer, 0, tag_level -> size)
  | wipeSize l r => .loadSize l fun n => wipe l n r
  | wipe l n r => .memset l n (unlockReset l r)
  | unlockReset l r => .upWrite (.rcu l) (leave .nothing r)
  | unlockLevelError rel r => .upWrite (.level a.lvl) (leave rel r)
  | leave rel r => .decTagWaiting (clear rel r) (afterLeave rel r)
  | clear rel r => .storeTagReady false (afterLeave rel r)
  | release rel r => releaseCode a.lvl r rel
  | unlockTag r => .upRead .tag (done r)
  | done _ => .ret

end TagAos
