import TagAos.Conc.RwSem
import Mathlib.Logic.Function.Basic
import Mathlib.Algebra.Group.Int.Defs
import Mathlib.Algebra.Group.Nat.Defs
import Mathlib.Data.Int.Order.Basic

/-!
# The memory of a tag and the operations on it

The system calls of the module work on one `tag_t` and on the `tag_level_t` instances that its
`tag_level` array points to or once pointed to.  `Mem` is that memory.  It keeps one map per field
of `tag_level_t`, indexed by the address of the instance, so that an assignment to one field
leaves every other field alone by construction.

Addresses are handed out once: an instance is the allocation it comes from, also after it has been
freed, and `freed` counts the times it was handed to `free_level`.  So an access to an instance
after its end shows as such, and does not hit another one.  `kzalloc` may well return a block that
has been freed; what then becomes of the calls that still refer to it is the subject of
`TagAos.Tag.Slab`, which also shows that the names make no difference as long as there are no such
calls.

`Instr` lists the operations on that memory that the code performs one at a time: a lock operation,
an atomic counter operation, an access to a flag, a pointer, a size or a buffer, a step of the wait
queue.  Each carries the local state that follows it, so a system call is a function from its local
states to instructions (`TagAos.Tag.Receive`, `TagAos.Tag.Send`).  Memory is sequentially
consistent, so the fences of the source are not operations here.

* `exec` runs one instruction; its `Outcome` argument resolves what the environment decides
  (signals, allocation failures, bad user pages).
* `Exec` is the same as an inductive relation, one constructor for each way an instruction can
  go; `Exec.of_exec` connects the two and is what the proofs start from.
-/

set_option autoImplicit false

namespace TagAos

open Conc

/-! ## Constants

From the headers of the module, and the error codes of the kernel. -/

/-- `LEVELS`. -/
def levels : ℕ := 32

/-- `BUFFER_SIZE`. -/
def bufferSize : ℕ := 4096

/-- `TAG_PERM_USR`. -/
def tagPermUsr : ℤ := 1

def EPERM : ℤ := 1
def EINTR : ℤ := 4
def ENOMEM : ℤ := 12
def EFAULT : ℤ := 14
def EBUSY : ℤ := 16
def EINVAL : ℤ := 22
def ENODATA : ℤ := 61
def EPROTO : ℤ := 71
/-- `EMAXTAG`. -/
def EMAXTAG : ℤ := 132
def ERESTARTSYS : ℤ := 512

/-- The value of an `int` expression: two's complement, 32 bits. -/
def toInt (x : ℤ) : ℤ := Int.bmod x (2 ^ 32)

theorem toInt_range (x : ℤ) : -2 ^ 31 ≤ toInt x ∧ toInt x < 2 ^ 31 := by
  have h1 := Int.le_bmod (x := x) (m := 2 ^ 32) (by decide)
  have h2 := Int.bmod_lt (x := x) (m := 2 ^ 32) (by decide)
  rw [toInt]
  omega

/-! ## Memory

The fields keep the names they have in the source.  A field of `tag_level_t` is a function of the
address of the instance, a field of `tag_t` is a field here. -/

/-- A system call in flight. -/
abbrev CallId := ℕ

/-- The address of a `tag_level_t`. -/
abbrev Addr := ℕ

/-- The semaphores a call on the tag acquires. -/
inductive Sem
  /-- `tag_lock[tag]`. -/
  | tag
  /-- `tag_entry->level_lock[i]`. -/
  | level (i : ℕ)
  /-- `rcu_lock` of an instance. -/
  | rcu (a : Addr)
  deriving DecidableEq, Repr

/-- The memory shared by the calls on one tag.  The two `ready` fields are only ever assigned 0
and 1 and are kept as truth values. -/
structure Mem where
  /-- `tags[tag]` is not null. -/
  tags : Bool
  /-- `tag_entry->permission`. -/
  permission : ℤ
  /-- `tag_entry->euid`. -/
  euid : ℕ
  /-- `tag_entry->ready`. -/
  tagReady : Bool
  /-- `tag_entry->waiting`.  An `atomic_t` has 32 bits; fewer than 2^31 calls are in flight at any
  time, so that neither this counter nor that of an instance wraps. -/
  tagWaiting : ℤ
  /-- `tag_entry->tag_level`. -/
  tagLevel : ℕ → Option Addr
  level : Addr → ℕ
  size : Addr → ℕ
  ready : Addr → Bool
  epoch : Addr → ℤ
  waiting : Addr → ℤ
  /-- The calls queued on `local_wq`. -/
  localWq : Addr → Finset CallId
  /-- The owner of `w_mutex`. -/
  wMutex : Addr → Option CallId
  buffer : Addr → List UInt8
  /-- The three kinds of semaphore. -/
  sem : Sem → RwSem CallId
  /-- The next address `kzalloc` returns; every instance allocated so far lies below. -/
  brk : Addr
  /-- How often an instance has been handed to `free_level`. -/
  freed : Addr → ℕ

/-- Whether an interruptible acquisition of the semaphore may be given up.  The writers of
`rcu_lock` only ever try, so a reader has to wait for it only while a writer holds it; on
`tag_lock` and `level_lock` a writer may be queued, and an interruption is allowed there in
every state. -/
def Mem.mayInterrupt (m : Mem) : Sem → Bool
  | .rcu a => (m.sem (.rcu a)).isExclusive
  | _ => true

/-- `CHECKPERM(tag_entry)` for a caller with effective uid `cur`: the access is refused. -/
def Mem.checkPerm (m : Mem) (cur : ℕ) : Bool :=
  m.permission = tagPermUsr && cur != 0 && m.euid != cur

/-- The state `create_level` leaves a fresh instance in, at the next address.  An allocator that
returns a freed block is `Mem.createLevelAt`. -/
def Mem.createLevel (m : Mem) (i : ℕ) (e : ℤ) : Mem :=
  { m with
    level := Function.update m.level m.brk i
    size := Function.update m.size m.brk 0
    ready := Function.update m.ready m.brk false
    epoch := Function.update m.epoch m.brk e
    waiting := Function.update m.waiting m.brk 0
    localWq := Function.update m.localWq m.brk ∅
    wMutex := Function.update m.wMutex m.brk none
    buffer := Function.update m.buffer m.brk (List.replicate bufferSize 0)
    sem := Function.update m.sem (.rcu m.brk) RwSem.free
    brk := m.brk + 1 }

/-- The first `src.length` bytes of a buffer overwritten by `src`. -/
def overwrite (buf src : List UInt8) : List UInt8 := src ++ buf.drop src.length

/-! ## Instructions

An instruction is one access to shared memory.  Everything a call does between two of them is on its
own local variables and is part of the continuation. -/

/-- The operations on the memory of a tag, each with the local states that can follow. -/
inductive Instr (π : Type)
  /-- No access to memory. -/
  | jump (next : π)
  /-- `down_read_interruptible`. -/
  | downRead (l : Sem) (ok intr : π)
  /-- `up_read`. -/
  | upRead (l : Sem) (next : π)
  /-- `down_write_killable`. -/
  | downWrite (l : Sem) (ok intr : π)
  /-- `down_write_trylock`. -/
  | tryWrite (l : Sem) (ok busy : π)
  /-- `up_write`. -/
  | upWrite (l : Sem) (next : π)
  /-- `mutex_trylock` on `w_mutex`. -/
  | tryMutex (a : Addr) (ok busy : π)
  /-- `mutex_unlock` on `w_mutex`. -/
  | unlockMutex (a : Addr) (next : π)
  /-- Load `tags[tag]` and compare it with 0. -/
  | loadTags (null found : π)
  /-- `CHECKPERM`. -/
  | checkPerm (cur : ℕ) (refused granted : π)
  /-- Load `tag_entry->ready`. -/
  | loadTagReady (set clear : π)
  /-- Assign `tag_entry->ready`. -/
  | storeTagReady (v : Bool) (next : π)
  /-- Load `tag_level->ready`. -/
  | loadReady (a : Addr) (set clear : π)
  /-- Assign `tag_level->ready`. -/
  | storeReady (a : Addr) (v : Bool) (next : π)
  /-- `atomic_read(&tag_entry->waiting)`. -/
  | readTagWaiting (next : ℤ → π)
  /-- `atomic_inc(&tag_entry->waiting)`. -/
  | incTagWaiting (next : π)
  /-- `atomic_dec_and_test(&tag_entry->waiting)`. -/
  | decTagWaiting (zero nonzero : π)
  /-- `atomic_read(&tag_level->waiting)`. -/
  | readWaiting (a : Addr) (next : ℤ → π)
  /-- `atomic_inc(&tag_level->waiting)`. -/
  | incWaiting (a : Addr) (next : π)
  /-- `atomic_dec_and_test(&tag_level->waiting)`. -/
  | decWaiting (a : Addr) (zero nonzero : π)
  /-- Load `tag_entry->tag_level[i]`. -/
  | loadLevel (i : ℕ) (null : π) (found : Addr → π)
  /-- Assign `tag_entry->tag_level[i]`. -/
  | storeLevel (i : ℕ) (a : Addr) (next : π)
  /-- Load `tag_level->size`. -/
  | loadSize (a : Addr) (next : ℕ → π)
  /-- Assign `tag_level->size`. -/
  | storeSize (a : Addr) (n : ℕ) (next : π)
  /-- Load `tag_level->epoch`. -/
  | loadEpoch (a : Addr) (next : ℤ → π)
  /-- `b->epoch > a->epoch`. -/
  | cmpEpoch (b a : Addr) (newer older : π)
  /-- `create_level`. -/
  | createLevel (i : ℕ) (e : ℤ) (failed : π) (ok : Addr → π)
  /-- `free_level`. -/
  | freeLevel (a : Addr) (next : π)
  /-- `copy_from_user(tag_level->buffer, data, n)`. -/
  | copyFromUser (a : Addr) (data : List UInt8) (n : ℕ) (ok fault : π)
  /-- `copy_to_user(buffer, tag_level->buffer, n)`; the user receives the bytes named. -/
  | copyToUser (a : Addr) (n : ℕ) (ok fault : List UInt8 → π)
  /-- `memset(tag_level->buffer, 0, n)`. -/
  | memset (a : Addr) (n : ℕ) (next : π)
  /-- `prepare_to_wait_event`: queue on `local_wq`, unless a signal is pending. -/
  | prepareWait (a : Addr) (queued pending : π)
  /-- `schedule()` while queued on `local_wq`. -/
  | schedule (a : Addr) (next : π)
  /-- `finish_wait`. -/
  | finishWait (a : Addr) (next : π)
  /-- `wake_up_all(&tag_level->local_wq)`. -/
  | wakeUpAll (a : Addr) (next : π)
  /-- The call has returned. -/
  | ret

namespace Instr

variable {π ρ : Type}

/-- Rename the local states of an instruction. -/
def map (f : π → ρ) : Instr π → Instr ρ
  | jump p => jump (f p)
  | downRead l ok intr => downRead l (f ok) (f intr)
  | upRead l p => upRead l (f p)
  | downWrite l ok intr => downWrite l (f ok) (f intr)
  | tryWrite l ok busy => tryWrite l (f ok) (f busy)
  | upWrite l p => upWrite l (f p)
  | tryMutex a ok busy => tryMutex a (f ok) (f busy)
  | unlockMutex a p => unlockMutex a (f p)
  | loadTags null found => loadTags (f null) (f found)
  | checkPerm cur refused granted => checkPerm cur (f refused) (f granted)
  | loadTagReady set clear => loadTagReady (f set) (f clear)
  | storeTagReady v p => storeTagReady v (f p)
  | loadReady a set clear => loadReady a (f set) (f clear)
  | storeReady a v p => storeReady a v (f p)
  | readTagWaiting p => readTagWaiting fun n => f (p n)
  | incTagWaiting p => incTagWaiting (f p)
  | decTagWaiting z nz => decTagWaiting (f z) (f nz)
  | readWaiting a p => readWaiting a fun n => f (p n)
  | incWaiting a p => incWaiting a (f p)
  | decWaiting a z nz => decWaiting a (f z) (f nz)
  | loadLevel i null found => loadLevel i (f null) fun a => f (found a)
  | storeLevel i a p => storeLevel i a (f p)
  | loadSize a p => loadSize a fun n => f (p n)
  | storeSize a n p => storeSize a n (f p)
  | loadEpoch a p => loadEpoch a fun e => f (p e)
  | cmpEpoch b a newer older => cmpEpoch b a (f newer) (f older)
  | createLevel i e failed ok => createLevel i e (f failed) fun a => f (ok a)
  | freeLevel a p => freeLevel a (f p)
  | copyFromUser a data n ok fault => copyFromUser a data n (f ok) (f fault)
  | copyToUser a n ok fault => copyToUser a n (fun bs => f (ok bs)) fun bs => f (fault bs)
  | memset a n p => memset a n (f p)
  | prepareWait a q p => prepareWait a (f q) (f p)
  | schedule a p => schedule a (f p)
  | finishWait a p => finishWait a (f p)
  | wakeUpAll a p => wakeUpAll a (f p)
  | ret => ret

/-- The instances whose fields or locks the instruction accesses. -/
def touches : Instr π → List Addr
  | downRead (.rcu a) _ _ | upRead (.rcu a) _ | downWrite (.rcu a) _ _ | tryWrite (.rcu a) _ _
  | upWrite (.rcu a) _ | tryMutex a _ _ | unlockMutex a _ | loadReady a _ _ | storeReady a _ _
  | readWaiting a _ | incWaiting a _ | decWaiting a _ _ | loadSize a _ | storeSize a _ _
  | loadEpoch a _ | freeLevel a _ | copyFromUser a _ _ _ _ | copyToUser a _ _ _ | memset a _ _
  | prepareWait a _ _ | schedule a _ | finishWait a _ | wakeUpAll a _ => [a]
  | cmpEpoch b a _ _ => [b, a]
  | _ => []

end Instr

end TagAos
