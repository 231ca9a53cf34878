import TagAos.Tag.System

/-!
# Who may do what: the locking discipline

Each point of a system call is annotated with what the call owns and knows there (`Ann`): the
semaphores and the mutex it holds, the counters it is counted in, and the facts about memory it
has observed and that its locks keep true.  `Instr.Sound` is the discipline: what a call must own
before an operation, and what it owns after it.  `thread_sound` checks the three system calls
against it, one point at a time.

The result that everything after this file works with is `Step.change`: a step is one of the
changes listed in `Change`, each of which names what happens to memory, to the annotation of the
call that moves, and what that call owned at that moment.  A proof about all
interleavings is then a case analysis on `Change`, and does not mention program points at all
unless the property does.
-/

set_option autoImplicit false

namespace TagAos

open Conc

/-! ## Annotations

An annotation says what a call owns, and what it knows.  What it owns is a matter of the call alone;
what it knows is about memory that others can reach, so each such fact needs something owned that
protects it (`WF`). -/

/-- What a call owns and knows at a program point. -/
structure Ann where
  /-- The semaphores held. -/
  held : List (Sem × Mode) := []
  /-- The instance whose `w_mutex` is held. -/
  mutex : Option Addr := none
  /-- Counted in `tag_entry->waiting`. -/
  counted : Bool := false
  /-- Has brought `tag_entry->waiting` to zero and has not yet cleared `tag_entry->ready`. -/
  clearing : Bool := false
  /-- The instance in whose `waiting` the call is counted. -/
  reg : Option Addr := none
  /-- `(i, l)`: instance `l` is linked at level `i`, whose `level_lock` is held. -/
  link : Option (ℕ × Addr) := none
  /-- The linked instance seen with `ready = 1` while holding `level_lock` for writing. -/
  busy : Option Addr := none
  /-- The instance seen with `ready = 0`, and nobody else can set it. -/
  idle : Option Addr := none
  /-- The instance this call has created and nobody else refers to. -/
  fresh : Option Addr := none
  /-- `(i, l)`: `l` is an instance of level `i` that is not fresh for another call. -/
  own : List (ℕ × Addr) := []

namespace Ann

/-- `b` owns what `a` does, and knows nothing that `a` does not. -/
structure Keep (a b : Ann) : Prop where
  held : b.held = a.held
  mutex : b.mutex = a.mutex
  counted : b.counted = a.counted
  clearing : b.clearing = a.clearing
  reg : b.reg = a.reg
  link : b.link = none ∨ b.link = a.link
  busy : b.busy = none ∨ b.busy = a.busy
  idle : b.idle = none ∨ b.idle = a.idle
  fresh : b.fresh = none ∨ b.fresh = a.fresh
  own : ∀ x, x ∈ b.own → x ∈ a.own

theorem keep_iff {a b : Ann} : a.Keep b ↔
    b.held = a.held ∧ b.mutex = a.mutex ∧ b.counted = a.counted ∧ b.clearing = a.clearing ∧
      b.reg = a.reg ∧ (b.link = none ∨ b.link = a.link) ∧ (b.busy = none ∨ b.busy = a.busy) ∧
      (b.idle = none ∨ b.idle = a.idle) ∧ (b.fresh = none ∨ b.fresh = a.fresh) ∧
      ∀ x, x ∈ b.own → x ∈ a.own :=
  ⟨fun h => ⟨h.held, h.mutex, h.counted, h.clearing, h.reg, h.link, h.busy, h.idle, h.fresh,
    h.own⟩, fun ⟨h1, h2, h3, h4, h5, h6, h7, h8, h9, h10⟩ =>
    ⟨h1, h2, h3, h4, h5, h6, h7, h8, h9, h10⟩⟩

/-- The annotation with one semaphore more. -/
def acquire (a : Ann) (l : Sem) (md : Mode) : Ann := { a with held := (l, md) :: a.held }

/-- The annotation with one semaphore less. -/
def release (a : Ann) (l : Sem) (md : Mode) : Ann :=
  { a with held := a.held.filter fun x => x ≠ (l, md) }

/-- Whatever a call knows is protected by something it holds. -/
structure WF (a : Ann) : Prop where
  link : ∀ i x, a.link = some (i, x) → ∃ md, (Sem.level i, md) ∈ a.held
  busy : ∀ x, a.busy = some x → ∃ i, a.link = some (i, x) ∧ (Sem.level i, Mode.write) ∈ a.held
  idle : ∀ x, a.idle = some x →
    (a.mutex = some x ∧ (Sem.rcu x, Mode.read) ∈ a.held) ∨ (Sem.rcu x, Mode.write) ∈ a.held
  rcu : ∀ x md, (Sem.rcu x, md) ∈ a.held → ∃ i, (i, x) ∈ a.own
  reg : ∀ x, a.reg = some x → ∃ i, (i, x) ∈ a.own
  mutex : ∀ x, a.mutex = some x → ∃ i, (i, x) ∈ a.own
  fresh : ∀ x, a.fresh = some x → ∃ i, (i, x) ∈ a.own

end Ann

/-! ## The discipline

One clause for each instruction, in the manner of a proof outline: what must be owned before it, and
what is owned and known afterwards on each of its branches.  Local steps keep what there is. -/

variable {π ρ : Type}

/-- What the discipline demands of an operation at a point annotated `a`, when `ann` annotates
the points that can follow. -/
def Instr.Sound (ann : π → Ann) (a : Ann) : Instr π → Prop
  | .jump p => a.Keep (ann p)
  | .downRead l ok intr =>
    -- an `rcu_lock` is only waited for while its instance is known to be linked
    (∀ md, (l, md) ∉ a.held) ∧
      (∀ x, l = .rcu x →
        (∃ i, a.link = some (i, x)) ∧ (ann ok).fresh = none ∧ (ann ok).busy = none) ∧
      (a.acquire l .read).Keep (ann ok) ∧
      ((∀ x, l = .rcu x → a.fresh ≠ some x) → a.Keep (ann intr))
  | .upRead l p => (l, .read) ∈ a.held ∧ (a.release l .read).Keep (ann p)
  | .downWrite l ok intr =>
    (∀ md, (l, md) ∉ a.held) ∧ (∀ x, l ≠ .rcu x) ∧
      (a.acquire l .write).Keep (ann ok) ∧ a.Keep (ann intr)
  | .tryWrite l ok busy =>
    (∀ md, (l, md) ∉ a.held) ∧ a.fresh = none ∧ (∀ x, l = .rcu x → ∃ i, (i, x) ∈ a.own) ∧
      (a.acquire l .write).Keep (ann ok) ∧ a.Keep (ann busy)
  | .upWrite l p => (l, .write) ∈ a.held ∧ a.fresh = none ∧ (a.release l .write).Keep (ann p)
  | .tryMutex x ok busy =>
    a.mutex = none ∧ ({ a with mutex := some x } : Ann).Keep (ann ok) ∧ a.Keep (ann busy)
  | .unlockMutex x p => a.mutex = some x ∧ ({ a with mutex := none } : Ann).Keep (ann p)
  | .loadTags null found => a.Keep (ann null) ∧ a.Keep (ann found)
  | .checkPerm _ refused granted => a.Keep (ann refused) ∧ a.Keep (ann granted)
  | .loadTagReady set clear => a.Keep (ann set) ∧ a.Keep (ann clear)
  | .storeTagReady v p =>
    if v then a.clearing = false ∧ a.Keep (ann p)
    else a.clearing = true ∧ ({ a with clearing := false } : Ann).Keep (ann p)
  | .loadReady x set clear =>
    ({ a with busy := some x } : Ann).Keep (ann set) ∧
      ({ a with idle := some x } : Ann).Keep (ann clear)
  | .storeReady x v p =>
    if v then a.idle = some x ∧ a.mutex = some x ∧ (.rcu x, .read) ∈ a.held ∧
      ({ a with idle := none } : Ann).Keep (ann p)
    else (.rcu x, .write) ∈ a.held ∧ ({ a with idle := some x } : Ann).Keep (ann p)
  | .readTagWaiting p => ∀ n, a.Keep (ann (p n))
  | .incTagWaiting p =>
    a.counted = false ∧ ({ a with counted := true } : Ann).Keep (ann p)
  | .decTagWaiting z nz =>
    a.counted = true ∧ a.clearing = false ∧
      ({ a with counted := false, clearing := true } : Ann).Keep (ann z) ∧
      ({ a with counted := false } : Ann).Keep (ann nz)
  | .readWaiting _ p => ∀ n, a.Keep (ann (p n))
  | .incWaiting x p =>
    a.reg = none ∧ (.rcu x, .read) ∈ a.held ∧ ({ a with reg := some x } : Ann).Keep (ann p)
  | .decWaiting x z nz =>
    a.reg = some x ∧ ({ a with reg := none } : Ann).Keep (ann z) ∧
      ({ a with reg := none } : Ann).Keep (ann nz)
  | .loadLevel i null found =>
    a.Keep (ann null) ∧
      ∀ x, a.Keep (ann (found x)) ∨
        (∃ md, (.level i, md) ∈ a.held) ∧
          ({ a with link := some (i, x), own := (i, x) :: a.own } : Ann).Keep (ann (found x))
  | .storeLevel i x p =>
    -- a new instance over one seen busy, or the pointer that is already there
    (.level i, .write) ∈ a.held ∧
      ((a.fresh = some x ∧ (i, x) ∈ a.own ∧ ∃ y, a.link = some (i, y) ∧ a.busy = some y) ∨
        a.link = some (i, x)) ∧
      ({ a with link := some (i, x), busy := none } : Ann).Keep (ann p)
  | .loadSize _ p => ∀ n, a.Keep (ann (p n))
  | .storeSize x _ p => a.idle = some x ∧ a.Keep (ann p)
  | .loadEpoch _ p => ∀ e, a.Keep (ann (p e))
  | .cmpEpoch _ _ newer older => a.Keep (ann newer) ∧ a.Keep (ann older)
  | .createLevel i _ failed ok =>
    a.fresh = none ∧ a.Keep (ann failed) ∧
      ∀ x, ({ a with fresh := some x, own := (i, x) :: a.own } : Ann).Keep (ann (ok x))
  | .freeLevel _ p => a.Keep (ann p)
  | .copyFromUser x _ _ ok fault => a.idle = some x ∧ a.Keep (ann ok) ∧ a.Keep (ann fault)
  | .copyToUser _ _ ok fault => ∀ bs, a.Keep (ann (ok bs)) ∧ a.Keep (ann (fault bs))
  | .memset x _ p => a.idle = some x ∧ a.Keep (ann p)
  | .prepareWait _ queued pending => a.Keep (ann queued) ∧ a.Keep (ann pending)
  | .schedule _ p => a.Keep (ann p)
  | .finishWait _ p => a.Keep (ann p)
  | .wakeUpAll _ p => a.Keep (ann p)
  | .ret => True

theorem Instr.sound_map {ann : ρ → Ann} {a : Ann} {f : π → ρ} {i : Instr π}
    (h : i.Sound (fun p => ann (f p)) a) : (i.map f).Sound ann a := by
  cases i <;> exact h

/-! ## The changes a step can make

A step is known by the instruction, by the memory before and after it, and by the two annotations.
`Change` lists the combinations that the discipline allows, so an invariant about memory and
annotations has one case for each of them and none for the points of the code. -/

/-- What one operation of the call `c` does to memory and to the annotation of `c`. -/
inductive Change (c : CallId) (m : Mem) (a b : Ann) : Mem → Prop
  /-- Memory is as before. -/
  | quiet (keep : a.Keep b) : Change c m a b m
  /-- `ready` of an instance was seen set. -/
  | sawReady (x : Addr) (h : m.ready x = true)
      (keep : ({ a with busy := some x } : Ann).Keep b) : Change c m a b m
  /-- `ready` of an instance was seen clear. -/
  | sawIdle (x : Addr) (h : m.ready x = false)
      (keep : ({ a with idle := some x } : Ann).Keep b) : Change c m a b m
  /-- The pointer of a level was loaded under its lock. -/
  | loaded (i : ℕ) (x : Addr) (h : m.tagLevel i = some x)
      (lock : ∃ md, (Sem.level i, md) ∈ a.held)
      (keep : ({ a with link := some (i, x), own := (i, x) :: a.own } : Ann).Keep b) :
      Change c m a b m
  /-- A semaphore was acquired for reading. -/
  | readLocked (l : Sem) (s : RwSem CallId) (h : (m.sem l).downRead c = some s)
      (free : ∀ md, (l, md) ∉ a.held)
      (rcu : ∀ x, l = .rcu x →
        (∃ i, a.link = some (i, x)) ∧ b.fresh = none ∧ b.busy = none)
      (keep : (a.acquire l .read).Keep b) :
      Change c m a b { m with sem := Function.update m.sem l s }
  /-- An acquisition of an `rcu_lock` was interrupted; a writer was holding it. -/
  | interrupted (x : Addr) (h : m.mayInterrupt (.rcu x) = true)
      (keep : a.fresh ≠ some x → a.Keep b) : Change c m a b m
  /-- A semaphore was released after reading. -/
  | readUnlocked (l : Sem) (h : (l, .read) ∈ a.held) (keep : (a.release l .read).Keep b) :
      Change c m a b { m with sem := Function.update m.sem l ((m.sem l).upRead c) }
  /-- A semaphore was acquired for writing. -/
  | writeLocked (l : Sem) (s : RwSem CallId) (h : (m.sem l).downWrite c = some s)
      (free : ∀ md, (l, md) ∉ a.held)
      (rcu : ∀ x, l = .rcu x → (∃ i, (i, x) ∈ a.own) ∧ a.fresh = none)
      (keep : (a.acquire l .write).Keep b) :
      Change c m a b { m with sem := Function.update m.sem l s }
  /-- A semaphore was released after writing. -/
  | writeUnlocked (l : Sem) (h : (l, .write) ∈ a.held) (fresh : a.fresh = none)
      (keep : (a.release l .write).Keep b) :
      Change c m a b { m with sem := Function.update m.sem l ((m.sem l).upWrite c) }
  /-- `w_mutex` was acquired. -/
  | mutexLocked (x : Addr) (h : m.wMutex x = none) (free : a.mutex = none)
      (keep : ({ a with mutex := some x } : Ann).Keep b) :
      Change c m a b { m with wMutex := Function.update m.wMutex x (some c) }
  /-- `w_mutex` was released. -/
  | mutexUnlocked (x : Addr) (h : a.mutex = some x)
      (keep : ({ a with mutex := none } : Ann).Keep b) :
      Change c m a b { m with wMutex := Function.update m.wMutex x none }
  /-- `tag_entry->ready` was set. -/
  | tagArmed (h : a.clearing = false) (keep : a.Keep b) :
      Change c m a b { m with tagReady := true }
  /-- `tag_entry->ready` was cleared. -/
  | tagCleared (h : a.clearing = true) (keep : ({ a with clearing := false } : Ann).Keep b) :
      Change c m a b { m with tagReady := false }
  /-- `ready` of an instance was set by a sender. -/
  | armed (x : Addr) (idle : a.idle = some x) (mutex : a.mutex = some x)
      (rcu : (.rcu x, .read) ∈ a.held) (keep : ({ a with idle := none } : Ann).Keep b) :
      Change c m a b { m with ready := Function.update m.ready x true }
  /-- `ready` of an instance was cleared by its last receiver. -/
  | reset (x : Addr) (rcu : (.rcu x, .write) ∈ a.held)
      (keep : ({ a with idle := some x } : Ann).Keep b) :
      Change c m a b { m with ready := Function.update m.ready x false }
  /-- `tag_entry->waiting` was incremented. -/
  | entered (h : a.counted = false) (keep : ({ a with counted := true } : Ann).Keep b) :
      Change c m a b { m with tagWaiting := m.tagWaiting + 1 }
  /-- `tag_entry->waiting` was decremented to zero. -/
  | leftLast (h : a.counted = true) (clear : a.clearing = false) (zero : m.tagWaiting - 1 = 0)
      (keep : ({ a with counted := false, clearing := true } : Ann).Keep b) :
      Change c m a b { m with tagWaiting := m.tagWaiting - 1 }
  /-- `tag_entry->waiting` was decremented, not to zero. -/
  | left (h : a.counted = true) (clear : a.clearing = false) (nonzero : m.tagWaiting - 1 ≠ 0)
      (keep : ({ a with counted := false } : Ann).Keep b) :
      Change c m a b { m with tagWaiting := m.tagWaiting - 1 }
  /-- `waiting` of an instance was incremented. -/
  | registered (x : Addr) (h : a.reg = none) (rcu : (.rcu x, .read) ∈ a.held)
      (keep : ({ a with reg := some x } : Ann).Keep b) :
      Change c m a b { m with waiting := Function.update m.waiting x (m.waiting x + 1) }
  /-- `waiting` of an instance was decremented. -/
  | unregistered (x : Addr) (h : a.reg = some x)
      (keep : ({ a with reg := none } : Ann).Keep b) :
      Change c m a b { m with waiting := Function.update m.waiting x (m.waiting x - 1) }
  /-- The pointer of a level was assigned. -/
  | linked (i : ℕ) (x : Addr) (lock : (.level i, .write) ∈ a.held)
      (h : (a.fresh = some x ∧ (i, x) ∈ a.own ∧ ∃ y, a.link = some (i, y) ∧ a.busy = some y) ∨
        a.link = some (i, x))
      (keep : ({ a with link := some (i, x), busy := none } : Ann).Keep b) :
      Change c m a b { m with tagLevel := Function.update m.tagLevel i (some x) }
  /-- A new instance was created. -/
  | created (i : ℕ) (e : ℤ) (h : a.fresh = none)
      (keep : ({ a with fresh := some m.brk, own := (i, m.brk) :: a.own } : Ann).Keep b) :
      Change c m a b (m.createLevel i e)
  /-- An instance was freed. -/
  | freed (x : Addr) (keep : a.Keep b) :
      Change c m a b { m with freed := Function.update m.freed x (m.freed x + 1) }
  /-- `size` of an instance was assigned. -/
  | sized (x : Addr) (n : ℕ) (idle : a.idle = some x) (keep : a.Keep b) :
      Change c m a b { m with size := Function.update m.size x n }
  /-- The buffer of an instance was written. -/
  | written (x : Addr) (bs : List UInt8) (idle : a.idle = some x) (keep : a.Keep b) :
      Change c m a b { m with buffer := Function.update m.buffer x bs }
  /-- The wait queue of an instance has changed. -/
  | queue (x : Addr) (q : Finset CallId) (keep : a.Keep b) :
      Change c m a b { m with localWq := Function.update m.localWq x q }

/-- An operation that obeys the discipline makes one of the listed changes. -/
theorem Change.of_exec {c : CallId} {m m' : Mem} {ann : π → Ann} {a : Ann} {i : Instr π} {p : π}
    (hs : i.Sound ann a) (h : Exec c m i m' p) : Change c m a (ann p) m' := by
  cases h with
  | jump => exact .quiet hs
  | downRead h => exact .readLocked _ _ h hs.1 hs.2.1 hs.2.2.1
  | @downReadIntr l ok intr h =>
    cases l with
    | rcu x => exact .interrupted x h fun hf => hs.2.2.2 fun y hy => by cases hy; exact hf
    | tag => exact .quiet (hs.2.2.2 fun y hy => by cases hy)
    | level i => exact .quiet (hs.2.2.2 fun y hy => by cases hy)
  | upRead => exact .readUnlocked _ hs.1 hs.2
  | downWrite h => exact .writeLocked _ _ h hs.1 (fun x hx => absurd hx (hs.2.1 x)) hs.2.2.1
  | downWriteIntr h => exact .quiet hs.2.2.2
  | tryWrite h => exact .writeLocked _ _ h hs.1 (fun x hx => ⟨hs.2.2.1 x hx, hs.2.1⟩) hs.2.2.2.1
  | tryWriteBusy h => exact .quiet hs.2.2.2.2
  | upWrite => exact .writeUnlocked _ hs.1 hs.2.1 hs.2.2
  | tryMutex h => exact .mutexLocked _ h hs.1 hs.2.1
  | tryMutexBusy h => exact .quiet hs.2.2
  | unlockMutex => exact .mutexUnlocked _ hs.1 hs.2
  | loadTags h => exact .quiet hs.2
  | loadTagsNull h => exact .quiet hs.1
  | checkPerm h => exact .quiet hs.2
  | checkPermRefused h => exact .quiet hs.1
  | loadTagReadySet h => exact .quiet hs.1
  | loadTagReadyClear h => exact .quiet hs.2
  | @storeTagReady v p =>
    cases v with
    | true => exact .tagArmed hs.1 hs.2
    | false => exact .tagCleared hs.1 hs.2
  | loadReadySet h => exact .sawReady _ h hs.1
  | loadReadyClear h => exact .sawIdle _ h hs.2
  | @storeReady x v p =>
    cases v with
    | true => exact .armed x hs.1 hs.2.1 hs.2.2.1 hs.2.2.2
    | false => exact .reset x hs.1 hs.2
  | readTagWaiting => exact .quiet (hs _)
  | incTagWaiting => exact .entered hs.1 hs.2
  | decTagWaitingZero h => exact .leftLast hs.1 hs.2.1 h hs.2.2.1
  | decTagWaiting h => exact .left hs.1 hs.2.1 h hs.2.2.2
  | readWaiting => exact .quiet (hs _)
  | incWaiting => exact .registered _ hs.1 hs.2.1 hs.2.2
  | decWaitingZero h => exact .unregistered _ hs.1 hs.2.1
  | decWaiting h => exact .unregistered _ hs.1 hs.2.2
  | loadLevelNull h => exact .quiet hs.1
  | @loadLevel i x null found h =>
    rcases hs.2 x with hk | ⟨hl, hk⟩
    · exact .quiet hk
    · exact .loaded i x h hl hk
  | storeLevel => exact .linked _ _ hs.1 hs.2.1 hs.2.2
  | loadSize => exact .quiet (hs _)
  | storeSize => exact .sized _ _ hs.1 hs.2
  | loadEpoch => exact .quiet (hs _)
  | cmpEpochNewer h => exact .quiet hs.1
  | cmpEpochOlder h => exact .quiet hs.2
  | createLevel => exact .created _ _ hs.1 (hs.2.2 _)
  | createLevelFailed => exact .quiet hs.2.1
  | freeLevel => exact .freed _ hs
  | copyFromUser h => exact .written _ _ hs.1 hs.2.1
  | copyFromUserFault h => exact .written _ _ hs.1 hs.2.2
  | copyToUser => exact .quiet (hs _).1
  | copyToUserFault h => exact .quiet (hs _).2
  | memset => exact .written _ _ hs.1 hs.2
  | prepareWait => exact .queue _ _ hs.1
  | prepareWaitPending => exact .queue _ _ hs.2
  | schedule => exact .quiet hs
  | finishWait => exact .queue _ _ hs
  | wakeUpAll => exact .queue _ _ hs

/-! ## The annotations of the three system calls

The proof outlines, point by point in the order of the source.  A branch that takes a lock is
annotated with it from the instruction on. -/

/-- The semaphores a release still has to give back. -/
def Release.held (i : ℕ) : Release → List (Sem × Mode)
  | .nothing => [(.tag, .read)]
  | .level => [(.level i, .read), (.tag, .read)]
  | .rcu a => [(.rcu a, .read), (.tag, .read)]
  | .rcuWrite a => [(.rcu a, .write), (.tag, .read)]

/-- The instance a release refers to. -/
def Release.own (i : ℕ) : Release → List (ℕ × Addr)
  | .nothing | .level => []
  | .rcu a | .rcuWrite a => [(i, a)]

/-- The proof outline of `tag_receive` on level `i`. -/
def ReceiveState.ann (i : ℕ) : ReceiveState → Ann
  | .start | .done _ => {}
  | .loadTag | .checkPerm | .lockLevel | .unlockTag _ => { held := [(.tag, .read)] }
  | .loadLevel => { held := [(.level i, .read), (.tag, .read)] }
  | .enter l =>
    { held := [(.level i, .read), (.tag, .read)], link := some (i, l), own := [(i, l)] }
  | .lockRcu l =>
    { held := [(.level i, .read), (.tag, .read)], counted := true, link := some (i, l),
      own := [(i, l)] }
  | .unlockLevel l =>
    { held := [(.rcu l, .read), (.level i, .read), (.tag, .read)], counted := true,
      link := some (i, l), own := [(i, l)] }
  | .testReady l | .lockLevelWrite l | .register l =>
    { held := [(.rcu l, .read), (.tag, .read)], counted := true, own := [(i, l)] }
  | .reloadLevel sem =>
    { held := [(.level i, .write), (.rcu sem, .read), (.tag, .read)], counted := true,
      own := [(i, sem)] }
  | .retestReady sem l =>
    { held := [(.level i, .write), (.rcu sem, .read), (.tag, .read)], counted := true,
      link := some (i, l), own := [(i, l), (i, sem)] }
  | .readEpoch sem l | .create sem l _ =>
    { held := [(.level i, .write), (.rcu sem, .read), (.tag, .read)], counted := true,
      link := some (i, l), busy := some l, own := [(i, l), (i, sem)] }
  | .install sem old new =>
    { held := [(.level i, .write), (.rcu sem, .read), (.tag, .read)], counted := true,
      link := some (i, old), busy := some old, fresh := some new,
      own := [(i, new), (i, old), (i, sem)] }
  | .unlockOld sem l old =>
    { held := [(.level i, .write), (.rcu sem, .read), (.tag, .read)], counted := true,
      link := some (i, l), fresh := if l = old then none else some l,
      own := [(i, l), (i, sem)] }
  | .lockNew l old =>
    { held := [(.level i, .write), (.tag, .read)], counted := true, link := some (i, l),
      fresh := if l = old then none else some l, own := [(i, l)] }
  | .rollback old =>
    { held := [(.level i, .write), (.tag, .read)], counted := true, link := some (i, old) }
  | .unlockLevelWrite l =>
    { held := [(.rcu l, .read), (.level i, .write), (.tag, .read)], counted := true,
      link := some (i, l), own := [(i, l)] }
  | .waitReady l | .waitTagReady l | .prepare l | .condReady l _ | .condTagReady l _ | .sleep l
  | .finish l | .codeTagReady l | .codeReady l | .recheck l | .readSize l | .copy l _
  | .unlockRcu l _ =>
    { held := [(.rcu l, .read), (.tag, .read)], counted := true, reg := some l, own := [(i, l)] }
  | .leaveLevel l _ =>
    { held := [(.tag, .read)], counted := true, reg := some l, own := [(i, l)] }
  | .tryLock l _ | .free l _ => { held := [(.tag, .read)], counted := true, own := [(i, l)] }
  | .loadNew l _ | .cmpEpoch l _ _ | .unlockFree l _ | .resetReady l _ =>
    { held := [(.rcu l, .write), (.tag, .read)], counted := true, own := [(i, l)] }
  | .resetSize l _ | .wipeSize l _ | .wipe l _ _ =>
    { held := [(.rcu l, .write), (.tag, .read)], counted := true, idle := some l,
      own := [(i, l)] }
  | .unlockReset l _ =>
    { held := [(.rcu l, .write), (.tag, .read)], counted := true, own := [(i, l)] }
  | .unlockLevelError rel _ =>
    { held := (.level i, .write) :: rel.held i, counted := true, own := rel.own i }
  | .leave rel _ => { held := rel.held i, counted := true, own := rel.own i }
  | .clear rel _ => { held := rel.held i, clearing := true, own := rel.own i }
  | .release rel _ => { held := rel.held i, own := rel.own i }

/-- The proof outline of `tag_send` on level `i`. -/
def SendState.ann (i : ℕ) : SendState → Ann
  | .start | .done _ => {}
  | .loadTag | .checkPerm | .testTagWaiting | .lockLevel | .unlockTag _ =>
    { held := [(.tag, .read)] }
  | .loadLevel | .unlockLevelNull | .unlockLevelIntr =>
    { held := [(.level i, .read), (.tag, .read)] }
  | .lockRcu l =>
    { held := [(.level i, .read), (.tag, .read)], link := some (i, l), own := [(i, l)] }
  | .unlockLevel l =>
    { held := [(.rcu l, .read), (.level i, .read), (.tag, .read)], link := some (i, l),
      own := [(i, l)] }
  | .lockMutex l | .wake l | .unlockRcu l _ =>
    { held := [(.rcu l, .read), (.tag, .read)], own := [(i, l)] }
  | .testReady l | .unlockMutex l _ | .faultUnlockRcu l =>
    { held := [(.rcu l, .read), (.tag, .read)], mutex := some l, own := [(i, l)] }
  | .testWaiting l | .copy l | .setSize l | .setReady l =>
    { held := [(.rcu l, .read), (.tag, .read)], mutex := some l, idle := some l,
      own := [(i, l)] }
  | .faultUnlockTag l => { held := [(.tag, .read)], mutex := some l, own := [(i, l)] }
  | .faultUnlockMutex l => { mutex := some l, own := [(i, l)] }

/-- The proof outline of `tag_ctl(TAG_AWAKE_ALL)`. -/
def AwakeState.ann : AwakeState → Ann
  | .start | .done _ => {}
  | .loadTag | .checkPerm | .testTagReady | .testTagWaiting | .setTagReady | .lockLevel _
  | .unlockTag _ => { held := [(.tag, .read)] }
  | .loadLevel i | .unlockLevelIntr i | .unlockLevel i =>
    { held := [(.level i, .read), (.tag, .read)] }
  | .lockRcu i l =>
    { held := [(.level i, .read), (.tag, .read)], link := some (i, l), own := [(i, l)] }
  | .testWaiting i l | .wake i l | .unlockRcu i l =>
    { held := [(.rcu l, .read), (.level i, .read), (.tag, .read)], own := [(i, l)] }

/-- What a call owns and knows at the point it is at. -/
def Thread.ann : Thread → Ann
  | .receive a p => p.ann a.lvl
  | .send b p => p.ann b.lvl
  | .awake _ p => p.ann

/-! ## The system calls obey the discipline

Checked by looking at each point once.  This is the last place where the code of the three calls is
taken apart for the sake of the locks. -/

theorem Release.rcu_held {i : ℕ} {rel : Release} {x : Addr} {md : Mode}
    (h : (Sem.rcu x, md) ∈ rel.held i) : (i, x) ∈ rel.own i := by
  cases rel <;> simp_all [Release.held, Release.own]

theorem receive_wf (i : ℕ) (p : ReceiveState) : (p.ann i).WF := by
  cases p
  case leave rel r | clear rel r | release rel r =>
    exact ⟨by simp [ReceiveState.ann], by simp [ReceiveState.ann], by simp [ReceiveState.ann],
      fun x md h => ⟨i, Release.rcu_held h⟩, by simp [ReceiveState.ann],
      by simp [ReceiveState.ann], by simp [ReceiveState.ann]⟩
  case unlockLevelError rel r =>
    exact ⟨by simp [ReceiveState.ann], by simp [ReceiveState.ann], by simp [ReceiveState.ann],
      fun x md h => ⟨i, Release.rcu_held (by simpa [ReceiveState.ann] using h)⟩,
      by simp [ReceiveState.ann], by simp [ReceiveState.ann], by simp [ReceiveState.ann]⟩
  all_goals constructor <;> simp +contextual [ReceiveState.ann]
  case install.rcu => exact ⟨i, by simp⟩

theorem receive_sound (a : ReceiveArgs) (p : ReceiveState) :
    (receiveCode a p).Sound (ReceiveState.ann a.lvl) (p.ann a.lvl) := by
  cases p
  case start =>
    rw [receiveCode]
    split <;> simp [Instr.Sound, ReceiveState.ann, Ann.acquire, Ann.keep_iff]
  case condTagReady l pending =>
    cases pending <;> simp [receiveCode, Instr.Sound, ReceiveState.ann, Ann.keep_iff]
  case readSize l =>
    intro n
    rw [ReceiveState.afterSize]
    split <;> simp [ReceiveState.ann, Ann.keep_iff]
  case leave rel r =>
    cases rel <;> simp [receiveCode, Instr.Sound, ReceiveState.afterLeave, ReceiveState.ann,
      Ann.keep_iff, Release.held, Release.own]
  case clear rel r =>
    cases rel <;> simp [receiveCode, Instr.Sound, ReceiveState.afterLeave, ReceiveState.ann,
      Ann.keep_iff, Release.held, Release.own]
  case release rel r =>
    cases rel <;> simp [receiveCode, ReceiveState.releaseCode, Instr.Sound, ReceiveState.ann,
      Ann.release, Ann.keep_iff, Release.held, Release.own]
  case unlockLevelError rel r =>
    cases rel <;> simp [receiveCode, Instr.Sound, ReceiveState.ann, Ann.release, Ann.keep_iff,
      Release.held]
  all_goals
    simp [receiveCode, Instr.Sound, ReceiveState.ann, Ann.acquire, Ann.release, Ann.keep_iff,
      Release.held, Release.own]
  case install sem old new => exact eq_or_ne new old
  case lockNew l old => exact fun h => h.symm

theorem send_wf (i : ℕ) (p : SendState) : (p.ann i).WF := by
  cases p
  all_goals constructor <;> simp +contextual [SendState.ann]

theorem send_sound (b : SendArgs) (p : SendState) :
    (sendCode b p).Sound (SendState.ann b.lvl) (p.ann b.lvl) := by
  cases p
  case start =>
    rw [sendCode]
    split <;> simp [Instr.Sound, SendState.ann, Ann.acquire, Ann.keep_iff]
  case testTagWaiting =>
    intro n
    beta_reduce
    split <;> simp [SendState.ann, Ann.keep_iff]
  case testWaiting l =>
    intro n
    beta_reduce
    split_ifs <;> simp [SendState.ann, Ann.keep_iff]
  case unlockMutex l rc =>
    rw [sendCode]
    split <;> simp [Instr.Sound, SendState.ann, Ann.keep_iff]
  all_goals
    simp [sendCode, Instr.Sound, SendState.ann, Ann.acquire, Ann.release, Ann.keep_iff]

theorem awake_wf (p : AwakeState) : p.ann.WF := by
  cases p
  all_goals constructor <;> simp +contextual [AwakeState.ann]

theorem awake_sound (e : ℕ) (p : AwakeState) : (awakeCode e p).Sound AwakeState.ann p.ann := by
  cases p
  case testTagWaiting =>
    intro n
    beta_reduce
    split <;> simp [AwakeState.ann, Ann.keep_iff]
  case testWaiting i l =>
    intro n
    beta_reduce
    split <;> simp [AwakeState.ann, Ann.keep_iff]
  case unlockLevel i =>
    rw [awakeCode]
    split <;> simp [Instr.Sound, AwakeState.ann, Ann.release, Ann.keep_iff]
  all_goals
    simp [awakeCode, Instr.Sound, AwakeState.ann, Ann.acquire, Ann.release, Ann.keep_iff]

theorem thread_wf (t : Thread) : t.ann.WF := by
  cases t with
  | receive a p => exact receive_wf a.lvl p
  | send b p => exact send_wf b.lvl p
  | awake e p => exact awake_wf p

/-- **Every operation of every system call obeys the discipline.** -/
theorem thread_sound (t : Thread) : t.code.Sound Thread.ann t.ann := by
  cases t with
  | receive a p => exact Instr.sound_map (receive_sound a p)
  | send b p => exact Instr.sound_map (send_sound b p)
  | awake e p => exact Instr.sound_map (awake_sound e p)

/-- What every call owns and knows in the state. -/
def State.anns (s : State) (c : CallId) : Ann := (s.thread c).ann

theorem State.anns_of_receive {s : State} {c : CallId} {a : ReceiveArgs} {p : ReceiveState}
    (h : s.thread c = .receive a p) : s.anns c = p.ann a.lvl := congrArg Thread.ann h

theorem State.anns_of_send {s : State} {c : CallId} {b : SendArgs} {p : SendState}
    (h : s.thread c = .send b p) : s.anns c = p.ann b.lvl := congrArg Thread.ann h

theorem State.anns_of_awake {s : State} {c : CallId} {e : ℕ} {p : AwakeState}
    (h : s.thread c = .awake e p) : s.anns c = p.ann := congrArg Thread.ann h

theorem State.anns_wf (s : State) (c : CallId) : (s.anns c).WF := thread_wf (s.thread c)

/-- **What a step does**: one of the listed changes, made by the call that moves. -/
theorem Step.change {s s' : State} {c : CallId} (h : Step s c s') :
    Change c s.mem (s.anns c) (s'.anns c) s'.mem := by
  obtain ⟨m, p, hx, rfl⟩ := h.exec
  rw [State.anns, State.anns, Config.set_thread_self]
  exact Change.of_exec (thread_sound _) hx

/-- A step does not change what the other calls own and know. -/
theorem Step.anns_of_ne {s s' : State} {c : CallId} (h : Step s c s') (d : CallId) (hd : d ≠ c) :
    s'.anns d = s.anns d := congrArg Thread.ann (h.thread_of_ne hd)

end TagAos
