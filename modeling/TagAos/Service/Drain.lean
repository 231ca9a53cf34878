import TagAos.Service.Queue
import TagAos.Service.Unload

/-!
# The module can always be unloaded

A module that is in use cannot be unloaded, and a receive can be in use for as long as it likes.
But no call is stuck: from every state some run in which nobody new enters leads to a state in which
the module has gone (`can_unload`).

`Thread.todo` bounds the operations a call has in front of it.  It goes down in every operation but
three: a receive may queue itself and sleep again and again, and it tries the `rcu_lock` of its
instance again and again (`waits`).  The first two end with a signal.  The third ends when the other
readers of the instance have gone, and no reader of an instance is such a receive
(`Reachable.exists_todo_lt`).
-/

set_option autoImplicit false

namespace TagAos.Service

open Conc
open Registry (Lock maxTags GetArgs GetState DeleteState)

/-! ## What is left to do

Each point of a call gets a number that is larger than those of the points that can follow it, the
points of a wait set apart.  The numbers are bounds and nothing else: all that is used of them is
that they go down (`Step.todo_lt`). -/

/-- A bound on the operations of a receive until it returns. -/
def receiveTodo : ReceiveState → ℕ
  | .start => 47
  | .loadTag => 46
  | .checkPerm => 45
  | .lockLevel => 44
  | .loadLevel => 43
  | .enter _ => 42
  | .lockRcu _ => 41
  | .unlockLevel _ => 40
  | .testReady _ => 39
  | .lockLevelWrite _ => 38
  | .reloadLevel _ => 37
  | .retestReady _ _ => 36
  | .readEpoch _ _ => 35
  | .create _ _ _ => 34
  | .install _ _ _ => 33
  | .unlockOld _ _ _ => 32
  | .lockNew _ _ => 31
  | .unlockLevelWrite _ => 30
  | .register _ => 29
  | .waitReady _ => 28
  | .waitTagReady _ => 27
  | .condReady _ false => 26
  | .condTagReady _ false => 25
  | .sleep _ => 24
  | .prepare _ => 23
  | .condReady _ true => 22
  | .condTagReady _ true => 21
  | .finish _ => 20
  | .codeTagReady _ => 19
  | .codeReady _ => 18
  | .recheck _ => 17
  | .readSize _ => 16
  | .copy _ _ => 15
  | .unlockRcu _ _ => 14
  | .leaveLevel _ _ => 13
  | .tryLock _ _ => 12
  | .loadNew _ _ => 11
  | .cmpEpoch _ _ _ => 10
  | .resetReady _ _ => 9
  | .resetSize _ _ => 8
  | .wipeSize _ _ => 7
  | .unlockFree _ _ | .wipe _ _ _ | .rollback _ => 6
  | .free _ _ | .unlockReset _ _ | .unlockLevelError _ _ => 5
  | .leave _ _ => 4
  | .clear _ _ => 3
  | .release _ _ => 2
  | .unlockTag _ => 1
  | .done _ => 0

/-- The same for a send. -/
def sendTodo : SendState → ℕ
  | .start => 18
  | .loadTag => 17
  | .checkPerm => 16
  | .testTagWaiting => 15
  | .lockLevel => 14
  | .loadLevel => 13
  | .lockRcu _ => 12
  | .unlockLevel _ => 11
  | .lockMutex _ => 10
  | .testReady _ => 9
  | .testWaiting _ => 8
  | .copy _ => 7
  | .setSize _ => 6
  | .setReady _ => 5
  | .unlockMutex _ _ => 4
  | .wake _ | .faultUnlockRcu _ => 3
  | .unlockRcu _ _ | .unlockLevelNull | .unlockLevelIntr | .faultUnlockTag _ => 2
  | .unlockTag _ | .faultUnlockMutex _ => 1
  | .done _ => 0

/-- The same for an `AWAKE_ALL` command, which has 8 operations for each level at most. -/
def awakeTodo : AwakeState → ℕ
  | .start => 8 * levels + 14
  | .loadTag => 8 * levels + 13
  | .checkPerm => 8 * levels + 12
  | .testTagReady => 8 * levels + 11
  | .testTagWaiting => 8 * levels + 10
  | .setTagReady => 8 * levels + 9
  | .lockLevel i => 8 * (levels - i) + 8
  | .loadLevel i => 8 * (levels - i) + 7
  | .lockRcu i _ => 8 * (levels - i) + 6
  | .testWaiting i _ => 8 * (levels - i) + 5
  | .wake i _ => 8 * (levels - i) + 4
  | .unlockRcu i _ => 8 * (levels - i) + 3
  | .unlockLevel i | .unlockLevelIntr i => 8 * (levels - i) + 2
  | .unlockTag _ => 1
  | .done _ => 0

/-- The operations of `dev_read` on one tag. -/
def tagTodo : ℕ := 12 * levels + 20

/-- The operations of `dev_read` on the levels from `j` on, and on the tags from `i` on. -/
def levelTodo (v : ReadVars) : ℕ := tagTodo * (maxTags - v.i) + 12 * (levels - v.j)

/-- The same for a `dev_read`. -/
def readTodo : ReadState → ℕ
  | .start => tagTodo * maxTags + tagTodo + 4
  | .allocBuffer => tagTodo * maxTags + tagTodo + 3
  | .allocHeader => tagTodo * maxTags + tagTodo + 2
  | .allocDivider => tagTodo * maxTags + tagTodo + 1
  | .lockTag v => tagTodo * (maxTags - v.i) + tagTodo
  | .loadTag v => tagTodo * (maxTags - v.i) + 12 * levels + 19
  | .loadEntry v => tagTodo * (maxTags - v.i) + 12 * levels + 18
  | .lockLevel v => levelTodo v + 14
  | .loadLevel v => levelTodo v + 13
  | .lockRcu v _ => levelTodo v + 12
  | .unlockLevel v _ => levelTodo v + 11
  | .allocTemp v _ => levelTodo v + 10
  | .readWaiting v _ => levelTodo v + 9
  | .append v _ _ => levelTodo v + 8
  | .unlockRcu v _ | .unlockRcuSkip v _ | .unlockRcuError v _ => levelTodo v + 7
  | .unlockLevelSkip v => levelTodo v + 6
  | .appendDivider v => tagTodo * (maxTags - v.i) + 4
  | .unlockTag v => tagTodo * (maxTags - v.i) + 3
  | .unlockTagError _ | .unlockTagExit _ => 2
  | .copyOut _ => 1
  | .done _ => 0

/-- The same for a `tag_get`. -/
def getTodo : GetState → ℕ
  | .start => levels + 10
  | .lockCreate => levels + 9
  | .reserve => levels + 8
  | .unlockCreate _ => levels + 7
  | .allocLevels _ => levels + 6
  | .addLevel _ i => levels - i + 5
  | .allocEntry _ | .lockOpen => 4
  | .lockClear _ | .lookup => 3
  | .clearCommon _ | .loadTag _ => 2
  | .publish _ | .unlockClear | .unlockOpen _ => 1
  | .done _ => 0

/-- The same for a deletion. -/
def deleteTodo (i : ℕ) : DeleteState → ℕ
  | .start => levels + 11
  | .tryLock => levels + 10
  | .loadTag => levels + 9
  | .checkPerm _ => levels + 8
  | .clearTag _ => levels + 7
  | .unlockTag _ => levels + 6
  | .testWaiting _ => levels + 5
  | .lockClear _ => levels + 4
  | .clearCommon _ => levels + 3
  | .unlockClear _ => levels + 2
  | .freeTag _ => levels - i + 1
  | .restore _ _ | .unlockError _ => 1
  | .done _ => 0

/-- A bound on the operations of a call until it returns. -/
def Thread.todo : Thread → ℕ
  | get _ _ p => getTodo p
  | delete _ _ _ i p => deleteTodo i p
  | user _ _ (.receive _ p) => receiveTodo p
  | user _ _ (.send _ p) => sendTodo p
  | user _ _ (.awake _ p) => awakeTodo p
  | read _ _ p => readTodo p

/-- The call is a receive that queues itself, sleeps, or tries the `rcu_lock` of its instance. -/
def Thread.waits : Thread → Bool
  | user _ _ (.receive _ (.prepare _)) | user _ _ (.receive _ (.sleep _))
  | user _ _ (.receive _ (.tryLock _ _)) => true
  | _ => false

section Step

variable {s s' : State} {c : CallId} {m m' : Mem} {d : ℕ} {x x' : Option TagAddr}

/-- Every operation of a receive that does not wait leaves less to do.  The levels are given back
one after the other, so the bound counts the operations from each point to the end. -/
theorem receive_todo_lt {tag : ℤ} {a : ReceiveArgs} {p p' : ReceiveState}
    (h : ExecOn c m d x (receiveCode a p) m' x' p')
    (hw : (Thread.user tag x (.receive a p)).waits = false) : receiveTodo p' < receiveTodo p := by
  have hnext := h.next
  cases p
  case start =>
    rw [receiveCode] at hnext
    split at hnext
    · rcases hnext with rfl | rfl <;> simp [receiveTodo]
    · obtain rfl := hnext
      simp [receiveTodo]
  case prepare | sleep | tryLock => cases hw
  case release rel r =>
    cases rel <;>
    · obtain rfl := hnext
      simp [receiveTodo]
  case condReady l pending | condTagReady l pending =>
    cases pending <;> rcases hnext with rfl | rfl <;> simp [receiveTodo]
  case readSize l =>
    obtain ⟨n, rfl⟩ := hnext
    rw [ReceiveState.afterSize]
    split <;> simp [receiveTodo]
  case leave rel r =>
    cases rel <;> rcases hnext with rfl | rfl <;> simp [ReceiveState.afterLeave, receiveTodo]
  case clear rel r =>
    obtain rfl := hnext
    cases rel <;> simp [ReceiveState.afterLeave, receiveTodo]
  case readEpoch | wipeSize =>
    obtain ⟨n, rfl⟩ := hnext
    simp [receiveTodo]
  case copy => obtain ⟨bs, rfl | rfl⟩ := hnext <;> simp [receiveTodo]
  case done => cases hnext
  all_goals
    first
      | (obtain rfl := hnext; simp [receiveTodo])
      | (rcases hnext with rfl | rfl <;> simp [receiveTodo])
      | (rcases hnext with rfl | ⟨_, rfl⟩ <;> simp [receiveTodo])

/-- Every operation of a send leaves less to do. -/
theorem send_todo_lt {b : SendArgs} {p p' : SendState}
    (h : ExecOn c m d x (sendCode b p) m' x' p') : sendTodo p' < sendTodo p := by
  have hnext := h.next
  cases p
  case start =>
    rw [sendCode] at hnext
    split at hnext
    · rcases hnext with rfl | rfl <;> simp [sendTodo]
    · obtain rfl := hnext
      simp [sendTodo]
  case testTagWaiting | testWaiting =>
    obtain ⟨n, rfl⟩ := hnext
    beta_reduce
    split_ifs <;> simp [sendTodo]
  case unlockMutex l rc =>
    obtain rfl := hnext
    split <;> simp [sendTodo]
  case done => cases hnext
  all_goals
    first
      | (obtain rfl := hnext; simp [sendTodo])
      | (rcases hnext with rfl | rfl <;> simp [sendTodo])
      | (rcases hnext with rfl | ⟨_, rfl⟩ <;> simp [sendTodo])

/-- Every operation of an `AWAKE_ALL` command leaves less to do: within a level the operations that
are left, and a whole level less once it is left. -/
theorem awake_todo_lt {e : ℕ} {p p' : AwakeState}
    (h : ExecOn c m d x (awakeCode e p) m' x' p') : awakeTodo p' < awakeTodo p := by
  have hnext := h.next
  cases p
  case testTagWaiting | testWaiting =>
    obtain ⟨n, rfl⟩ := hnext
    beta_reduce
    split_ifs <;> simp [awakeTodo]
  case unlockLevel i =>
    obtain rfl := hnext
    split
    · simp only [awakeTodo]
      omega
    · simp [awakeTodo]
  case done => cases hnext
  all_goals
    first
      | (obtain rfl := hnext; simp [awakeTodo])
      | (rcases hnext with rfl | rfl <;> simp [awakeTodo])
      | (rcases hnext with rfl | ⟨_, rfl⟩ <;> simp [awakeTodo])

/-- Going on to the next tag leaves less to do than the tag that has been read. -/
theorem nextTag_todo_lt (v : ReadVars) :
    readTodo (.nextTag v) < tagTodo * (maxTags - v.i) + 3 := by
  rw [ReadState.nextTag]
  split
  · rename_i hi
    have hmul : tagTodo * (maxTags - v.i) = tagTodo * (maxTags - (v.i + 1)) + tagTodo := by
      rw [← Nat.mul_succ]
      congr 1
      omega
    simp only [readTodo]
    omega
  · simp [readTodo]

/-- Going on to the next level leaves less to do than the level that has been read. -/
theorem nextLevel_todo_lt (v : ReadVars) : readTodo (.nextLevel v) < levelTodo v + 6 := by
  rw [ReadState.nextLevel]
  split
  · simp only [readTodo, levelTodo]
    omega
  · simp only [readTodo, levelTodo]
    omega

/-- Every operation of a `dev_read` leaves less to do, in the order of tags, levels and operations.
-/
theorem read_todo_lt {a : ReadArgs} {e : Registry.Entry} {p p' : ReadState}
    (h : ExecOn c m d x (readCode a e p) m' x' p') : readTodo p' < readTodo p := by
  cases p
  case start =>
    cases h
    · split_ifs <;> simp [readTodo, ReadArgs.failed]
    · contradiction
  case lockTag v =>
    cases h
    · simp only [readTodo, tagTodo]
      omega
    · refine (nextTag_todo_lt v).trans_le ?_
      simp only [readTodo, tagTodo]
      omega
    · contradiction
  case loadTag v =>
    cases h
    · split <;> simp only [readTodo] <;> omega
    · simp only [readTodo]
      omega
    · contradiction
  case loadEntry v =>
    cases h
    · simp only [readTodo, levelTodo]
      omega
    · contradiction
  case lockLevel v =>
    cases h
    rename_i h
    cases h
    · simp [readTodo]
    · exact (nextLevel_todo_lt v).trans_le (by simp [readTodo])
  case unlockLevelSkip v =>
    cases h
    rename_i h
    cases h
    exact nextLevel_todo_lt v
  case unlockRcuSkip v l =>
    cases h
    rename_i h
    cases h
    exact (nextLevel_todo_lt v).trans_le (by simp [readTodo])
  case unlockRcu v l =>
    cases h
    rename_i h
    cases h
    split
    · simp [readTodo]
    · exact (nextLevel_todo_lt v).trans_le (by simp [readTodo])
  case unlockTag v =>
    cases h
    · exact nextTag_todo_lt v
    · contradiction
  case copyOut v =>
    cases h
    · split <;> simp [readTodo]
    · contradiction
  case unlockTagError | unlockTagExit =>
    cases h <;> first | contradiction | simp [readTodo, ReadArgs.failed]
  case allocDivider =>
    cases h <;> first | contradiction | simp [readTodo, ReadArgs.vars]
  case append | allocTemp | allocBuffer | allocHeader | appendDivider | done =>
    cases h <;> first | contradiction | simp [readTodo, levelTodo]
  all_goals
    cases h
    rename_i h
    cases h <;> simp [readTodo]

/-- So does an operation of a `dev_read` that fails. -/
theorem readFails_todo_lt {a : ReadArgs} {p q : ReadState} {o : Outcome}
    (h : readFails a p o = some q) : readTodo q < readTodo p := by
  cases p <;> cases o <;> simp only [readFails, reduceCtorEq, Option.some.injEq,
    Option.ite_none_right_eq_some, ReadArgs.failed] at h
  case append.nomem | appendDivider.nomem | copyOut.fault => obtain ⟨-, rfl⟩ := h; simp [readTodo]
  all_goals subst h; simp [readTodo]

/-- Every operation of a `tag_get` leaves less to do.  The failure of an allocation is a way to the
end that is shorter than the one it leaves. -/
theorem getStep_todo_lt {m m' : Registry.Mem} {a : GetArgs} {p p' : GetState}
    {o : Registry.Outcome} (h : Registry.getStep c m a p o = some (m', p')) :
    getTodo p' < getTodo p := by
  cases p
  case start =>
    cases o <;> simp only [Registry.getStep, reduceCtorEq, Option.some.injEq, Prod.mk.injEq] at h
    obtain ⟨-, rfl⟩ := h
    rw [Registry.getStart]
    split_ifs <;> simp [getTodo]
  case unlockCreate r =>
    cases r <;> cases o <;> simp only [Registry.getStep, reduceCtorEq, Option.some.injEq,
      Prod.mk.injEq] at h
    all_goals
      obtain ⟨-, rfl⟩ := h
      simp [getTodo]
  case allocLevels d =>
    cases o <;> simp only [Registry.getStep, reduceCtorEq, Option.some.injEq, Prod.mk.injEq] at h
    all_goals
      obtain ⟨-, rfl⟩ := h
      simp only [getTodo]
      omega
  case addLevel d i =>
    cases o <;> simp only [Registry.getStep, reduceCtorEq, Option.some.injEq, Prod.mk.injEq] at h
    · obtain ⟨-, rfl⟩ := h
      split_ifs <;> simp only [getTodo] <;> omega
    · obtain ⟨-, rfl⟩ := h
      simp only [getTodo]
      omega
  case lookup =>
    cases o <;> simp only [Registry.getStep, reduceCtorEq] at h
    split at h <;> cases h <;> simp [getTodo]
  case lockCreate | lockClear | lockOpen =>
    cases o <;> simp only [Registry.getStep, reduceCtorEq, Option.some.injEq, Prod.mk.injEq,
      Option.map_eq_some_iff] at h
    · obtain ⟨m₁, -, -, rfl⟩ := h; simp [getTodo]
    · obtain ⟨-, rfl⟩ := h; simp [getTodo]
  case done => cases o <;> cases h
  all_goals
    cases o <;> simp only [Registry.getStep, reduceCtorEq, Option.some.injEq, Prod.mk.injEq] at h
    all_goals
      obtain ⟨-, rfl⟩ := h
      simp [getTodo]

/-- Every operation of a deletion on the registry leaves less to do; the instances it still has to
free are counted by `i`. -/
theorem deleteStep_todo_lt {m m' : Registry.Mem} {tag : ℤ} {euid i : ℕ} {p p' : DeleteState}
    {o : Registry.Outcome} (h : Registry.deleteStep c m tag euid p o = some (m', p')) :
    deleteTodo i p' < deleteTodo i p := by
  cases p
  case start =>
    cases o <;> simp only [Registry.deleteStep, reduceCtorEq, Option.some.injEq,
      Prod.mk.injEq] at h
    obtain ⟨-, rfl⟩ := h
    split_ifs <;> simp [deleteTodo]
  case tryLock =>
    cases o <;> simp only [Registry.deleteStep, reduceCtorEq] at h
    · split at h <;> cases h <;> simp [deleteTodo]
    · cases h; simp [deleteTodo]
  case loadTag =>
    cases o <;> simp only [Registry.deleteStep, reduceCtorEq] at h
    split at h <;> cases h <;> simp [deleteTodo]
  case checkPerm e =>
    cases o <;> simp only [Registry.deleteStep, reduceCtorEq, Option.some.injEq,
      Prod.mk.injEq] at h
    obtain ⟨-, rfl⟩ := h
    split_ifs <;> simp [deleteTodo]
  case lockClear e =>
    cases o <;> simp only [Registry.deleteStep, reduceCtorEq, Option.some.injEq, Prod.mk.injEq,
      Option.map_eq_some_iff] at h
    · obtain ⟨m₁, -, -, rfl⟩ := h; simp [deleteTodo]
    · obtain ⟨-, rfl⟩ := h; simp [deleteTodo]
  case unlockClear e =>
    cases o <;> simp only [Registry.deleteStep, reduceCtorEq, Option.some.injEq,
      Prod.mk.injEq] at h
    obtain ⟨-, rfl⟩ := h
    simp only [deleteTodo]
    omega
  case done => cases o <;> cases h
  all_goals
    cases o <;> simp only [Registry.deleteStep, reduceCtorEq, Option.some.injEq,
      Prod.mk.injEq] at h
    all_goals
      obtain ⟨-, rfl⟩ := h
      simp [deleteTodo]

/-- **Every operation leaves less to do**, unless the call is one that waits. -/
theorem Step.todo_lt (hs : Step s c s') (hw : (s.thread c).waits = false) :
    (s'.thread c).todo < (s.thread c).todo := by
  cases hc : s.thread c with
  | get a x p =>
    obtain ⟨m, x', p', hx, rfl⟩ := hs.get hc
    rw [Config.set_thread_self]
    cases hx with
    | alloc | publish => simp [Thread.todo, getTodo]
    | registry _ _ h => exact getStep_todo_lt h
  | delete tag u x i p =>
    obtain ⟨m, x', i', p', hx, rfl⟩ := hs.delete hc
    rw [Config.set_thread_self]
    cases hx with
    | clearLevel _ hi =>
      simp only [Thread.todo, deleteTodo]
      omega
    | registry _ _ h => exact deleteStep_todo_lt h
    | _ => simp [Thread.todo, deleteTodo]
  | user tag x t =>
    cases t with
    | receive a p =>
      rcases hs.receive hc with ⟨rfl, rfl⟩ | ⟨m, x', p', hx, rfl⟩ <;> rw [Config.set_thread_self]
      · simp [Thread.todo, receiveTodo]
      · rw [hc] at hw
        exact receive_todo_lt hx hw
    | send b p =>
      rcases hs.send hc with ⟨rfl, rfl⟩ | ⟨m, x', p', hx, rfl⟩ <;> rw [Config.set_thread_self]
      · simp [Thread.todo, sendTodo]
      · exact send_todo_lt hx
    | awake e p =>
      rcases hs.awake hc with ⟨rfl, rfl⟩ | ⟨m, x', p', hx, rfl⟩ <;> rw [Config.set_thread_self]
      · simp [Thread.todo, awakeTodo]
      · exact awake_todo_lt hx
  | read a x p =>
    rcases hs.read hc with ⟨o, q, hq, rfl⟩ | ⟨m, x', q, hx, rfl⟩ <;> rw [Config.set_thread_self]
    · exact readFails_todo_lt hq
    · exact read_todo_lt hx

end Step

/-! ## Who can go on

A call that waits for a lock waits for the calls that hold it.  `TagAos.Service.Queue` shows that
such waits lead to a call that does not wait; that one can go on, unless it is a last receiver whose
trylock fails, and then the reader that keeps the `rcu_lock` from it can. -/

section Instr

variable {π : Type} {ann : π → Ann} {a : Ann} {i : Instr π} {c : CallId} {m : Mem} {d : ℕ}
  {x : Option TagAddr}

/-- An instruction outside of the tag does not depend on the tag. -/
theorem isSome_execOn_outside (hi : inTag i = false) (x x' : Option TagAddr) (o : Outcome) :
    (execOn c m d x i o).isSome = (execOn c m d x' i o).isSome := by
  cases i
  case jump | ret => cases o <;> rfl
  case loadTags null found =>
    cases o
    case go => simp only [execOn]
    all_goals rfl
  case downRead l ok intr =>
    cases l
    case tag =>
      cases o
      case go => simp only [execOn, Option.isSome_map]
      all_goals rfl
    all_goals cases hi
  case upRead l p | downWrite l p q | tryWrite l p q | upWrite l p =>
    cases l
    case tag => cases o <;> rfl
    all_goals cases hi
  all_goals cases hi

/-- A call that works on its tag, and does not wait for a lock, does not acquire one. -/
theorem acquires_of_takes (hx : inTag i = true → x ≠ none)
    (h : Queue.instrTakes d x i = none) : i.acquires = none := by
  cases x with
  | some y => exact Queue.acquires_eq_none h
  | none =>
    have hi : inTag i = false := Bool.eq_false_iff.2 fun hi => hx hi rfl
    cases i
    case downRead l ok intr | downWrite l ok intr =>
      cases l
      case tag => cases h
      all_goals cases hi
    all_goals rfl

/-- A call that has loaded its tag, and acquires nothing, can make its next step. -/
theorem execOn_isSome_of_loaded (hs : i.Sound ann a)
    (htag : ∀ p md, (.tag, md) ∈ (ann p).held → md = .read)
    (htag' : ∀ md, (.tag, md) ∈ a.held → md = .read) (hx : inTag i = true → x ≠ none)
    (ha : i.acquires = none) (hstop : i.stops = false) :
    ∃ o, (execOn c m d x i o).isSome = true := by
  cases hi : inTag i with
  | true =>
    obtain ⟨y, rfl⟩ := Option.ne_none_iff_exists'.1 (hx hi)
    obtain ⟨o, -, ho⟩ := Queue.execOn_isSome (y := y) (d := d) c m hs htag htag' ha hstop
    exact ⟨o, ho⟩
  | false =>
    obtain ⟨o, -, ho⟩ := Queue.execOn_isSome (y := 0) (d := d) c m hs htag htag' ha hstop
    exact ⟨o, by rw [isSome_execOn_outside hi x (some 0)]; exact ho⟩

/-- An operation inside of the tag belongs to a call that has loaded it. -/
theorem working_of_inTag {tag : ℤ} {t : TagAos.Thread} (h : inTag (userCode tag t) = true) :
    working t = true := by
  rw [userCode] at h
  split at h
  · cases h
  · cases t with
    | receive a p =>
      cases p
      case start =>
        simp only [TagAos.Thread.code, receiveCode] at h
        split at h <;> cases h
      all_goals first | rfl | cases h
    | send b p =>
      cases p
      case start =>
        simp only [TagAos.Thread.code, sendCode] at h
        split at h <;> cases h
      all_goals first | rfl | cases h
    | awake e p => cases p <;> first | rfl | cases h

/-- The same for a `dev_read`. -/
theorem working_of_readCode {a : ReadArgs} {e : Registry.Entry} {p : ReadState}
    (h : inTag (readCode a e p) = true) : p.working = true := by
  cases p <;> first | rfl | cases h

end Instr

section Progress

variable {s : State} {c : CallId} {y : TagAddr}

/-- The call is a receive that sleeps. -/
def Thread.sleeps : Thread → Bool
  | user _ _ (.receive _ (.sleep _)) => true
  | _ => false

/-- A call that has not returned, and neither waits for a lock nor sleeps, can go on. -/
theorem Reachable.step_isSome (hr : Reachable s) (hret : (s.thread c).returned = false)
    (htakes : Queue.takes s.mem (s.thread c) = none) (hsleep : (s.thread c).sleeps = false) :
    ∃ o, (Service.step s c o).isSome = true := by
  cases hc : s.thread c with
  | get a x p =>
    rw [hc] at hret htakes
    refine ⟨.go, ?_⟩
    cases p
    case lockCreate | lockClear | lockOpen => cases htakes
    case done => cases hret
    case unlockCreate r =>
      cases r <;> simp [Service.step, hc, getStep, registryOutcome, Registry.getStep]
    case lookup =>
      simp only [Service.step, hc, getStep, registryOutcome, Registry.getStep, Option.isSome_map,
        Option.bind_some]
      split <;> rfl
    all_goals simp [Service.step, hc, getStep, registryOutcome, Registry.getStep]
  | delete tag u x i p =>
    rw [hc] at hret htakes
    refine ⟨.go, ?_⟩
    have loaded : ∀ e, carries p = some e → ∃ y, x = some y := fun e he => by
      obtain ⟨y, hy, -⟩ := hr.named.delete c tag u x i p e hc he
      exact ⟨y, hy⟩
    cases p
    case lockClear => cases htakes
    case done => cases hret
    case tryLock =>
      simp only [Service.step, hc, deleteStep, registryOutcome, Registry.deleteStep,
        Option.isSome_map, Option.bind_some]
      split <;> rfl
    case loadTag =>
      simp only [Service.step, hc, deleteStep, Option.isSome_map]
      split <;> rfl
    case testWaiting e | freeTag e =>
      obtain ⟨y, rfl⟩ := loaded e rfl
      simp [Service.step, hc, deleteStep]
    all_goals simp [Service.step, hc, deleteStep, registryOutcome, Registry.deleteStep]
  | user tag x t =>
    have hx : inTag (userCode tag t) = true → x ≠ none := fun hi => by
      have := hr.loaded c
      rw [hc] at this
      exact this (working_of_inTag hi)
    have hstop : (userCode tag t).stops = false := by
      rw [hc] at hret hsleep
      rw [userCode]
      split
      · rfl
      · rw [Bool.eq_false_iff]
        intro hstop
        rcases Queue.stops_cases hstop with ⟨a, l, rfl⟩ | hdone
        · cases hsleep
        · rw [show (Thread.user tag x t).returned = true from hdone] at hret
          cases hret
    rw [hc] at htakes
    obtain ⟨o, ho⟩ := execOn_isSome_of_loaded (c := c) (m := s.mem) (d := tag.toNat)
      (user_sound tag t) (fun t md ht => Thread.mode_of_tag (t := .user tag none t) ht)
      (fun md ht => Thread.mode_of_tag (t := .user tag x t) ht) hx (acquires_of_takes hx htakes)
      hstop
    exact ⟨o, by simpa [Service.step, hc] using ho⟩
  | read a x p =>
    have hx : inTag (readCode a (s.mem.entryOf x) p) = true → x ≠ none := fun hi => by
      have := hr.loaded c
      rw [hc] at this
      exact this (working_of_readCode hi)
    have hstop : (readCode a (s.mem.entryOf x) p).stops = false := by
      rw [hc] at hret
      cases p <;> first | rfl | cases hret
    rw [hc] at htakes
    obtain ⟨o, ho⟩ := execOn_isSome_of_loaded (c := c) (m := s.mem) (d := p.desc)
      (read_sound a (s.mem.entryOf x) p)
      (fun p md hp => Thread.mode_of_tag (t := .read a none p) hp)
      (fun md hp => Thread.mode_of_tag (t := .read a x p) hp) hx (acquires_of_takes hx htakes)
      hstop
    refine ⟨o, ?_⟩
    simp only [Service.step, hc, readStep, Option.isSome_map]
    split
    · rfl
    · exact ho

/-- Some operation of the call leaves it with less to do.  The outcome of the operation may be
chosen along with it.  So a receive that sleeps lowers what it has left, by a signal, although an
operation of it that is not interrupted may take it round its loop again; and a last receiver that
tries an `rcu_lock` does when nobody holds the lock, although it does not when somebody does.  The
measure of `can_unload` goes down along operations of this kind. -/
def Lowers (s : State) (c : CallId) : Prop :=
  ∃ t, Step s c t ∧ (t.thread c).todo < (s.thread c).todo

theorem Lowers.of_isSome (hw : (s.thread c).waits = false)
    (h : ∃ o, (Service.step s c o).isSome = true) : Lowers s c := by
  obtain ⟨o, ho⟩ := h
  obtain ⟨t, ht⟩ := Option.isSome_iff_exists.1 ho
  exact ⟨t, ⟨o, ht⟩, Step.todo_lt ⟨o, ht⟩ hw⟩

/-- An operation of a receive on its tag. -/
theorem Lowers.of_exec {tag : ℤ} {a : ReceiveArgs} {p p' : ReceiveState} {o : Outcome}
    {t : TagAos.Mem} (hc : s.thread c = .user tag (some y) (.receive a p))
    (hidle : (TagAos.Thread.receive a p).idle = false) (hin : inTag (receiveCode a p) = true)
    (hx : exec c (s.mem.obj y) (receiveCode a p) o = some (t, p'))
    (hlt : receiveTodo p' < receiveTodo p) : Lowers s c := by
  have hcode : userCode tag (.receive a p) = (receiveCode a p).map (.receive a) := by
    rw [userCode, hidle]
    rfl
  refine ⟨s.set c (s.mem.setObj y t) (.user tag (some y) (.receive a p')), ⟨o, ?_⟩, ?_⟩
  · simp [Service.step, hc, hcode, execOn_map, execOn_of_inTag hin, hx]
  · rw [Config.set_thread_self, hc]
    exact hlt

/-- A signal ends the wait for a message. -/
theorem Lowers.of_signal {tag : ℤ} {a : ReceiveArgs} {l : Addr} {p : ReceiveState}
    (hc : s.thread c = .user tag (some y) (.receive a p)) (hp : p = .prepare l ∨ p = .sleep l) :
    Lowers s c := by
  rcases hp with rfl | rfl
  · exact .of_exec hc rfl rfl (o := .signal) rfl (by simp [receiveTodo])
  · exact .of_exec hc rfl rfl (o := .signal) rfl (by simp [receiveTodo])

/-- The trylock of a last receiver succeeds when nobody holds the lock. -/
theorem Lowers.of_tryLock {tag : ℤ} {a : ReceiveArgs} {l : Addr} {r : Result}
    (hc : s.thread c = .user tag (some y) (.receive a (.tryLock l r)))
    (hfree : ∀ d md, ¬ ((s.mem.obj y).sem (.rcu l)).Holds d md) : Lowers s c := by
  obtain ⟨t, ht⟩ := RwSem.exists_downWrite (c := c) (s := (s.mem.obj y).sem (.rcu l))
    fun d md hd => absurd hd (hfree d md)
  have hx : exec c (s.mem.obj y) (receiveCode a (.tryLock l r)) .go =
      some ({ s.mem.obj y with sem := Function.update (s.mem.obj y).sem (.rcu l) t },
        .loadNew l r) := by
    simp [receiveCode, exec, ht]
  exact .of_exec hc rfl rfl hx (by simp [receiveTodo])

/-- The three ways to wait. -/
theorem Thread.waits_cases {t : Thread} (h : t.waits = true) :
    ∃ tag x a p, t = .user tag x (.receive a p) ∧
      ((∃ l, p = .prepare l ∨ p = .sleep l) ∨ ∃ l r, p = .tryLock l r) := by
  cases t with
  | get | delete | read => cases h
  | user tag x t =>
    cases t with
    | send | awake => cases h
    | receive a p =>
      cases p
      case prepare l => exact ⟨tag, x, a, _, rfl, .inl ⟨l, .inl rfl⟩⟩
      case sleep l => exact ⟨tag, x, a, _, rfl, .inl ⟨l, .inr rfl⟩⟩
      case tryLock l r => exact ⟨tag, x, a, _, rfl, .inr ⟨l, r, rfl⟩⟩
      all_goals cases h

/-- The call is a last receiver that tries the `rcu_lock` of its instance. -/
def Thread.tries : Thread → Bool
  | user _ _ (.receive _ (.tryLock _ _)) => true
  | _ => false

theorem Thread.waits_of_sleeps {t : Thread} (h : t.sleeps = true) : t.waits = true := by
  cases t with
  | get | delete | read => cases h
  | user tag x t =>
    cases t with
    | send | awake => cases h
    | receive a p => cases p <;> first | rfl | cases h

theorem Thread.waits_of_tries {t : Thread} (h : t.tries = true) : t.waits = true := by
  cases t with
  | get | delete | read => cases h
  | user tag x t =>
    cases t with
    | send | awake => cases h
    | receive a p => cases p <;> first | rfl | cases h

/-- A call that waits for no lock can go on, unless its trylock fails. -/
theorem Reachable.lowers (hr : Reachable s) (hret : (s.thread c).returned = false)
    (htakes : Queue.takes s.mem (s.thread c) = none) (htries : (s.thread c).tries = false) :
    Lowers s c := by
  cases hw : (s.thread c).waits with
  | false =>
    refine .of_isSome hw (hr.step_isSome hret htakes (Bool.eq_false_iff.2 fun hsleep => ?_))
    rw [Thread.waits_of_sleeps hsleep] at hw
    cases hw
  | true =>
    obtain ⟨tag, x, a, p, hc, ⟨l, hp⟩ | ⟨l, r, rfl⟩⟩ := Thread.waits_cases hw
    · have hx := hr.loaded c
      rw [hc] at hx
      obtain ⟨y, rfl⟩ := Option.ne_none_iff_exists'.1
        (hx (by rcases hp with rfl | rfl <;> rfl) : x ≠ none)
      exact .of_signal hc hp
    · rw [hc] at htries
      cases htries

/-- The calls, with nobody in line. -/
def State.noLine (s : State) : Queue.State := ⟨s, fun _ => []⟩

theorem Reachable.noLine (hr : Reachable s) : Queue.Sound s.noLine :=
  ⟨hr.disciplined, hr.locks, fun l c md hm => by cases hm⟩

/-- A call that has not begun, or has returned, owns nothing. -/
theorem Thread.free_of_rests {t : Thread} (h : t.rests = true) :
    t.lockHeld = none ∧ t.ann = {} := by
  rw [Thread.rests, Bool.or_eq_true] at h
  cases t with
  | get a x p => cases p <;> first | exact ⟨rfl, rfl⟩ | simp [Thread.idle, Thread.returned] at h
  | delete tag u x i p =>
    cases p <;> first | exact ⟨rfl, rfl⟩ | simp [Thread.idle, Thread.returned] at h
  | user tag x t =>
    have hann : (Thread.user tag x t).ann = {} := by
      rcases h with h | h
      · exact TagAos.Thread.ann_of_idle h
      · exact TagAos.Thread.ann_of_returned h
    refine ⟨?_, hann⟩
    rw [Thread.lockHeld, show t.ann = {} from hann]
    rfl
  | read a x p =>
    cases p <;> first | exact ⟨rfl, rfl⟩ | simp [Thread.idle, Thread.returned] at h

/-- A last receiver that tries the `rcu_lock` of its instance owns its `tag_lock` only. -/
theorem Thread.owns_of_tries {t : Thread} (h : t.tries = true) :
    (∃ d, t.lockHeld = some (.tag d, .read)) ∧ t.ann = { t.ann with held := [(.tag, .read)] } ∧
      t.ann.mutex = none := by
  cases t with
  | get | delete | read => cases h
  | user tag x t =>
    cases t with
    | send | awake => cases h
    | receive a p =>
      cases p
      case tryLock l r => exact ⟨⟨tag.toNat, rfl⟩, rfl, rfl⟩
      all_goals cases h

/-- Who holds a lock is under way, and is not a last receiver that tries an `rcu_lock`, unless it is
a `tag_lock` that it holds for reading. -/
theorem holder_acts (hd : Disciplined s) (hk : LocksHeld s) {l : LockName} {md : Mode}
    (hc : HoldsLock s.mem c l md) : (s.thread c).rests = false ∧
      ((s.thread c).tries = true → ∃ d, l = .tag d ∧ md = .read) := by
  cases l with
  | common | tag d =>
    have hheld := (hk _ c md).1 hc
    refine ⟨Bool.eq_false_iff.2 fun hr => ?_, fun ht => ?_⟩
    · rw [(Thread.free_of_rests hr).1] at hheld; cases hheld
    · obtain ⟨⟨e, he⟩, -⟩ := Thread.owns_of_tries ht
      rw [he] at hheld
      cases hheld <;> exact ⟨_, rfl, rfl⟩
  | level y i | rcu y b =>
    obtain ⟨-, hheld, hne⟩ := hd.holds_iff.1 hc
    refine ⟨Bool.eq_false_iff.2 fun hr => ?_, fun ht => ?_⟩
    · rw [(Thread.free_of_rests hr).2] at hheld; cases hheld
    · rw [(Thread.owns_of_tries ht).2.1] at hheld
      simp at hheld
  | wMutex y b =>
    obtain ⟨-, hheld⟩ := hd.mutex_iff.1 hc.2
    refine ⟨Bool.eq_false_iff.2 fun hr => ?_, fun ht => ?_⟩
    · rw [(Thread.free_of_rests hr).2] at hheld; cases hheld
    · rw [(Thread.owns_of_tries ht).2.2] at hheld; cases hheld

/-- A call that does not wait for anybody acquires its lock. -/
theorem Lowers.of_takes {l : LockName} {md : Mode}
    (htakes : Queue.takes s.mem (s.thread c) = some (l, md))
    (hfree : ∀ d, ¬ Queue.WaitsFor s.noLine c d) : Lowers s c := by
  have hw : (s.thread c).waits = false := by
    rw [Bool.eq_false_iff]
    intro hw
    obtain ⟨tag, x, a, p, hc, ⟨k, rfl | rfl⟩ | ⟨k, r, rfl⟩⟩ := Thread.waits_cases hw <;>
    · rw [hc] at htakes; cases htakes
  refine .of_isSome hw ⟨.go, Queue.step_isSome_of_takes htakes fun e md' he => ?_⟩
  rw [Bool.eq_false_iff]
  exact fun hconf => hfree e ⟨l, md, md', htakes, hconf, .inl he⟩

/-- Whoever waits for a lock, some call that is under way can go on. -/
theorem Reachable.lowers_of_waitsFor (hr : Reachable s) {d : CallId}
    (hw : Queue.WaitsFor s.noLine c d) : ∃ f, (s.thread f).rests = false ∧ Lowers s f := by
  -- the end of the waits
  obtain ⟨e, f, -, ⟨l, md, md', htakes, hconf, hf⟩, hfree⟩ :=
    exists_end_of_rank (Queue.WaitsFor.rank_lt hr.noLine) hw
  have hheld : HoldsLock s.mem f l md' := hf.resolve_right fun hmem => by cases hmem
  obtain ⟨hrests, htries⟩ := holder_acts hr.disciplined hr.locks hheld
  have hacts : (s.thread f).tries = false := by
    rw [Bool.eq_false_iff]
    intro ht
    obtain ⟨k, rfl, rfl⟩ := htries ht
    -- nobody waits to write a `tag_lock`
    have hmode := Queue.takes_cases htakes
    cases hmode
    cases hconf
  refine ⟨f, hrests, ?_⟩
  cases ht : Queue.takes s.mem (s.thread f) with
  | none =>
    refine hr.lowers ?_ ht hacts
    rw [Thread.rests, Bool.or_eq_false_iff] at hrests
    exact hrests.2
  | some r => exact .of_takes ht hfree

/-- A call that has not returned can go on, or some other that is under way can, unless its trylock
fails. -/
theorem Reachable.exists_lowers (hr : Reachable s) (hret : (s.thread c).returned = false)
    (htries : (s.thread c).tries = false) :
    ∃ f, (f = c ∨ (s.thread f).rests = false) ∧ Lowers s f := by
  by_cases hw : ∃ d, Queue.WaitsFor s.noLine c d
  · obtain ⟨d, hd⟩ := hw
    obtain ⟨f, hf, hlow⟩ := hr.lowers_of_waitsFor hd
    exact ⟨f, .inr hf, hlow⟩
  · push Not at hw
    refine ⟨c, .inl rfl, ?_⟩
    cases ht : Queue.takes s.mem (s.thread c) with
    | none => exact hr.lowers hret ht htries
    | some r => exact .of_takes ht hw

/-- **No call is stuck**: as long as some call has not returned, it can go on, or some other that is
under way can, and has less to do then. -/
theorem Reachable.exists_todo_lt (hr : Reachable s) (hret : (s.thread c).returned = false) :
    ∃ f, (f = c ∨ (s.thread f).rests = false) ∧ Lowers s f := by
  cases htries : (s.thread c).tries with
  | false => exact hr.exists_lowers hret htries
  | true =>
    obtain ⟨tag, x, a, p, hc, ⟨l, hp⟩ | ⟨l, r, rfl⟩⟩ :=
      Thread.waits_cases (Thread.waits_of_tries htries)
    · rw [hc] at htries
      rcases hp with rfl | rfl <;> cases htries
    · have hx := hr.loaded c
      rw [hc] at hx
      obtain ⟨y, rfl⟩ := Option.ne_none_iff_exists'.1 (hx rfl : x ≠ none)
      by_cases hfree : ∃ d md, ((s.mem.obj y).sem (.rcu l)).Holds d md
      · -- somebody else has the instance, and does not try its `rcu_lock`
        obtain ⟨d, md, hd⟩ := hfree
        obtain ⟨hrests, hacts⟩ := holder_acts (l := .rcu y l) hr.disciplined hr.locks hd
        have hnot : (s.thread d).tries = false := Bool.eq_false_iff.2 fun ht => by
          obtain ⟨k, hk, -⟩ := hacts ht
          cases hk
        have hdone : (s.thread d).returned = false := by
          rw [Thread.rests, Bool.or_eq_false_iff] at hrests
          exact hrests.2
        obtain ⟨f, rfl | hf, hlow⟩ := hr.exists_lowers hdone hnot
        · exact ⟨f, .inr hrests, hlow⟩
        · exact ⟨f, .inr hf, hlow⟩
      · push Not at hfree
        exact ⟨c, .inl rfl, .of_tryLock hc hfree⟩

end Progress

/-! ## The way out

Nobody new enters, so the callers that are inside get fewer, and what each of them has left to do
can be added up.  When nobody is inside, the kernel finds the usage count at 0 and `cleanup_module`
runs to its end by itself. -/

/-- A bound on the operations of `cleanup_module`, and of the kernel before it. -/
def Cleanup.todo : Cleanup → ℕ
  | .live => (levels + 3) * (maxTags + 1) + 3
  | .freeBitmask => (levels + 3) * (maxTags + 1) + 2
  | .freeTable => (levels + 3) * (maxTags + 1) + 1
  | .testTag i => (levels + 3) * (maxTags - i) + levels + 3
  | .clearTag i _ k => (levels + 3) * (maxTags - i) + (levels - k) + 2
  | .freeTags => 1
  | .gone => 0

/-- Going on to the next tag leaves `cleanup_module` less to do. -/
theorem Cleanup.next_todo_lt (i : ℕ) :
    (Cleanup.next (i + 1)).todo < (levels + 3) * (maxTags - i) + 2 := by
  rw [Cleanup.next]
  split
  · rename_i hi
    have hmul : (levels + 3) * (maxTags - i) =
        (levels + 3) * (maxTags - (i + 1)) + (levels + 3) := by
      rw [← Nat.mul_succ]
      congr 1
      omega
    simp only [Cleanup.todo]
    omega
  · simp [Cleanup.todo]

section Way

variable {s₀ s : ModState}

/-- `cleanup_module` never stops before its end. -/
theorem ModState.exists_cleanupStep (hl : s.cleanup ≠ .live) (hg : s.cleanup ≠ .gone) :
    ∃ s', s.cleanupStep = some s' ∧ s'.cleanup.todo < s.cleanup.todo := by
  cases hc : s.cleanup with
  | live => exact absurd hc hl
  | gone => exact absurd hc hg
  | freeBitmask =>
    refine ⟨s.freePart .bitmask .freeTable, by simp [ModState.cleanupStep, hc], ?_⟩
    exact Nat.lt_succ_self _
  | freeTable =>
    refine ⟨s.freePart .table (.next 0), by simp [ModState.cleanupStep, hc], ?_⟩
    show (Cleanup.testTag 0).todo < _
    simp only [Cleanup.todo, Nat.sub_zero, Nat.mul_succ]
    omega
  | testTag i =>
    cases ht : s.service.mem.tags i with
    | none =>
      refine ⟨{ s with cleanup := .next (i + 1) }, by simp [ModState.cleanupStep, hc, ht], ?_⟩
      refine (Cleanup.next_todo_lt i).trans_le ?_
      simp only [Cleanup.todo]
      omega
    | some y =>
      refine ⟨{ s with cleanup := .clearTag i y 0 }, by simp [ModState.cleanupStep, hc, ht], ?_⟩
      simp only [Cleanup.todo]
      omega
  | clearTag i y k =>
    by_cases hk : k < levels
    · refine ⟨s.setMem (s.service.mem.clearLevel y k) (.clearTag i y (k + 1)),
        by simp [ModState.cleanupStep, hc, hk], ?_⟩
      simp only [ModState.setMem, Cleanup.todo]
      omega
    · refine ⟨s.setMem (s.service.mem.freeTag y) (.next (i + 1)),
        by simp [ModState.cleanupStep, hc, hk], ?_⟩
      refine (Cleanup.next_todo_lt i).trans_le ?_
      simp only [Cleanup.todo]
      omega
  | freeTags =>
    exact ⟨s.freePart .tags .gone, by simp [ModState.cleanupStep, hc], Nat.one_pos⟩

/-- `n` is what is left to do until the module has gone: the operations of the callers that are
inside, one more for the `module_put` of each, and those of the kernel.  The callers inside are a
finite set because a run is finite and a step lets in one caller at most; the set is part of the
statement, since there is no bound on it.  So is the invariant of the module, which says that
whoever is outside holds no lock and stands in nobody's way. -/
def Left (s₀ s : ModState) (n : ℕ) : Prop :=
  ModInv s₀ s ∧ ∃ S : Finset CallId, (∀ c, c ∈ S ↔ s.phase c = .inside) ∧
    ∑ c ∈ S, ((s.service.thread c).todo + 1) + s.cleanup.todo = n

/-- The mover is a caller that is inside, or the kernel. -/
def Departs (s : ModState) (c : Option CallId) : Prop := ∀ d, c = some d → s.phase d = .inside

/-- As long as the module has not gone, some call that is inside, or the kernel, can make a step
that leaves less to do.  If a call is inside, one of them can go on (`Reachable.exists_todo_lt`) or
has returned and leaves; if none is, the usage counter is 0 and `rmmod` gets on. -/
theorem Left.step (h0 : s₀.Init) {n : ℕ} (h : Left s₀ s n) (hg : s.cleanup ≠ .gone) :
    ∃ c s' m, Departs s c ∧ ModState.Step s c s' ∧ Left s₀ s' m ∧ m < n := by
  obtain ⟨hinv, S, hS, rfl⟩ := h
  by_cases hl : s.cleanup = .live
  · by_cases hc : ∃ c, s.phase c = .inside
    · obtain ⟨c, hc⟩ := hc
      have hcS := (hS c).2 hc
      cases hret : (s.service.thread c).returned with
      | true =>
        -- `module_put`
        have hs : ModState.Step s (some c) (s.setPhase c .left (s.refcnt - 1)) :=
          ⟨.go, by simp [ModState.step, ModState.wrapperStep, hc, hret]⟩
        refine ⟨some c, _, _, fun d hd => by cases hd; exact hc, hs,
          ⟨hinv.step h0 hs.move, S.erase c, fun d => ?_, rfl⟩, ?_⟩
        · rw [Finset.mem_erase, hS]
          by_cases hdc : d = c
          · subst hdc; simp
          · rw [s.setPhase_of_ne _ _ hdc]
            simp [hdc]
        · have hsum := Finset.add_sum_erase S (fun c => (s.service.thread c).todo + 1) hcS
          show ∑ d ∈ S.erase c, ((s.service.thread d).todo + 1) + s.cleanup.todo < _
          omega
      | false =>
        have hr : Reachable s.service := ⟨_, h0.service, hinv.live hl⟩
        obtain ⟨f, hf, t, ht, hlt⟩ := hr.exists_todo_lt hret
        have hinside : s.phase f = .inside := by
          rcases hf with rfl | hf
          · exact hc
          · by_contra hne
            rw [hinv.rests f hne] at hf; cases hf
        have hdone : (s.service.thread f).returned = false := by
          rcases hf with rfl | hf
          · exact hret
          · rw [Thread.rests, Bool.or_eq_false_iff] at hf
            exact hf.2
        have hs : ModState.Step s (some f) { s with service := t } := by
          obtain ⟨o, ho⟩ := ht
          exact ⟨o, by simp [ModState.step, ModState.wrapperStep, hinside, hdone, ho]⟩
        refine ⟨some f, _, _, fun d hd => by cases hd; exact hinside, hs,
          ⟨hinv.step h0 hs.move, S, hS, rfl⟩, ?_⟩
        refine Nat.add_lt_add_right (Finset.sum_lt_sum (fun d _ => ?_) ⟨f, (hS f).2 hinside, ?_⟩) _
        · by_cases hdf : d = f
          · subst hdf; exact Nat.succ_le_succ hlt.le
          · show (t.thread d).todo + 1 ≤ _
            rw [ht.thread_of_ne hdf]
        · exact Nat.succ_lt_succ hlt
    · -- the last caller has gone
      push Not at hc
      have hzero : s.refcnt = 0 := by
        obtain ⟨T, hT, hcard⟩ := hinv.count
        have hempty : T = ∅ := Finset.eq_empty_of_forall_notMem fun d hd => hc d ((hT d).1 hd)
        rw [← hcard, hempty]
        rfl
      have hs : ModState.Step s none { s with cleanup := .freeBitmask } :=
        ⟨.go, by simp [ModState.step, ModState.cleanupStep, hl, hzero]⟩
      refine ⟨none, _, _, fun d hd => (by cases hd), hs, ⟨hinv.step h0 hs.move, S, hS, rfl⟩, ?_⟩
      rw [hl]
      exact Nat.add_lt_add_left (Nat.lt_succ_self _) _
  · obtain ⟨s', hs', hlt⟩ := ModState.exists_cleanupStep hl hg
    have hs : ModState.Step s none s' := ⟨.go, hs'⟩
    obtain ⟨hphase, -, hthread, -⟩ := ModState.cleanupStep_frame hl hs'
    refine ⟨none, s', _, fun d hd => (by cases hd), hs,
      ⟨hinv.step h0 hs.move, S, fun d => by rw [hphase]; exact hS d, rfl⟩, ?_⟩
    rw [hthread]
    exact Nat.add_lt_add_left hlt _

end Way

/-- A creation, and receives on the tag. -/
def sleepers : CallId → Thread
  | 0 => .get ⟨5, Registry.tagCreat, Registry.tagPermAll, 0⟩ none .start
  | _ => .user 0 none (.receive ⟨0, true, 2, 0⟩ .start)

theorem sleepers_init : (ModState.start sleepers).Init where
  service := ⟨rfl, fun c => by
    show (sleepers c).idle = true
    unfold sleepers
    split <;> rfl, fun c => by
    show (sleepers c).entry = none
    unfold sleepers
    split <;> rfl⟩
  counted c := by
    show (sleepers c).Counted
    unfold sleepers
    split <;> trivial
  phase _ := rfl
  refcnt := rfl
  cleanup := rfl
  freed _ := rfl

/-- Two receives sleep on the tag. -/
def bothAsleep : ModState :=
  after ModState.step (ModState.start sleepers) (List.replicate 41 (some 0, .go) ++
    List.replicate 16 (some 1, .go) ++ List.replicate 16 (some 2, .go))

end TagAos.Service
