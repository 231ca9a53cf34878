import TagAos.Tag.System

/-!
# Names of instances

The code keeps the address of an instance in local variables, stores it in `tag_level`, loads it
again and accesses the instance it finds there.  It never computes with an address and never
compares two of them.  So it does not matter by which names the instances go, as long as different
instances that are in use have different names.

* `Thread.rename` — a call with every instance that it knows renamed.
* `Instr.Matches` — an instruction and its renamed form; `Thread.matches_code` says that the code
  of a renamed call is the renamed code.
* `Named` — two memories that agree up to the names of the instances in use.  `Named.exec_rename`
  runs a matching instruction in both.

Only instances in use have to be named apart: one that has been freed, in the memory or by somebody
else (`K`), may share its name with a later one.
-/

set_option autoImplicit false

namespace TagAos

open Conc

/-! ## Renaming a call

Only the points at which a call has an instance in a local variable change. -/

variable {π π' : Type}

/-- A semaphore with its instance renamed. -/
def Sem.rename (ρ : Addr → Addr) : Sem → Sem
  | tag => tag
  | level i => level i
  | rcu a => rcu (ρ a)

/-- A release with its instance renamed. -/
def Release.rename (ρ : Addr → Addr) : Release → Release
  | nothing => nothing
  | level => level
  | rcu a => rcu (ρ a)
  | rcuWrite a => rcuWrite (ρ a)

/-- A point of `tag_receive` with its instances renamed. -/
def ReceiveState.rename (ρ : Addr → Addr) : ReceiveState → ReceiveState
  | start => start
  | loadTag => loadTag
  | checkPerm => checkPerm
  | lockLevel => lockLevel
  | loadLevel => loadLevel
  | enter l => enter (ρ l)
  | lockRcu l => lockRcu (ρ l)
  | unlockLevel l => unlockLevel (ρ l)
  | testReady l => testReady (ρ l)
  | lockLevelWrite l => lockLevelWrite (ρ l)
  | reloadLevel sem => reloadLevel (ρ sem)
  | retestReady sem l => retestReady (ρ sem) (ρ l)
  | readEpoch sem l => readEpoch (ρ sem) (ρ l)
  | create sem l e => create (ρ sem) (ρ l) e
  | install sem old new => install (ρ sem) (ρ old) (ρ new)
  | unlockOld sem l old => unlockOld (ρ sem) (ρ l) (ρ old)
  | lockNew l old => lockNew (ρ l) (ρ old)
  | rollback old => rollback (ρ old)
  | unlockLevelWrite l => unlockLevelWrite (ρ l)
  | register l => register (ρ l)
  | waitReady l => waitReady (ρ l)
  | waitTagReady l => waitTagReady (ρ l)
  | prepare l => prepare (ρ l)
  | condReady l pending => condReady (ρ l) pending
  | condTagReady l pending => condTagReady (ρ l) pending
  | sleep l => sleep (ρ l)
  | finish l => finish (ρ l)
  | codeTagReady l => codeTagReady (ρ l)
  | codeReady l => codeReady (ρ l)
  | recheck l => recheck (ρ l)
  | readSize l => readSize (ρ l)
  | copy l n => copy (ρ l) n
  | unlockRcu l r => unlockRcu (ρ l) r
  | leaveLevel l r => leaveLevel (ρ l) r
  | tryLock l r => tryLock (ρ l) r
  | loadNew l r => loadNew (ρ l) r
  | cmpEpoch l new r => cmpEpoch (ρ l) (ρ new) r
  | unlockFree l r => unlockFree (ρ l) r
  | free l r => free (ρ l) r
  | resetReady l r => resetReady (ρ l) r
  | resetSize l r => resetSize (ρ l) r
  | wipeSize l r => wipeSize (ρ l) r
  | wipe l n r => wipe (ρ l) n r
  | unlockReset l r => unlockReset (ρ l) r
  | unlockLevelError rel r => unlockLevelError (rel.rename ρ) r
  | leave rel r => leave (rel.rename ρ) r
  | clear rel r => clear (rel.rename ρ) r
  | release rel r => release (rel.rename ρ) r
  | unlockTag r => unlockTag r
  | done r => done r

/-- A point of `tag_send` with its instance renamed. -/
def SendState.rename (ρ : Addr → Addr) : SendState → SendState
  | start => start
  | loadTag => loadTag
  | checkPerm => checkPerm
  | testTagWaiting => testTagWaiting
  | lockLevel => lockLevel
  | loadLevel => loadLevel
  | unlockLevelNull => unlockLevelNull
  | lockRcu l => lockRcu (ρ l)
  | unlockLevelIntr => unlockLevelIntr
  | unlockLevel l => unlockLevel (ρ l)
  | lockMutex l => lockMutex (ρ l)
  | testReady l => testReady (ρ l)
  | testWaiting l => testWaiting (ρ l)
  | copy l => copy (ρ l)
  | setSize l => setSize (ρ l)
  | setReady l => setReady (ρ l)
  | unlockMutex l rc => unlockMutex (ρ l) rc
  | wake l => wake (ρ l)
  | unlockRcu l rc => unlockRcu (ρ l) rc
  | unlockTag rc => unlockTag rc
  | faultUnlockRcu l => faultUnlockRcu (ρ l)
  | faultUnlockTag l => faultUnlockTag (ρ l)
  | faultUnlockMutex l => faultUnlockMutex (ρ l)
  | done rc => done rc

/-- A point of `tag_ctl(TAG_AWAKE_ALL)` with its instance renamed. -/
def AwakeState.rename (ρ : Addr → Addr) : AwakeState → AwakeState
  | start => start
  | loadTag => loadTag
  | checkPerm => checkPerm
  | testTagReady => testTagReady
  | testTagWaiting => testTagWaiting
  | setTagReady => setTagReady
  | lockLevel i => lockLevel i
  | loadLevel i => loadLevel i
  | lockRcu i l => lockRcu i (ρ l)
  | unlockLevelIntr i => unlockLevelIntr i
  | testWaiting i l => testWaiting i (ρ l)
  | wake i l => wake i (ρ l)
  | unlockRcu i l => unlockRcu i (ρ l)
  | unlockLevel i => unlockLevel i
  | unlockTag rc => unlockTag rc
  | done rc => done rc

/-- A call with its instances renamed. -/
def Thread.rename (ρ : Addr → Addr) : Thread → Thread
  | receive a p => receive a (p.rename ρ)
  | send b p => send b (p.rename ρ)
  | awake e p => awake e (p.rename ρ)

/-! ## Renaming an instruction

The instruction of a renamed call is the renamed instruction; the one difference is in the two
instructions that find an instance, the load of a pointer and the creation, where the call is handed
the new name. -/

/-- An instruction with the instances that it names renamed, and the same continuations. -/
def Instr.rename (ρ : Addr → Addr) : Instr π → Instr π
  | downRead l ok intr => downRead (l.rename ρ) ok intr
  | upRead l p => upRead (l.rename ρ) p
  | downWrite l ok intr => downWrite (l.rename ρ) ok intr
  | tryWrite l ok busy => tryWrite (l.rename ρ) ok busy
  | upWrite l p => upWrite (l.rename ρ) p
  | tryMutex a ok busy => tryMutex (ρ a) ok busy
  | unlockMutex a p => unlockMutex (ρ a) p
  | loadReady a set clear => loadReady (ρ a) set clear
  | storeReady a v p => storeReady (ρ a) v p
  | readWaiting a p => readWaiting (ρ a) p
  | incWaiting a p => incWaiting (ρ a) p
  | decWaiting a z nz => decWaiting (ρ a) z nz
  | storeLevel i a p => storeLevel i (ρ a) p
  | loadSize a p => loadSize (ρ a) p
  | storeSize a n p => storeSize (ρ a) n p
  | loadEpoch a p => loadEpoch (ρ a) p
  | cmpEpoch b a newer older => cmpEpoch (ρ b) (ρ a) newer older
  | freeLevel a p => freeLevel (ρ a) p
  | copyFromUser a data n ok fault => copyFromUser (ρ a) data n ok fault
  | copyToUser a n ok fault => copyToUser (ρ a) n ok fault
  | memset a n p => memset (ρ a) n p
  | prepareWait a queued pending => prepareWait (ρ a) queued pending
  | schedule a p => schedule (ρ a) p
  | finishWait a p => finishWait (ρ a) p
  | wakeUpAll a p => wakeUpAll (ρ a) p
  | i => i

/-- The instruction hands an instance to its continuation. -/
def Instr.finds : Instr π → Bool
  | loadLevel _ _ _ | createLevel _ _ _ _ => true
  | _ => false

/-- `j` is `i` with its instances renamed by `ρ` and its continuations by `f`.  An instance that the
continuation of `i` is handed goes by its new name in that of `j`. -/
inductive Instr.Matches (ρ : Addr → Addr) (f : π → π') : Instr π → Instr π' → Prop
  | same {i : Instr π} (h : i.finds = false) : Matches ρ f i ((i.rename ρ).map f)
  | loadLevel {k : ℕ} {null : π} {found : Addr → π} {found' : Addr → π'}
      (h : ∀ a, found' (ρ a) = f (found a)) :
      Matches ρ f (.loadLevel k null found) (.loadLevel k (f null) found')
  | createLevel {k : ℕ} {e : ℤ} {failed : π} {ok : Addr → π} {ok' : Addr → π'}
      (h : ∀ a, ok' (ρ a) = f (ok a)) :
      Matches ρ f (.createLevel k e failed ok) (.createLevel k e (f failed) ok')

/-- An instruction that is already in renamed form. -/
theorem Instr.Matches.of_eq {ρ : Addr → Addr} {f : π → π'} {i : Instr π} {j : Instr π'}
    (hi : i.finds = false) (hj : j = (i.rename ρ).map f) : Instr.Matches ρ f i j :=
  hj ▸ .same hi

/-- The operation of a renamed receive. -/
theorem receive_matches (ρ : Addr → Addr) (a : ReceiveArgs) (p : ReceiveState) :
    Instr.Matches ρ (ReceiveState.rename ρ) (receiveCode a p) (receiveCode a (p.rename ρ)) := by
  cases p
  case start =>
    simp only [ReceiveState.rename, receiveCode]
    split <;> exact .same rfl
  case loadLevel => exact .loadLevel fun _ => rfl
  case reloadLevel sem => exact .loadLevel fun _ => rfl
  case loadNew l r => exact .loadLevel fun _ => rfl
  case create sem l e => exact .createLevel fun _ => rfl
  case condTagReady l pending => cases pending <;> exact .same rfl
  case readSize l =>
    refine .of_eq rfl (congrArg (Instr.loadSize (ρ l)) (funext fun n => ?_))
    simp only [ReceiveState.afterSize]
    split <;> rfl
  case leave rel r => cases rel <;> exact .same rfl
  case clear rel r => cases rel <;> exact .same rfl
  case release rel r => cases rel <;> exact .same rfl
  all_goals exact .same rfl

/-- The operation of a renamed send. -/
theorem send_matches (ρ : Addr → Addr) (b : SendArgs) (p : SendState) :
    Instr.Matches ρ (SendState.rename ρ) (sendCode b p) (sendCode b (p.rename ρ)) := by
  cases p
  case start =>
    simp only [SendState.rename, sendCode]
    split <;> exact .same rfl
  case testTagWaiting =>
    refine .of_eq rfl (congrArg Instr.readTagWaiting (funext fun n => ?_))
    simp only [apply_ite (SendState.rename ρ)]
    rfl
  case loadLevel => exact .loadLevel fun _ => rfl
  case testWaiting l =>
    refine .of_eq rfl (congrArg (Instr.readWaiting (ρ l)) (funext fun n => ?_))
    simp only [apply_ite (SendState.rename ρ)]
    rfl
  case unlockMutex l rc =>
    refine .of_eq rfl (congrArg (Instr.unlockMutex (ρ l)) ?_)
    simp only [apply_ite (SendState.rename ρ)]
    rfl
  all_goals exact .same rfl

/-- The operation of a renamed `AWAKE_ALL` command. -/
theorem awake_matches (ρ : Addr → Addr) (e : ℕ) (p : AwakeState) :
    Instr.Matches ρ (AwakeState.rename ρ) (awakeCode e p) (awakeCode e (p.rename ρ)) := by
  cases p
  case testTagWaiting =>
    refine .of_eq rfl (congrArg Instr.readTagWaiting (funext fun n => ?_))
    simp only [apply_ite (AwakeState.rename ρ)]
    rfl
  case loadLevel i => exact .loadLevel fun _ => rfl
  case testWaiting i l =>
    refine .of_eq rfl (congrArg (Instr.readWaiting (ρ l)) (funext fun n => ?_))
    simp only [apply_ite (AwakeState.rename ρ)]
    rfl
  case unlockLevel i =>
    refine .of_eq rfl (congrArg (Instr.upRead (.level i)) ?_)
    simp only [apply_ite (AwakeState.rename ρ)]
    rfl
  all_goals exact .same rfl

theorem Instr.map_map {π'' : Type} (f : π → π') (g : π' → π'') (i : Instr π) :
    (i.map f).map g = i.map fun p => g (f p) := by
  cases i <;> rfl

/-- Renaming the instances and mapping the continuations do not depend on each other. -/
theorem Instr.rename_map (ρ : Addr → Addr) (f : π → π') (i : Instr π) :
    (i.map f).rename ρ = (i.rename ρ).map f := by
  cases i <;> rfl

theorem Instr.finds_map (f : π → π') (i : Instr π) : (i.map f).finds = i.finds := by
  cases i <;> rfl

/-- What a call wraps its local states in does not matter. -/
theorem Instr.Matches.wrap {τ τ' : Type} {ρ : Addr → Addr} {f : π → π} {i j : Instr π} {g : π → τ}
    {g' : π → τ'} {f' : τ → τ'} (h : Instr.Matches ρ f i j) (hg : ∀ p, g' (f p) = f' (g p)) :
    Instr.Matches ρ f' (i.map g) (j.map g') := by
  cases h with
  | same hi =>
    refine .of_eq ((finds_map g i).trans hi) ?_
    rw [rename_map, map_map, map_map]
    exact congrArg (fun k => (i.rename ρ).map k) (funext hg)
  | @loadLevel k null found found' h =>
    rw [Instr.map, Instr.map, hg]
    exact .loadLevel fun a => by rw [h, hg]
  | @createLevel k e failed ok ok' h =>
    rw [Instr.map, Instr.map, hg]
    exact .createLevel fun a => by rw [h, hg]

/-- **The code does not depend on the names of the instances.** -/
theorem Thread.matches_code (ρ : Addr → Addr) (t : Thread) :
    Instr.Matches ρ (Thread.rename ρ) t.code (t.rename ρ).code := by
  cases t with
  | receive a p => exact (receive_matches ρ a p).wrap fun _ => rfl
  | send b p => exact (send_matches ρ b p).wrap fun _ => rfl
  | awake e p => exact (awake_matches ρ e p).wrap fun _ => rfl

/-! ## Two memories

Two memories agree up to names when the tags agree and each instance in use is, field by field, the
one of its other name.  Nothing is said about what has been freed. -/

/-- A `tag_level_t`: what the memory holds at one address. -/
structure TagLevel where
  level : ℕ
  size : ℕ
  ready : Bool
  epoch : ℤ
  waiting : ℤ
  localWq : Finset CallId
  wMutex : Option CallId
  buffer : List UInt8
  rcuLock : RwSem CallId

/-- The instance at an address. -/
def Mem.block (m : Mem) (a : Addr) : TagLevel :=
  ⟨m.level a, m.size a, m.ready a, m.epoch a, m.waiting a, m.localWq a, m.wMutex a, m.buffer a,
    m.sem (.rcu a)⟩

/-- The address has been allocated and has not been freed. -/
def Mem.Live (m : Mem) (a : Addr) : Prop := a < m.brk ∧ m.freed a = 0

/-! ### Assigning a field

An assignment to a field of an instance, made in both memories under the two names, field by field.
-/

section Assign

variable (m : Mem) (a : Addr)

theorem Mem.block_size (n : ℕ) :
    Mem.block { m with size := Function.update m.size a n } =
      Function.update m.block a { m.block a with size := n } := by
  funext x
  by_cases hx : x = a
  · subst hx; simp [Mem.block]
  · simp [Mem.block, hx]

theorem Mem.block_ready (v : Bool) :
    Mem.block { m with ready := Function.update m.ready a v } =
      Function.update m.block a { m.block a with ready := v } := by
  funext x
  by_cases hx : x = a
  · subst hx; simp [Mem.block]
  · simp [Mem.block, hx]

theorem Mem.block_waiting (n : ℤ) :
    Mem.block { m with waiting := Function.update m.waiting a n } =
      Function.update m.block a { m.block a with waiting := n } := by
  funext x
  by_cases hx : x = a
  · subst hx; simp [Mem.block]
  · simp [Mem.block, hx]

theorem Mem.block_localWq (q : Finset CallId) :
    Mem.block { m with localWq := Function.update m.localWq a q } =
      Function.update m.block a { m.block a with localWq := q } := by
  funext x
  by_cases hx : x = a
  · subst hx; simp [Mem.block]
  · simp [Mem.block, hx]

theorem Mem.block_wMutex (o : Option CallId) :
    Mem.block { m with wMutex := Function.update m.wMutex a o } =
      Function.update m.block a { m.block a with wMutex := o } := by
  funext x
  by_cases hx : x = a
  · subst hx; simp [Mem.block]
  · simp [Mem.block, hx]

theorem Mem.block_buffer (bs : List UInt8) :
    Mem.block { m with buffer := Function.update m.buffer a bs } =
      Function.update m.block a { m.block a with buffer := bs } := by
  funext x
  by_cases hx : x = a
  · subst hx; simp [Mem.block]
  · simp [Mem.block, hx]

theorem Mem.block_rcuLock (s : RwSem CallId) :
    Mem.block { m with sem := Function.update m.sem (.rcu a) s } =
      Function.update m.block a { m.block a with rcuLock := s } := by
  funext x
  by_cases hx : x = a
  · subst hx; simp [Mem.block]
  · simp [Mem.block, hx]

end Assign

/-- The instance has not been freed, neither in `m` nor by those whose frees `K` records. -/
def Mem.InUse (m : Mem) (K : Addr → Prop) (a : Addr) : Prop := m.Live a ∧ ¬ K a

/-- `μ` is `m`, up to the names of the instances in use: what `m` calls `a` is called `ρ a` in
`μ`. -/
structure Named (ρ : Addr → Addr) (K : Addr → Prop) (μ m : Mem) : Prop where
  tags : μ.tags = m.tags
  permission : μ.permission = m.permission
  euid : μ.euid = m.euid
  tagReady : μ.tagReady = m.tagReady
  tagWaiting : μ.tagWaiting = m.tagWaiting
  tagLevel : ∀ i, μ.tagLevel i = (m.tagLevel i).map ρ
  tagLock : μ.sem .tag = m.sem .tag
  levelLock : ∀ i, μ.sem (.level i) = m.sem (.level i)
  block : ∀ a, m.InUse K a → μ.block (ρ a) = m.block a
  live : ∀ a, m.InUse K a → μ.Live (ρ a)
  inj : ∀ a b, m.InUse K a → m.InUse K b → ρ a = ρ b → a = b

namespace Named

variable {ρ : Addr → Addr} {K : Addr → Prop} {μ μ' m m' : Mem} {a : Addr} {c : CallId} {o : Outcome}

section Fields

variable (h : Named ρ K μ m) (ha : m.InUse K a)

include h ha

theorem size : μ.size (ρ a) = m.size a := congrArg TagLevel.size (h.block a ha)
theorem ready : μ.ready (ρ a) = m.ready a := congrArg TagLevel.ready (h.block a ha)
theorem epoch : μ.epoch (ρ a) = m.epoch a := congrArg TagLevel.epoch (h.block a ha)
theorem waiting : μ.waiting (ρ a) = m.waiting a := congrArg TagLevel.waiting (h.block a ha)
theorem localWq : μ.localWq (ρ a) = m.localWq a := congrArg TagLevel.localWq (h.block a ha)
theorem wMutex : μ.wMutex (ρ a) = m.wMutex a := congrArg TagLevel.wMutex (h.block a ha)
theorem buffer : μ.buffer (ρ a) = m.buffer a := congrArg TagLevel.buffer (h.block a ha)
theorem rcuLock : μ.sem (.rcu (ρ a)) = m.sem (.rcu a) := congrArg TagLevel.rcuLock (h.block a ha)

/-- When both memories change at one instance only, and in the same way, the other instances in use
still agree, because they have other names. -/
theorem block_change (g : TagLevel → TagLevel)
    (hμ : μ'.block = Function.update μ.block (ρ a) (g (μ.block (ρ a))))
    (hm : m'.block = Function.update m.block a (g (m.block a))) :
    ∀ b, m.InUse K b → μ'.block (ρ b) = m'.block b := by
  intro b hb
  rw [hμ, hm]
  by_cases hba : b = a
  · subst hba
    rw [Function.update_self, Function.update_self, h.block b hb]
  · have hname : ρ b ≠ ρ a := fun heq => hba (h.inj b a hb ha heq)
    rw [Function.update_of_ne hname, Function.update_of_ne hba]
    exact h.block b hb

end Fields

/-- A semaphore that the instruction may access: one of the tag, or that of an instance in use. -/
theorem sem (h : Named ρ K μ m) {l : Sem} (hl : ∀ a, l = .rcu a → m.InUse K a) :
    μ.sem (l.rename ρ) = m.sem l := by
  cases l with
  | tag => exact h.tagLock
  | level i => exact h.levelLock i
  | rcu a => exact h.rcuLock (hl a rfl)

/-- An assignment to a semaphore, under both names. -/
theorem setSem (h : Named ρ K μ m) {l : Sem} (hl : ∀ a, l = .rcu a → m.InUse K a)
    (v : RwSem CallId) :
    Named ρ K { μ with sem := Function.update μ.sem (l.rename ρ) v }
      { m with sem := Function.update m.sem l v } := by
  cases l with
  | tag =>
    exact { h with
      tagLock := by simp [Sem.rename]
      levelLock := fun i => by simpa [Sem.rename] using h.levelLock i
      block := fun b hb => by simpa [Sem.rename, Mem.block] using h.block b hb }
  | level i =>
    exact { h with
      tagLock := by simpa [Sem.rename] using h.tagLock
      levelLock := fun j => by
        by_cases hji : j = i
        · subst hji; simp [Sem.rename]
        · simpa [Sem.rename, hji] using h.levelLock j
      block := fun b hb => by simpa [Sem.rename, Mem.block] using h.block b hb }
  | rcu a =>
    exact { h with
      tagLock := by simpa [Sem.rename] using h.tagLock
      levelLock := fun i => by simpa [Sem.rename] using h.levelLock i
      block := h.block_change (hl a rfl) (fun t => { t with rcuLock := v })
        (μ.block_rcuLock (ρ a) v) (m.block_rcuLock a v) }

/-- Freeing the instance `a`, under both names, leaves the other instances in use as they are. -/
theorem free (h : Named ρ K μ m) (ha : m.InUse K a) :
    Named ρ K { μ with freed := Function.update μ.freed (ρ a) (μ.freed (ρ a) + 1) }
      { m with freed := Function.update m.freed a (m.freed a + 1) } := by
  have keep : ∀ b, Mem.InUse { m with freed := Function.update m.freed a (m.freed a + 1) } K b →
      b ≠ a ∧ m.InUse K b := by
    rintro b ⟨⟨hlt, hfreed⟩, hK⟩
    have hba : b ≠ a := by
      rintro rfl
      simp at hfreed
    exact ⟨hba, ⟨hlt, by simpa [hba] using hfreed⟩, hK⟩
  exact { h with
    block := fun b hb => h.block b (keep b hb).2
    live := fun b hb => by
      obtain ⟨hba, hb⟩ := keep b hb
      have hname : ρ b ≠ ρ a := fun heq => hba (h.inj b a hb ha heq)
      exact ⟨(h.live b hb).1, by simpa [hname] using (h.live b hb).2⟩
    inj := fun b b' hb hb' => h.inj b b' (keep b hb).2 (keep b' hb').2 }

/-- Whether an acquisition may be interrupted does not depend on the names. -/
theorem mayInterrupt (h : Named ρ K μ m) {l : Sem} (hl : ∀ a, l = .rcu a → m.InUse K a) :
    μ.mayInterrupt (l.rename ρ) = m.mayInterrupt l := by
  cases l with
  | tag | level => rfl
  | rcu a => exact congrArg RwSem.isExclusive (h.rcuLock (hl a rfl))

/-- Neither does the permission. -/
theorem checkPerm (h : Named ρ K μ m) (cur : ℕ) : μ.checkPerm cur = m.checkPerm cur := by
  simp only [Mem.checkPerm, h.permission, h.euid]

/-- **A renamed instruction does what the instruction does**, if the instances that it accesses are
in use. -/
theorem exec_rename (h : Named ρ K μ m) {i : Instr π} {p : π} (hi : i.finds = false)
    (huse : ∀ a ∈ i.touches, m.InUse K a) (hx : exec c μ (i.rename ρ) o = some (μ', p)) :
    ∃ m', TagAos.exec c m i o = some (m', p) ∧ Named ρ K μ' m' := by
  have one : ∀ {a}, i.touches = [a] → m.InUse K a := fun ht => huse _ (by simp [ht])
  cases i <;> cases o <;>
    simp only [Instr.rename, TagAos.exec, Option.map_eq_some_iff, Option.some.injEq,
      Prod.mk.injEq, reduceCtorEq] at hx
  case jump.go => obtain ⟨rfl, rfl⟩ := hx; exact ⟨m, rfl, h⟩
  -- semaphores
  case downRead.go l ok intr =>
    have hl : ∀ a, l = .rcu a → m.InUse K a := by rintro a rfl; exact one rfl
    obtain ⟨v, hv, rfl, rfl⟩ := hx
    rw [h.sem hl] at hv
    exact ⟨_, by simp [TagAos.exec, hv], h.setSem hl v⟩
  case downRead.signal l ok intr =>
    have hl : ∀ a, l = .rcu a → m.InUse K a := by rintro a rfl; exact one rfl
    rw [h.mayInterrupt hl] at hx
    split at hx
    · rename_i hint; cases hx; exact ⟨m, by simp [TagAos.exec, hint], h⟩
    · cases hx
  case upRead.go l q =>
    have hl : ∀ a, l = .rcu a → m.InUse K a := by rintro a rfl; exact one rfl
    obtain ⟨rfl, rfl⟩ := hx
    rw [h.sem hl]
    exact ⟨_, rfl, h.setSem hl _⟩
  case downWrite.go l ok intr =>
    have hl : ∀ a, l = .rcu a → m.InUse K a := by rintro a rfl; exact one rfl
    obtain ⟨v, hv, rfl, rfl⟩ := hx
    rw [h.sem hl] at hv
    exact ⟨_, by simp [TagAos.exec, hv], h.setSem hl v⟩
  case downWrite.signal l ok intr =>
    have hl : ∀ a, l = .rcu a → m.InUse K a := by rintro a rfl; exact one rfl
    rw [h.mayInterrupt hl] at hx
    split at hx
    · rename_i hint; cases hx; exact ⟨m, by simp [TagAos.exec, hint], h⟩
    · cases hx
  case tryWrite.go l ok busy =>
    have hl : ∀ a, l = .rcu a → m.InUse K a := by rintro a rfl; exact one rfl
    rw [h.sem hl] at hx
    split at hx
    · rename_i v hv; cases hx; exact ⟨_, by simp [TagAos.exec, hv], h.setSem hl v⟩
    · rename_i hv; cases hx; exact ⟨m, by simp [TagAos.exec, hv], h⟩
  case upWrite.go l q =>
    have hl : ∀ a, l = .rcu a → m.InUse K a := by rintro a rfl; exact one rfl
    obtain ⟨rfl, rfl⟩ := hx
    rw [h.sem hl]
    exact ⟨_, rfl, h.setSem hl _⟩
  case tryMutex.go a ok busy =>
    have ha := one rfl
    rw [h.wMutex ha] at hx
    split at hx
    · rename_i hfree
      cases hx
      exact ⟨{ m with wMutex := Function.update m.wMutex a (some c) },
        by simp [TagAos.exec, hfree], { h with
        block := h.block_change ha (fun t => { t with wMutex := some c })
          (μ.block_wMutex ..) (m.block_wMutex ..) }⟩
    · rename_i hheld; cases hx; exact ⟨m, by simp [TagAos.exec, hheld], h⟩
  case unlockMutex.go a q =>
    obtain ⟨rfl, rfl⟩ := hx
    exact ⟨_, rfl, { h with
      block := h.block_change (one rfl) (fun t => { t with wMutex := none })
        (μ.block_wMutex ..) (m.block_wMutex ..) }⟩
  -- the fields of the tag
  case loadTags.go null found =>
    obtain ⟨rfl, rfl⟩ := hx
    exact ⟨m, by rw [TagAos.exec, h.tags], h⟩
  case checkPerm.go cur refused granted =>
    obtain ⟨rfl, rfl⟩ := hx
    exact ⟨m, by rw [TagAos.exec, h.checkPerm], h⟩
  case loadTagReady.go set clear =>
    obtain ⟨rfl, rfl⟩ := hx
    exact ⟨m, by rw [TagAos.exec, h.tagReady], h⟩
  case storeTagReady.go v q => obtain ⟨rfl, rfl⟩ := hx; exact ⟨_, rfl, { h with tagReady := rfl }⟩
  case readTagWaiting.go q =>
    obtain ⟨rfl, rfl⟩ := hx
    exact ⟨m, by rw [TagAos.exec, h.tagWaiting], h⟩
  case incTagWaiting.go q =>
    obtain ⟨rfl, rfl⟩ := hx
    exact ⟨_, rfl, { h with tagWaiting := congrArg (· + 1) h.tagWaiting }⟩
  case decTagWaiting.go z nz =>
    obtain ⟨rfl, rfl⟩ := hx
    exact ⟨{ m with tagWaiting := m.tagWaiting - 1 }, by rw [TagAos.exec, h.tagWaiting],
      { h with tagWaiting := congrArg (· - 1) h.tagWaiting }⟩
  case storeLevel.go k a q =>
    obtain ⟨rfl, rfl⟩ := hx
    refine ⟨_, rfl, { h with tagLevel := fun j => ?_ }⟩
    by_cases hjk : j = k
    · subst hjk; simp
    · simpa [hjk] using h.tagLevel j
  -- the fields of an instance
  case loadReady.go a set clear =>
    obtain ⟨rfl, rfl⟩ := hx
    exact ⟨m, by rw [TagAos.exec, h.ready (one rfl)], h⟩
  case storeReady.go a v q =>
    obtain ⟨rfl, rfl⟩ := hx
    exact ⟨_, rfl, { h with
      block := h.block_change (one rfl) (fun t => { t with ready := v })
        (μ.block_ready ..) (m.block_ready ..) }⟩
  case readWaiting.go a q =>
    obtain ⟨rfl, rfl⟩ := hx
    exact ⟨m, by rw [TagAos.exec, h.waiting (one rfl)], h⟩
  case incWaiting.go a q =>
    obtain ⟨rfl, rfl⟩ := hx
    exact ⟨_, rfl, { h with
      block := h.block_change (one rfl) (fun t => { t with waiting := t.waiting + 1 })
        (μ.block_waiting ..) (m.block_waiting ..) }⟩
  case decWaiting.go a z nz =>
    obtain ⟨rfl, rfl⟩ := hx
    exact ⟨{ m with waiting := Function.update m.waiting a (m.waiting a - 1) },
      by rw [TagAos.exec, h.waiting (one rfl)], { h with
      block := h.block_change (one rfl) (fun t => { t with waiting := t.waiting - 1 })
        (μ.block_waiting ..) (m.block_waiting ..) }⟩
  case loadSize.go a q =>
    obtain ⟨rfl, rfl⟩ := hx
    exact ⟨m, by rw [TagAos.exec, h.size (one rfl)], h⟩
  case storeSize.go a n q =>
    obtain ⟨rfl, rfl⟩ := hx
    exact ⟨_, rfl, { h with
      block := h.block_change (one rfl) (fun t => { t with size := n })
        (μ.block_size ..) (m.block_size ..) }⟩
  case loadEpoch.go a q =>
    obtain ⟨rfl, rfl⟩ := hx
    exact ⟨m, by rw [TagAos.exec, h.epoch (one rfl)], h⟩
  case cmpEpoch.go b a newer older =>
    obtain ⟨rfl, rfl⟩ := hx
    exact ⟨m, by rw [TagAos.exec, h.epoch (huse a (by simp [Instr.touches])),
      h.epoch (huse b (by simp [Instr.touches]))], h⟩
  case memset.go a n q =>
    obtain ⟨rfl, rfl⟩ := hx
    exact ⟨_, rfl, { h with
      block := h.block_change (one rfl)
        (fun t => { t with buffer := overwrite t.buffer (List.replicate n 0) })
        (μ.block_buffer ..) (m.block_buffer ..) }⟩
  case copyFromUser.go a data n ok fault =>
    split at hx
    · rename_i hn
      cases hx
      exact ⟨{ m with
          buffer := Function.update m.buffer a (overwrite (m.buffer a) (data.take n)) },
        by simp [TagAos.exec, hn], { h with
        block := h.block_change (one rfl)
          (fun t => { t with buffer := overwrite t.buffer (data.take n) })
          (μ.block_buffer ..) (m.block_buffer ..) }⟩
    · cases hx
  case copyFromUser.fault a data n ok fault k =>
    split at hx
    · rename_i hk
      cases hx
      exact ⟨{ m with
          buffer := Function.update m.buffer a
            (overwrite (m.buffer a) (data.take k ++ List.replicate (n - k) 0)) },
        by simp [TagAos.exec, hk], { h with
        block := h.block_change (one rfl)
          (fun t => { t with
            buffer := overwrite t.buffer (data.take k ++ List.replicate (n - k) 0) })
          (μ.block_buffer ..) (m.block_buffer ..) }⟩
    · cases hx
  case copyToUser.go a n ok fault =>
    obtain ⟨rfl, rfl⟩ := hx
    exact ⟨m, by rw [TagAos.exec, h.buffer (one rfl)], h⟩
  case copyToUser.fault a n ok fault k =>
    rw [h.buffer (one rfl)] at hx
    split at hx
    · rename_i hk; cases hx; exact ⟨m, by simp [TagAos.exec, hk], h⟩
    · cases hx
  -- the wait queue
  case prepareWait.go a queued pending =>
    obtain ⟨rfl, rfl⟩ := hx
    exact ⟨_, rfl, { h with
      block := h.block_change (one rfl) (fun t => { t with localWq := insert c t.localWq })
        (μ.block_localWq ..) (m.block_localWq ..) }⟩
  case prepareWait.signal a queued pending =>
    obtain ⟨rfl, rfl⟩ := hx
    exact ⟨_, rfl, { h with
      block := h.block_change (one rfl) (fun t => { t with localWq := t.localWq.erase c })
        (μ.block_localWq ..) (m.block_localWq ..) }⟩
  case schedule.go a q =>
    rw [h.localWq (one rfl)] at hx
    split at hx
    · cases hx
    · rename_i hc; cases hx; exact ⟨m, by simp [TagAos.exec, hc], h⟩
  case schedule.signal a q => obtain ⟨rfl, rfl⟩ := hx; exact ⟨m, rfl, h⟩
  case finishWait.go a q =>
    obtain ⟨rfl, rfl⟩ := hx
    exact ⟨_, rfl, { h with
      block := h.block_change (one rfl) (fun t => { t with localWq := t.localWq.erase c })
        (μ.block_localWq ..) (m.block_localWq ..) }⟩
  case wakeUpAll.go a q =>
    obtain ⟨rfl, rfl⟩ := hx
    exact ⟨_, rfl, { h with
      block := h.block_change (one rfl) (fun t => { t with localWq := ∅ })
        (μ.block_localWq ..) (m.block_localWq ..) }⟩
  case freeLevel.go a q =>
    obtain ⟨rfl, rfl⟩ := hx
    exact ⟨_, rfl, h.free (one rfl)⟩
  all_goals cases hi

end Named

end TagAos
