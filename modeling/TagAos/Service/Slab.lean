import TagAos.Service.Accounts
import TagAos.Service.Refs

/-!
# The service with an allocator that hands freed blocks out again

In `TagAos.Service.System` every instance has an address of its own within its tag.  Here all tags
have their instances in one heap, and `create_level` may return any block of it that is not in
use, as in `TagAos.Tag.Slab`: one that was an instance of the same tag, or of another tag, or of one
that has been deleted.  Whoever still refers to an instance that has been freed then works on
whatever has its block now.

The tags and the registry are those of `TagAos.Service.System`.  A call works on the fields of its
tag together with the heap (`Slab.Mem.view`).  A `tag_get` creates the instances before it
allocates the tag, and frees those it has created if it runs out of memory.  The `tag_t` themselves
keep the address of their allocation: no call works on a tag that has been freed
(`Reachable.not_freed_of_uses`), so it does not matter whether its block is used again.

* `Slab.step` — the steps with this allocator.
* `Slab.Related` — a state of one system beside a state of the other.
* `Slab.exists_beside` — every run in which no instance is freed to which another call refers is a
  run of `TagAos.Service.System`, up to the blocks the instances are in.
-/

set_option autoImplicit false

namespace TagAos

open Conc

/-! ## The blocks an instruction changes

An instruction of a call works on the tag the call has loaded, and on the instances that it names.
With one heap for all tags this has to be known, so that what one tag does can be kept apart from
the others. -/

section Frame

variable {π π' : Type} {c : CallId} {m m' μ μ' : Mem} {i : Instr π} {o : Outcome} {p : π} {x b : Addr}

/-- The instruction creates an instance. -/
def Instr.creates : Instr π → Outcome → Bool
  | .createLevel _ _ _ _, .go => true
  | _, _ => false

/-- An instruction changes only the instances that it accesses. -/
theorem Exec.block_of_not_touched (h : Exec c m i m' p) (hb : b ∉ i.touches) (hlive : m.Live b) :
    m'.block b = m.block b ∧ m'.Live b := by
  have hne := ne_of_lt hlive.1
  obtain ⟨hlt, hfreed⟩ := hlive
  cases h
  case createLevel =>
    rw [Mem.block_createLevel, Function.update_of_ne hne]
    exact ⟨rfl, Nat.lt_succ_of_lt hlt, hfreed⟩
  case freeLevel a =>
    refine ⟨rfl, hlt, ?_⟩
    have hba : b ≠ a := by simpa [Instr.touches] using hb
    exact (Function.update_of_ne hba ..).trans hfreed
  case downRead l _ _ _ | downWrite l _ _ _ | tryWrite l _ _ _ | upRead l | upWrite l =>
    have hl : Sem.rcu b ≠ l := by
      rintro rfl
      exact hb (List.mem_singleton_self b)
    exact ⟨by simp [Mem.block, hl], hlt, hfreed⟩
  all_goals
    first
      | exact ⟨rfl, hlt, hfreed⟩
      | (refine ⟨?_, hlt, hfreed⟩
         have hba : b ≠ _ := fun h => hb (List.mem_singleton.2 h)
         simp [Mem.block, hba])

/-- The same with an allocator that hands freed blocks out again. -/
theorem execAt_block_of_not_touched (h : execAt c m i o x = some (m', p)) (hb : b ∉ i.touches)
    (hlive : m.Live b) : m'.block b = m.block b ∧ m'.Live b := by
  by_cases hi : ∃ k e failed ok, i = .createLevel k e failed ok
  · obtain ⟨k, e, failed, ok, rfl⟩ := hi
    cases o <;> simp only [execAt, exec, reduceCtorEq, Option.some.injEq, Prod.mk.injEq] at h
    · split at h
      · rename_i hav
        cases h
        have hbx : b ≠ x := by
          rintro rfl
          exact hav.not_live hlive
        exact ⟨by rw [Mem.block_createLevelAt, Function.update_of_ne hbx],
          Mem.live_createLevelAt hlive⟩
      · cases h
    · obtain ⟨rfl, -⟩ := h
      exact ⟨rfl, hlive⟩
  · rw [execAt_eq fun k e failed ok hk => hi ⟨k, e, failed, ok, hk⟩] at h
    exact (Exec.of_exec h).block_of_not_touched hb hlive

theorem Mem.Available.live_of_createLevelAt {k : ℕ} {e : ℤ} (h : m.Available x) (hb : b ≠ x)
    (hlive : (m.createLevelAt x k e).Live b) : m.Live b := by
  obtain ⟨hlt, hfreed⟩ := hlive
  refine ⟨?_, (Function.update_of_ne hb ..).symm.trans hfreed⟩
  have hx : x ≤ m.brk := h.elim le_of_eq fun hx => hx.1.le
  rcases lt_max_iff.1 hlt with hlt | hlt
  · exact hlt
  · exact lt_of_lt_of_le (lt_of_le_of_ne (Nat.lt_succ_iff.1 hlt) hb) hx

/-- An instance that is live after an instruction was so before, or has just been created. -/
theorem live_of_execAt (h : execAt c m i o x = some (m', p)) (hlive : m'.Live b) :
    m.Live b ∨ i.creates o = true ∧ b = x := by
  by_cases hi : ∃ k e failed ok, i = .createLevel k e failed ok
  · obtain ⟨k, e, failed, ok, rfl⟩ := hi
    cases o <;> simp only [execAt, exec, reduceCtorEq, Option.some.injEq, Prod.mk.injEq] at h
    · split at h
      · rename_i hav
        cases h
        by_cases hbx : b = x
        · exact .inr ⟨rfl, hbx⟩
        · exact .inl (hav.live_of_createLevelAt hbx hlive)
      · cases h
    · obtain ⟨rfl, -⟩ := h
      exact .inl hlive
  · rw [execAt_eq fun k e failed ok hk => hi ⟨k, e, failed, ok, hk⟩] at h
    refine .inl ?_
    cases Exec.of_exec h
    case createLevel => exact absurd ⟨_, _, _, _, rfl⟩ hi
    case freeLevel a =>
      refine ⟨hlive.1, ?_⟩
      by_cases hba : b = a
      · subst hba
        have hfreed := hlive.2
        simp at hfreed
      · exact (Function.update_of_ne hba ..).symm.trans hlive.2
    all_goals exact hlive

/-- An instance that is live before an instruction is so afterwards, or has just been freed. -/
theorem Exec.live_or_freed (h : Exec c m i m' p) (hlive : m.Live b) :
    m'.Live b ∨ ∃ q, i = .freeLevel b q := by
  cases h
  case createLevel => exact .inl ⟨Nat.lt_succ_of_lt hlive.1, hlive.2⟩
  case freeLevel a =>
    by_cases hba : b = a
    · subst hba
      exact .inr ⟨p, rfl⟩
    · exact .inl ⟨hlive.1, (Function.update_of_ne hba ..).trans hlive.2⟩
  all_goals exact .inl hlive

theorem Instr.Matches.touches {ρ : Addr → Addr} {f : π → π'} {j : Instr π'}
    (h : Instr.Matches ρ f i j) : j.touches = i.touches.map ρ := by
  cases h with
  | same hi =>
    rw [Instr.touches_map]
    cases i <;> first | rfl | (rename_i l _; cases l <;> rfl) | (rename_i l _ _; cases l <;> rfl)
  | loadLevel | createLevel => rfl

/-- Every block in use by one side has an instance of the other, also after an instruction. -/
theorem Named.covers {ρ : Addr → Addr} {K O : Addr → Prop} {f : π → π'} {j : Instr π'} {q : π'}
    (hm : Instr.Matches ρ f i j) (hfreed : m.freed m.brk = 0)
    (hK : i.creates o = true → ¬ K m.brk)
    (hcov : ∀ b, μ.Live b → O b → ∃ a, m.InUse K a ∧ ρ a = b)
    (hp : exec c m i o = some (m', p)) (hq : execAt c μ j o x = some (μ', q))
    (hlive : μ'.Live b) (hb : O b ∨ i.creates o = true ∧ b = x) :
    ∃ a, m'.InUse K a ∧ Function.update ρ m.brk x a = b := by
  by_cases hnew : i.creates o = true ∧ b = x
  · -- the new instance
    obtain ⟨hcreates, rfl⟩ := hnew
    refine ⟨m.brk, ⟨?_, hK hcreates⟩, Function.update_self ..⟩
    cases i <;> cases o <;> cases hcreates
    cases hp
    exact ⟨Nat.lt_succ_self _, hfreed⟩
  · have hcreates : j.creates o = i.creates o := by
      cases hm with
      | same hi => cases i <;> cases o <;> rfl
      | loadLevel => rfl
      | createLevel => cases o <;> rfl
    obtain ⟨a, ha, rfl⟩ := hcov b
      ((live_of_execAt hq hlive).resolve_right (by rwa [hcreates])) (hb.resolve_right hnew)
    refine ⟨a, ⟨?_, ha.2⟩, Function.update_of_ne (ne_of_lt ha.1.1) ..⟩
    rcases (Exec.of_exec hp).live_or_freed ha.1 with hlive' | ⟨r, rfl⟩
    · exact hlive'
    · cases hm
      cases o <;> cases hq
      have hfreed := hlive.2
      simp at hfreed

end Frame

/-- The fields of the tag of `m`, and the instances of `h`. -/
def Mem.withHeap (m h : Mem) : Mem :=
  { m with
    level := h.level
    size := h.size
    ready := h.ready
    epoch := h.epoch
    waiting := h.waiting
    localWq := h.localWq
    wMutex := h.wMutex
    buffer := h.buffer
    sem := fun l =>
      match l with
      | .rcu a => h.sem (.rcu a)
      | l => m.sem l
    brk := h.brk
    freed := h.freed }

namespace Service

open Registry (GetArgs GetState DeleteState)

/-! ## Memory

The memory of `TagAos.Service.System`, whose tags keep their own fields, with a heap of instances
for all of them.  Each block in the heap is in use for a tag, or for a `tag_get` that is creating
one.  The owners are not a field of the source: no operation reads them. -/

/-- What a block is in use for. -/
inductive Owner
  /-- It is an instance of the tag. -/
  | tag (y : TagAddr)
  /-- It is an instance that a `tag_get` has created, whose tag is not there yet. -/
  | call (c : CallId)
  deriving DecidableEq

namespace Slab

/-- The memory of the module. -/
structure Mem where
  /-- `tags`, the tags, and the common structures. -/
  base : Service.Mem
  /-- The instances of all tags. -/
  heap : TagAos.Mem
  /-- The instances that a `tag_get` has stored in its local variable `tag_level`. -/
  created : CallId → List Addr
  /-- What a block was created for, the last time it was handed out.  No call reads this. -/
  owner : Addr → Owner

namespace Mem

/-- The memory of the module as it is loaded. -/
def initial : Mem where
  base := Service.Mem.initial
  heap := { TagAos.Mem.fresh 0 0 with brk := 0 }
  created _ := []
  owner _ := .tag 0

/-- What a call on the tag `y` works on: the fields of the tag, and the heap. -/
def view (m : Mem) (y : TagAddr) : TagAos.Mem := (m.base.obj y).withHeap m.heap

/-- The same after an operation of the call. -/
def setView (m : Mem) (y : TagAddr) (t : TagAos.Mem) : Mem :=
  { m with base := m.base.setObj y t, heap := t }

/-- The block `w` is handed out. -/
def give (m : Mem) (w : Addr) (o : Owner) : Mem := { m with owner := Function.update m.owner w o }

/-- The next instance of a new tag, in the block `w`. -/
def addLevel (m : Mem) (c : CallId) (i : ℕ) (w : Addr) : Mem :=
  { m with
    heap := m.heap.createLevelAt w i 0
    created := Function.update m.created c (m.created c ++ [w])
    owner := Function.update m.owner w (.call c) }

/-- `clear_tag_level` on the instances that a `tag_get` has created. -/
def clearCreated (m : Mem) (c : CallId) : Mem :=
  { m with heap := { m.heap with
      freed := fun b => if b ∈ m.created c then m.heap.freed b + 1 else m.heap.freed b } }

/-- A new tag with the descriptor `d` and the instances that have been created for it. -/
def newTag (m : Mem) (c : CallId) (a : GetArgs) (d : ℕ) : Mem :=
  { m with
    base := (m.base.newTag a d).setObj m.base.brk
      { TagAos.Mem.fresh a.permission a.euid with tagLevel := fun i => (m.created c)[i]? }
    owner := fun b => if b ∈ m.created c then .tag m.base.brk else m.owner b }

/-- `free_level` on the instance of level `i` of a tag, if there is one. -/
def clearLevel (m : Mem) (y : TagAddr) (i : ℕ) : Mem :=
  match (m.base.obj y).tagLevel i with
  | none => m
  | some b =>
    { m with heap := { m.heap with freed := Function.update m.heap.freed b (m.heap.freed b + 1) } }

end Mem

/-! ## Operations

The operations of `TagAos.Service.System`, word for word, on the heap.  Only an allocation is
different: the environment says which block it returns, and the operation is possible if that block
is not in use. -/

/-- Run one instruction of the call `c` on the descriptor `d`, with an allocator that returns the
block `w` if it is asked for one. -/
def execOn {π : Type} (c : CallId) (m : Mem) (d : ℕ) (x : Option TagAddr) (i : Instr π)
    (o : Outcome) (w : Addr) : Option (Mem × Option TagAddr × π) :=
  if inTag i then
    x.bind fun y => (execAt c (m.view y) i o w).map fun r =>
      (if i.creates o then (m.setView y r.1).give w (.tag y) else m.setView y r.1, x, r.2)
  else (Service.execOn c m.base d x i o).map fun r => ({ m with base := r.1 }, r.2)

/-- What an operation of `tag_get` does to the instances it creates. -/
def Mem.alloc (m : Mem) (c : CallId) (w : Addr) : GetState → Outcome → Option Mem
  | .allocLevels _, .go => some { m with created := Function.update m.created c [] }
  | .addLevel _ i, .go => if m.heap.Available w then some (m.addLevel c i w) else none
  | .addLevel _ _, .nomem | .allocEntry _, .nomem => some (m.clearCreated c)
  | _, _ => some m

/-- `tag_get`: the operation at each point. -/
def getStep (c : CallId) (m : Mem) (a : GetArgs) (x : Option TagAddr) (p : GetState) (o : Outcome)
    (w : Addr) : Option (Mem × Option TagAddr × GetState) :=
  match p, o with
  | .allocEntry d, .go => some (m.newTag c a d, some m.base.brk, .publish d)
  | p, o =>
    (m.alloc c w p o).bind fun m' =>
      (Service.getStep c m.base a x p o).map fun r => ({ m' with base := r.1 }, r.2)

/-- `tag_ctl(TAG_DELETE)`: the operation at each point. -/
def deleteStep (c : CallId) (m : Mem) (tag : ℤ) (euid : ℕ) (x : Option TagAddr) (i : ℕ)
    (p : DeleteState) (o : Outcome) : Option (Mem × Option TagAddr × ℕ × DeleteState) :=
  match p, o with
  | .freeTag e, .go =>
    x.map fun y =>
      if i < levels then (m.clearLevel y i, x, i + 1, .freeTag e)
      else ({ m with base := m.base.freeTag y }, x, i, .done 1)
  | p, o =>
    (Service.deleteStep c m.base tag euid x i p o).map fun r => ({ m with base := r.1 }, r.2)

/-- `dev_read`: the operation at each point. -/
def readStep (c : CallId) (m : Mem) (a : ReadArgs) (x : Option TagAddr) (p : ReadState)
    (o : Outcome) (w : Addr) : Option (Mem × Option TagAddr × ReadState) :=
  match readFails a p o with
  | some q => some (m, x, q)
  | none => execOn c m p.desc x (readCode a (m.base.entryOf x) p) o w

/-! ## States and steps

The environment of a step decides about the outcome, as before, and about the block. -/

/-- The memory of the module and the point each call is at. -/
abbrev State := Config CallId Mem Thread

/-- One operation of the call `c`, with an allocator that returns the block `w.2` if it is asked for
one. -/
def step (s : State) (c : CallId) (w : Outcome × Addr) : Option State :=
  match s.thread c with
  | .get a x p =>
    (getStep c s.mem a x p w.1 w.2).map fun r => s.set c r.1 (.get a r.2.1 r.2.2)
  | .delete tag euid x i p =>
    (deleteStep c s.mem tag euid x i p w.1).map fun r =>
      s.set c r.1 (.delete tag euid r.2.1 r.2.2.1 r.2.2.2)
  | .user tag x t =>
    (execOn c s.mem tag.toNat x (userCode tag t) w.1 w.2).map fun r =>
      s.set c r.1 (.user tag r.2.1 r.2.2)
  | .read a x p =>
    (readStep c s.mem a x p w.1 w.2).map fun r => s.set c r.1 (.read a r.2.1 r.2.2)

/-- Some operation of the call `c`. -/
def Step (s : State) (c : CallId) (s' : State) : Prop := Moves step s c s'

/-- The module has just been loaded, and no call has begun. -/
structure Init (s : State) : Prop where
  mem : s.mem = Mem.initial
  idle : ∀ c, (s.thread c).idle = true
  /-- No call has loaded a tag. -/
  entry : ∀ c, (s.thread c).entry = none
  /-- The loop of `clear_tag_level` starts at 0. -/
  counted : ∀ c, (s.thread c).Counted

/-! ## Freeing what nobody refers to

The condition under which the reuse of blocks cannot be noticed.  It is about the state before the
step that frees: the only thing that is asked is that no other call still has the address. -/

/-- The blocks that the next operation of the call may free. -/
def State.frees (s : State) (c : CallId) : Option Addr :=
  match s.thread c with
  | .user _ (some _) (.receive _ (.free l _)) => some l
  | .delete _ _ (some y) i (.freeTag _) => if i < levels then (s.mem.base.obj y).tagLevel i else none
  | _ => none

/-- The condition on a step: an instance is freed, by its last receiver or with its tag, when no
other call refers to it. -/
def FreesUnused (s : State) (c : CallId) : Prop :=
  ∀ b, s.frees c = some b → ∀ d, d ≠ c → b ∉ (s.thread d).refs

end Slab

end Service

end TagAos
