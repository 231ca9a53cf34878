import TagAos.Service.Slab

/-!
# The instances of the service by their names

A state of `TagAos.Service.System` beside a state with the allocator of `TagAos.Service.Slab`.  What
is instance `a` of the tag `y` in one is in the block `ρ y a` in the other, and every call is at the
same point, with its instances renamed.

Only the instances in use have a name that means anything: one that has been freed, by its last
receiver or with its tag, may have its block in common with any other.  The name of an instance that
does not exist yet is free, so what is said of a call holds for every `ρ'` that extends `ρ`.

* `Slab.MemNamed` — the two memories, each block with the tag or the call it belongs to.
* `Slab.Created` — the instances of a tag that is not there yet.
* `Slab.Related` — the two states.
* `Slab.Keeps` — an operation changes only the blocks of one owner; what belongs to another keeps
  its name.
-/

set_option autoImplicit false

namespace TagAos.Service

open Conc
open Registry (GetArgs GetState DeleteState)

/-! ## Renaming a call

As in `TagAos.Tag.Renaming`, for the calls of the service.  A call has loaded one tag at most, so
the names of the instances of that tag are all that matters to it. -/

/-- A point of `dev_read` with its instance renamed. -/
def ReadState.rename (ρ : Addr → Addr) : ReadState → ReadState
  | lockRcu v l => lockRcu v (ρ l)
  | unlockLevel v l => unlockLevel v (ρ l)
  | allocTemp v l => allocTemp v (ρ l)
  | readWaiting v l => readWaiting v (ρ l)
  | append v l temp => append v (ρ l) temp
  | unlockRcuSkip v l => unlockRcuSkip v (ρ l)
  | unlockRcuError v l => unlockRcuError v (ρ l)
  | unlockRcu v l => unlockRcu v (ρ l)
  | p => p

/-- A call with its instances renamed: `ρ y` says what those of the tag `y` are called. -/
def Thread.rename (ρ : TagAddr → Addr → Addr) : Thread → Thread
  | user tag x t => user tag x (t.rename (ρ (x.getD 0)))
  | read a x p => read a x (p.rename (ρ (x.getD 0)))
  | t => t

section Rename

variable {ρ : Addr → Addr}

@[simp] theorem ReadState.rename_nextTag (v : ReadVars) :
    (nextTag v).rename ρ = nextTag v := by
  rw [nextTag]
  split <;> rfl

@[simp] theorem ReadState.rename_nextLevel (v : ReadVars) :
    (nextLevel v).rename ρ = nextLevel v := by
  rw [nextLevel]
  split <;> rfl

theorem ReadState.desc_rename (p : ReadState) : (p.rename ρ).desc = p.desc := by
  cases p <;> rfl

/-- The operation of a renamed `dev_read`. -/
theorem read_matches (ρ : Addr → Addr) (a : ReadArgs) (e : Registry.Entry) (p : ReadState) :
    Instr.Matches ρ (ReadState.rename ρ) (readCode a e p) (readCode a e (p.rename ρ)) := by
  cases p
  case start =>
    refine .of_eq rfl (congrArg Instr.jump ?_)
    rw [apply_ite (ReadState.rename ρ), apply_ite (ReadState.rename ρ)]
    rfl
  case loadTag v =>
    refine .of_eq rfl (congrArg (Instr.loadTags _) ?_)
    rw [apply_ite (ReadState.rename ρ)]
    rfl
  case copyOut v =>
    refine .of_eq rfl (congrArg Instr.jump ?_)
    rw [apply_ite (ReadState.rename ρ)]
    rfl
  case loadLevel v => exact .loadLevel fun _ => rfl
  case unlockRcu v l =>
    refine .of_eq rfl (congrArg (Instr.upRead (.rcu (ρ l))) ?_)
    rw [apply_ite (ReadState.rename ρ), ReadState.rename_nextLevel]
    rfl
  case lockTag v =>
    exact .of_eq rfl (congrArg (Instr.downRead .tag _) (ReadState.rename_nextTag v).symm)
  case unlockTag v =>
    exact .of_eq rfl (congrArg (Instr.upRead .tag) (ReadState.rename_nextTag v).symm)
  case lockLevel v =>
    exact .of_eq rfl (congrArg (Instr.downRead _ _) (ReadState.rename_nextLevel v).symm)
  case unlockLevelSkip v =>
    exact .of_eq rfl (congrArg (Instr.upRead _) (ReadState.rename_nextLevel v).symm)
  case unlockRcuSkip v l =>
    exact .of_eq rfl (congrArg (Instr.upRead _) (ReadState.rename_nextLevel v).symm)
  all_goals exact .same rfl

theorem readFails_rename (a : ReadArgs) (p : ReadState) (o : Outcome) :
    readFails a (p.rename ρ) o = (readFails a p o).map (ReadState.rename ρ) := by
  cases p <;> cases o <;> first | rfl | skip
  case append.nomem | appendDivider.nomem | copyOut.fault =>
    simp only [ReadState.rename, readFails]
    split <;> rfl

theorem Thread.idle_rename (t : TagAos.Thread) : (t.rename ρ).idle = t.idle := by
  cases t with
  | receive a p => cases p <;> rfl
  | send b p => cases p <;> rfl
  | awake e p => cases p <;> rfl

/-- The operation of a renamed call that uses a tag. -/
theorem user_matches (ρ : Addr → Addr) (tag : ℤ) (t : TagAos.Thread) :
    Instr.Matches ρ (TagAos.Thread.rename ρ) (userCode tag t) (userCode tag (t.rename ρ)) := by
  rw [userCode, userCode, Thread.idle_rename]
  split
  · refine .of_eq rfl (congrArg Instr.jump ?_)
    cases t <;> rfl
  · exact Thread.matches_code ρ t

/-- What a renamed call refers to. -/
theorem Thread.refs_rename (ρ : TagAddr → Addr → Addr) (t : Thread) :
    (t.rename ρ).refs = t.refs.map (ρ (t.entry.getD 0)) := by
  cases t with
  | user tag x t => exact TagAos.Slab.refs_rename (ρ (x.getD 0)) t
  | read a x p => cases p <;> rfl
  | get | delete => rfl

end Rename

/-! ## The two systems side by side

The relation that the simulation carries along.  It is in three parts: each tag with its instances,
the instances that a `tag_get` has created for a tag that is not there yet, and the calls. -/

namespace Slab

/-- The instance `a` of the tag `y` has been freed neither by a last receiver nor with its tag. -/
abbrev InUse (μ : Service.Mem) (y : TagAddr) (a : Addr) : Prop :=
  (μ.obj y).InUse (fun a => μ.cleared y a ≠ 0) a

/-- The tag `y` of one system is that of the other, up to the names of its instances: `ρ a` is the
block that the instance `a` is in. -/
structure TagNamed (ρ : Addr → Addr) (m : Mem) (μ : Service.Mem) (y : TagAddr) : Prop where
  named : TagAos.Named ρ (fun a => μ.cleared y a ≠ 0) (m.view y) (μ.obj y)
  owner : ∀ a, InUse μ y a → m.owner (ρ a) = .tag y
  /-- Every block of the tag is one of its instances. -/
  covers : ∀ b, m.heap.Live b → m.owner b = .tag y → ∃ a, InUse μ y a ∧ ρ a = b

/-- The memory of one system is that of the other, up to the names of the instances. -/
structure MemNamed (ρ : TagAddr → Addr → Addr) (m : Mem) (μ : Service.Mem) : Prop where
  base : m.base = { μ with obj := m.base.obj, cleared := m.base.cleared }
  tag : ∀ y < μ.brk, TagNamed (ρ y) m μ y
  unborn : ∀ b y, m.heap.Live b → m.owner b = .tag y → y < μ.brk

/-- The first `n` instances of a tag that is being created are as new. -/
structure Created (m : Mem) (c : CallId) (n : ℕ) : Prop where
  length : (m.created c).length = n
  nodup : (m.created c).Nodup
  live : ∀ b ∈ m.created c, m.heap.Live b
  owner : ∀ b ∈ m.created c, m.owner b = .call c
  block : ∀ i b, (m.created c)[i]? = some b → m.heap.block b = .new i 0

end Slab

/-- How many instances a `tag_get` has created of a tag that is not there yet. -/
def Thread.creates : Thread → Option ℕ
  | get _ _ (.addLevel _ i) => some i
  | get _ _ (.allocEntry _) => some levels
  | _ => none

namespace Slab

/-- `ρ'` names the instances of `μ` as `ρ` does. -/
def Extends (μ : Service.Mem) (ρ ρ' : TagAddr → Addr → Addr) : Prop :=
  ∀ y < μ.brk, ∀ a < (μ.obj y).brk, ρ' y a = ρ y a

/-- `s` is `σ`, up to the names of the instances. -/
structure Related (ρ : TagAddr → Addr → Addr) (s : State) (σ : Service.State) : Prop where
  mem : MemNamed ρ s.mem σ.mem
  created : ∀ c n, (σ.thread c).creates = some n → Created s.mem c n
  level : ∀ c a x d i, σ.thread c = .get a x (.addLevel d i) → i < levels
  thread : ∀ ρ', Extends σ.mem ρ ρ' → ∀ c, s.thread c = (σ.thread c).rename ρ'

/-! ## What an operation leaves alone

An operation changes the blocks of one owner.  For every other owner all that was known stays true,
whatever the names are. -/

/-- Only blocks of `o` are changed. -/
structure Keeps (m m' : Mem) (o : Owner) : Prop where
  live : ∀ b, m.heap.Live b → m.owner b ≠ o → m'.heap.Live b
  block : ∀ b, m.heap.Live b → m.owner b ≠ o → m'.heap.block b = m.heap.block b
  owner : ∀ b, m.heap.Live b → m.owner b ≠ o → m'.owner b = m.owner b
  /-- No block comes to be one of another. -/
  old : ∀ b, m'.heap.Live b → m'.owner b ≠ o → m.heap.Live b ∧ m.owner b = m'.owner b

section Keeps

variable {m m' : Mem} {μ μ' : Service.Mem} {o : Owner} {y : TagAddr} {c : CallId} {n : ℕ}
  {ρ ρ' : Addr → Addr}

theorem Keeps.of_eq (hheap : m'.heap = m.heap) (howner : m'.owner = m.owner) (o : Owner) :
    Keeps m m' o where
  live b hb _ := by rw [hheap]; exact hb
  block b _ _ := by rw [hheap]
  owner b _ _ := by rw [howner]
  old b hb _ := ⟨hheap ▸ hb, by rw [howner]⟩

/-- A tag whose blocks are left alone. -/
theorem TagNamed.keep (h : TagNamed ρ m μ y) (hk : Keeps m m' o) (ho : o ≠ .tag y)
    (hbase : m'.base.obj y = m.base.obj y) (hobj : μ'.obj y = μ.obj y)
    (hcleared : μ'.cleared y = μ.cleared y) : TagNamed ρ m' μ' y := by
  have huse : ∀ a, InUse μ' y a ↔ InUse μ y a := fun a => by
    rw [InUse, InUse, hobj, hcleared]
  have hlive : ∀ a, InUse μ y a → m.heap.Live (ρ a) := fun a ha => h.named.live a ha
  have hne : ∀ a, InUse μ y a → m.owner (ρ a) ≠ o := fun a ha => by
    rw [h.owner a ha]
    exact ho.symm
  have hview : m'.view y = (m.base.obj y).withHeap m'.heap := by rw [Mem.view, hbase]
  refine ⟨?_, fun a ha => ?_, fun b hb hby => ?_⟩
  · rw [hview, hobj, hcleared]
    exact { h.named with
      block := fun a ha =>
        (hk.block (ρ a) (hlive a ha) (hne a ha)).trans (h.named.block a ha)
      live := fun a ha => hk.live (ρ a) (hlive a ha) (hne a ha) }
  · rw [huse] at ha
    exact (hk.owner (ρ a) (hlive a ha) (hne a ha)).trans (h.owner a ha)
  · obtain ⟨hold, heq⟩ := hk.old b hb (by rw [hby]; exact ho.symm)
    obtain ⟨a, ha, rfl⟩ := h.covers b hold (heq.trans hby)
    exact ⟨a, (huse a).2 ha, rfl⟩

/-- Names of instances that do not exist yet do not matter. -/
theorem TagNamed.congr (h : TagNamed ρ m μ y)
    (htable : ∀ i a, (μ.obj y).tagLevel i = some a → a < (μ.obj y).brk)
    (hρ : ∀ a < (μ.obj y).brk, ρ' a = ρ a) : TagNamed ρ' m μ y where
  named := h.named.congr htable hρ
  owner a ha := by rw [hρ a ha.1.1]; exact h.owner a ha
  covers b hb hby := by
    obtain ⟨a, ha, rfl⟩ := h.covers b hb hby
    exact ⟨a, ha, hρ a ha.1.1⟩

theorem Created.keep (h : Created m c n) (hk : Keeps m m' o) (ho : o ≠ .call c)
    (hcreated : m'.created c = m.created c) : Created m' c n := by
  have hne : ∀ b ∈ m.created c, m.owner b ≠ o := fun b hb => by
    rw [h.owner b hb]
    exact ho.symm
  rw [← hcreated] at hne
  refine ⟨by rw [hcreated]; exact h.length, by rw [hcreated]; exact h.nodup, fun b hb => ?_,
    fun b hb => ?_, fun i b hib => ?_⟩
  · exact hk.live b (h.live b (hcreated ▸ hb)) (hne b hb)
  · exact (hk.owner b (h.live b (hcreated ▸ hb)) (hne b hb)).trans (h.owner b (hcreated ▸ hb))
  · have hb : b ∈ m'.created c := List.mem_of_getElem? hib
    exact (hk.block b (h.live b (hcreated ▸ hb)) (hne b hb)).trans (h.block i b (hcreated ▸ hib))

end Keeps

end Slab

end TagAos.Service
