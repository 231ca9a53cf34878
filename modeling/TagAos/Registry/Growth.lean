import TagAos.Registry.Consistency
import Mathlib.Data.Finset.Card
import Mathlib.Data.Finset.Image
import Mathlib.Data.Finset.Range

/-!
# What cannot happen in the registry

`tag_get` and `clear_tag_common` test for states of the registry that their comments call errors: a
key that the table does not know, a number that is not in use, a table that cannot grow.

The table of `TagAos.Registry.Calls` is a finite map that may run out of memory at any insertion.
Here it has the sizes of `hashmap.c` beside it, and it runs out of memory only where `hashmap_set`
has to resize it and the allocation fails.

* `sizedStep` — one operation of a call, with the sizes of the table.
* `entries_le` — the table has at most as many entries as there are descriptors.
* `cannot_happen` — in every reachable state.
-/

set_option autoImplicit false

namespace TagAos.Registry

open Conc

/-! ## The sizes of the table

Of the hash map only the numbers that decide about a `resize`.  That they are those of the hash map
itself is shown in `TagAos.Registry.HashTable`. -/

/-- `HASHMAP_CAP`. -/
def hashmapCap : ℕ := maxTags * 2

/-- What `struct hashmap` keeps of its size. -/
structure Buckets where
  cap : ℕ
  nbuckets : ℕ
  deriving DecidableEq

namespace Buckets

/-- `growat`. -/
def growat (b : Buckets) : ℕ := b.nbuckets * 3 / 4

/-- `shrinkat`. -/
def shrinkat (b : Buckets) : ℕ := b.nbuckets / 10

/-- The doubling of `ncap` up to `cap`, in at most `fuel` rounds. -/
def double (cap : ℕ) : ℕ → ℕ → ℕ
  | 0, ncap => ncap
  | fuel + 1, ncap => if ncap < cap then double cap fuel (ncap * 2) else ncap

/-- `hashmap_new_with_allocator`. -/
def new (cap : ℕ) : Buckets :=
  let ncap := if cap < 16 then 16 else double cap cap 16
  ⟨ncap, ncap⟩

/-- `resize`, when its allocations succeed. -/
def resize (b : Buckets) (newCap : ℕ) : Buckets := ⟨b.cap, (new newCap).nbuckets⟩

/-- `hashmap_set` resizes a table of `count` entries. -/
def Grows (b : Buckets) (count : ℕ) : Prop := count = b.growat

/-- `hashmap_delete` resizes a table in which `count` entries are left. -/
def Shrinks (b : Buckets) (count : ℕ) : Prop := b.cap < b.nbuckets ∧ count ≤ b.shrinkat

instance (b : Buckets) (count : ℕ) : Decidable (b.Grows count) :=
  inferInstanceAs (Decidable (_ = _))

instance (b : Buckets) (count : ℕ) : Decidable (b.Shrinks count) :=
  inferInstanceAs (Decidable (_ ∧ _))

/-- The sizes after `hashmap_set`; `ok` says that the allocations of `resize` succeed. -/
def set (b : Buckets) (count : ℕ) (ok : Bool) : Buckets :=
  if b.Grows count ∧ ok then b.resize (b.nbuckets * 2) else b

/-- The sizes after `hashmap_delete`, which ignores a `resize` that fails. -/
def delete (b : Buckets) (count : ℕ) (ok : Bool) : Buckets :=
  if b.Shrinks count ∧ ok then b.resize (b.nbuckets / 2) else b

end Buckets

/-! ## The calls with the sizes of the table

The steps of the registry, each with what it does to the sizes.  Here the environment also decides
about the allocations of a `resize`, should there be one. -/

/-- Under `common_lock`, `tag_get(TAG_CREAT)` gets to its call of `hashmap_set`. -/
def Mem.sets (m : Mem) (key : ℤ) : Bool :=
  m.table.entries.length < maxTags &&
    (match m.bitmask.getAvailNumber with
      | none => false
      | some (tagKey, _) => tagKey < maxTags) &&
    key != ipcPrivate && (m.table.lookup key).isNone

/-- The sizes after `clear_tag_common`, given which of its calls can resize the table. -/
def Mem.clearedBuckets (m : Mem) (key : ℤ) (tagKey : ℕ) (okDelete okSet : Bool) (b : Buckets) :
    Buckets :=
  let count := m.table.entries.length
  let deletes : Bool := key ≠ ipcPrivate ∧ m.table.lookup key = some tagKey
  let count' := if deletes then count - 1 else count
  let b' := if deletes then b.delete count' okDelete else b
  -- the number was not in use: the entry is put back
  if (m.bitmask.clearNumber tagKey).1 ≠ 1 ∧ key ≠ ipcPrivate then b'.set count' okSet else b'

/-- The key of a `tag_get(TAG_CREAT)`, where the call reserves a descriptor for it. -/
def Thread.reserves : Thread → Option ℤ
  | get a .reserve => some a.key
  | _ => none

/-- The arguments of `clear_tag_common`, where the call executes it. -/
def Thread.clears : Thread → Option (ℤ × ℕ)
  | get a (.clearCommon d) => some (a.key, d)
  | delete _ _ (.clearCommon e) => some (e.key, e.tagKey)
  | _ => none

/-- The registry with the sizes of its table. -/
structure SizedState where
  registry : State
  buckets : Buckets

/-- One operation of the call `c`.  The environment also decides whether a `resize` in
`hashmap_delete` and one in `hashmap_set` gets its memory; only the latter can be out of memory. -/
def sizedStep (s : SizedState) (c : CallId) (o : Outcome × Bool × Bool) : Option SizedState :=
  let m := s.registry.mem
  let t := s.registry.thread c
  match t.reserves with
  | some key =>
    if o.1 = .nomem then none
    else if m.sets key ∧ s.buckets.Grows m.table.entries.length ∧ ¬ o.2.2 then
      (step s.registry c .nomem).map (⟨·, s.buckets⟩)
    else
      (step s.registry c o.1).map
        (⟨·, if m.sets key then s.buckets.set m.table.entries.length o.2.2 else s.buckets⟩)
  | none =>
    (step s.registry c o.1).map
      (⟨·, match t.clears with
        | none => s.buckets
        | some (key, tagKey) => m.clearedBuckets key tagKey o.2.1 o.2.2 s.buckets⟩)

/-- Some operation of the call `c`. -/
def SizedStep (s : SizedState) (c : CallId) (s' : SizedState) : Prop := Moves sizedStep s c s'

/-- A state of a module that has just been loaded. -/
def SizedState.load (s₀ : State) : SizedState := ⟨s₀, .new hashmapCap⟩

/-! ## How many entries there are

Descriptors are below 256 and no two entries share one, so the 384 entries at which the table would
grow are never reached. -/

/-- Every entry has a descriptor of its own. -/
theorem Inv.entries_le {s : State} (h : Inv s) : s.mem.table.entries.length ≤ maxTags := by
  have hlookup : ∀ k ∈ s.mem.table.keys, ∃ d, s.mem.table.lookup k = some d := fun k hk =>
    Option.isSome_iff_exists.1 (AList.lookup_isSome.2 (AList.mem_keys.2 hk))
  have hcard : (s.mem.table.keys.toFinset.image fun k => (s.mem.table.lookup k).getD 0).card =
      s.mem.table.entries.length := by
    rw [Finset.card_image_of_injOn, List.toFinset_card_of_nodup s.mem.table.keys_nodup]
    · simp [AList.keys, List.keys]
    · intro k hk k' hk' heq
      obtain ⟨d, hd⟩ := hlookup k (List.mem_toFinset.1 hk)
      obtain ⟨d', hd'⟩ := hlookup k' (List.mem_toFinset.1 hk')
      simp only [hd, hd', Option.getD_some] at heq
      exact h.inj k k' d hd (heq ▸ hd')
  have hsub : (s.mem.table.keys.toFinset.image fun k => (s.mem.table.lookup k).getD 0) ⊆
      Finset.range maxTags := by
    intro d hd
    obtain ⟨k, hk, rfl⟩ := Finset.mem_image.1 hd
    obtain ⟨d, hd⟩ := hlookup k (List.mem_toFinset.1 hk)
    rw [hd, Option.getD_some]
    exact Finset.mem_range.2 (h.used d (h.named k d hd))
  rw [← hcard]
  exact (Finset.card_le_card hsub).trans_eq (Finset.card_range maxTags)

/-- The table of the module grows at 384 entries. -/
theorem growat_new : (Buckets.new hashmapCap).growat = 384 := by decide

theorem Inv.not_grows {s : State} (h : Inv s) :
    s.mem.table.entries.length < (Buckets.new hashmapCap).growat := by
  rw [growat_new]
  exact lt_of_le_of_lt h.entries_le (by decide)

/-- A table that has never grown never shrinks. -/
theorem not_shrinks_new (count : ℕ) : ¬ (Buckets.new hashmapCap).Shrinks count :=
  fun h => absurd h.1 (by decide)

/-! ## What the calls give back

By the invariant of `TagAos.Registry.Consistency`, in the state before the section under
`common_lock`. -/

/-- What a call clears it owns. -/
theorem Inv.clears_owns {s : State} (h : Inv s) {c : CallId} {key : ℤ} {d : ℕ}
    (hc : (s.thread c).clears = some (key, d)) : (s.thread c).owns = some (d, key) := by
  cases ht : s.thread c with
  | get a p =>
    rw [ht] at hc
    cases p
    case clearCommon x => cases hc; rfl
    all_goals cases hc
  | delete tag u p =>
    rw [ht] at hc
    cases p
    case clearCommon e =>
      cases hc
      rw [h.entry c tag u _ e ht rfl]
      rfl
    all_goals cases hc

/-- The table knows what is cleared, under its key. -/
theorem Inv.clears_entry {s : State} (h : Inv s) {c : CallId} {key : ℤ} {d : ℕ}
    (hc : (s.thread c).clears = some (key, d)) (hkey : key ≠ ipcPrivate) :
    s.mem.table.lookup key = some d :=
  ((h.owned c d key (h.clears_owns hc)).2.2 key).2 ⟨rfl, hkey⟩

/-- The number that is cleared is in use. -/
theorem Inv.clears_number {s : State} (h : Inv s) {c : CallId} {key : ℤ} {d : ℕ}
    (hc : (s.thread c).clears = some (key, d)) : (s.mem.bitmask.clearNumber d).1 = 1 := by
  have hbit := (h.owned c d key (h.clears_owns hc)).2.1
  exact (Bitmask.clearNumber_spec (h.nBits.symm ▸ h.used d hbit) hbit).1

/-- A number that has just been handed out is in use. -/
theorem clearNumber_of_avail {b b' : Bitmask} {d : ℕ} (h : b.getAvailNumber = some (d, b')) :
    (b'.clearNumber d).1 = 1 := by
  obtain ⟨hlt, hn, -, hbits⟩ := Bitmask.getAvailNumber_spec h
  exact (Bitmask.clearNumber_spec (hn.symm ▸ hlt) (by simp [hbits])).1

/-! ## What one step keeps

The sizes stay those of a new table, and that in turn is why nobody is told that the table is out of
memory. -/

/-- Nobody is about to return that the table is out of memory. -/
def MemoryFound (s : State) : Prop := ∀ c a, s.thread c ≠ .get a (.unlockCreate (.error ENOMEM))

theorem Mem.reserve_ne_nomem (m : Mem) (key : ℤ) : (m.reserve key false).2 ≠ .error ENOMEM := by
  have hmax : (.error EMAXTAG : Except ℤ ℕ) ≠ .error ENOMEM := by decide
  have hproto : (.error EPROTO : Except ℤ ℕ) ≠ .error ENOMEM := by decide
  have hbusy : (.error EBUSY : Except ℤ ℕ) ≠ .error ENOMEM := by decide
  rw [Mem.reserve]
  split
  · exact hmax
  · split
    · exact hproto
    · split_ifs
      · exact hproto
      · intro h; cases h
      · exact hbusy
      · contradiction
      · intro h; cases h

theorem GetState.unlockCreate_succ {c : CallId} {m m' : Mem} {a : GetArgs} {p : GetState}
    {o : Outcome} {r : Except ℤ ℕ} (h : getStep c m a p o = some (m', .unlockCreate r)) :
    p = .reserve ∧ (o ≠ .nomem → r = (m.reserve a.key false).2) := by
  cases p
  case reserve =>
    refine ⟨rfl, fun ho => ?_⟩
    cases o <;> simp only [getStep, reduceCtorEq, Option.some.injEq, Prod.mk.injEq,
      GetState.unlockCreate.injEq] at h
    · exact h.2.symm
    · exact absurd rfl ho
  case start =>
    cases o <;> simp only [getStep, reduceCtorEq, Option.some.injEq, Prod.mk.injEq] at h
    have h := h.2
    rw [getStart] at h
    split_ifs at h
  case unlockCreate r₀ =>
    cases r₀ <;> cases o <;>
      simp only [getStep, reduceCtorEq, Option.some.injEq, Prod.mk.injEq, and_false] at h
  case addLevel d i =>
    cases o <;> simp only [getStep, reduceCtorEq, Option.some.injEq, Prod.mk.injEq,
      and_false] at h
    split_ifs at h <;> cases h.2
  case lookup =>
    cases o <;> simp only [getStep, reduceCtorEq] at h
    split at h <;> simp at h
  all_goals
    cases o <;> simp only [getStep, reduceCtorEq, Option.some.injEq, Prod.mk.injEq, and_false,
      Option.map_eq_some_iff, exists_false] at h

/-- **What one operation keeps.**  It is one of the registry, the table keeps its sizes, and nobody
finds it out of memory. -/
theorem sizedStep_spec {s s' : SizedState} {c : CallId} {o : Outcome × Bool × Bool}
    (hi : Inv s.registry) (hb : s.buckets = .new hashmapCap) (h : sizedStep s c o = some s') :
    Step s.registry c s'.registry ∧ s'.buckets = s.buckets ∧
      (MemoryFound s.registry → MemoryFound s'.registry) := by
  have hgrows : ¬ s.buckets.Grows s.registry.mem.table.entries.length := by
    rw [hb]
    exact ne_of_lt hi.not_grows
  -- the operation of the registry, and that it does not run out of memory
  obtain ⟨o', s₁, hstep, hs₁, hnomem, hbuckets⟩ : ∃ o' s₁, step s.registry c o' = some s₁ ∧
      s'.registry = s₁ ∧ ((s.registry.thread c).reserves.isSome → o' ≠ .nomem) ∧
      s'.buckets = s.buckets := by
    rw [sizedStep] at h
    cases hr : (s.registry.thread c).reserves with
    | some key =>
      rw [hr] at h
      dsimp only at h
      have hset : s.buckets.set s.registry.mem.table.entries.length o.2.2 = s.buckets :=
        if_neg fun h' => hgrows h'.1
      by_cases hno : o.1 = .nomem
      · rw [if_pos hno] at h
        cases h
      · rw [if_neg hno, if_neg fun h' => hgrows h'.2.1, hset, ite_self] at h
        obtain ⟨s₁, hstep, rfl⟩ := Option.map_eq_some_iff.1 h
        exact ⟨o.1, s₁, hstep, rfl, fun _ => hno, rfl⟩
    | none =>
      rw [hr] at h
      obtain ⟨s₁, hstep, rfl⟩ := Option.map_eq_some_iff.1 h
      refine ⟨o.1, s₁, hstep, rfl, nofun, ?_⟩
      cases hc : (s.registry.thread c).clears with
      | none => rfl
      | some x =>
        obtain ⟨key, d⟩ := x
        have hnumber := hi.clears_number hc
        show Mem.clearedBuckets _ _ _ _ _ _ = _
        rw [Mem.clearedBuckets, if_neg fun h' => h'.1 hnumber]
        split_ifs
        · rw [Buckets.delete, hb, if_neg fun h' => not_shrinks_new _ h'.1]
        · rfl
  subst hs₁
  refine ⟨⟨o', hstep⟩, hbuckets, fun hfound d a hd => ?_⟩
  by_cases hdc : d = c
  · subst hdc
    cases ht : s.registry.thread d with
    | get a₀ p =>
      rw [step, ht] at hstep
      obtain ⟨⟨m, p'⟩, hx, heq⟩ := Option.map_eq_some_iff.1 hstep
      rw [← heq, Config.set_thread_self] at hd
      cases hd
      obtain ⟨rfl, hr⟩ := GetState.unlockCreate_succ hx
      exact Mem.reserve_ne_nomem _ _ (hr (hnomem (by rw [ht]; rfl))).symm
    | delete tag u p =>
      rw [step, ht] at hstep
      obtain ⟨⟨m, p'⟩, -, heq⟩ := Option.map_eq_some_iff.1 hstep
      rw [← heq, Config.set_thread_self] at hd
      cases hd
  · rw [Step.thread_of_ne ⟨o', hstep⟩ hdc] at hd
    exact hfound d a hd

/-! ## Every run

All the branches at once, in every reachable state. -/

/-- The branches for errors are out of reach. -/
structure CannotHappen (s : SizedState) : Prop where
  /-- The table knows what `clear_tag_common` is called for. -/
  entry : ∀ c key d, (s.registry.thread c).clears = some (key, d) → key ≠ ipcPrivate →
    s.registry.mem.table.lookup key = some d
  /-- `clear_number` returns 1 in `clear_tag_common`. -/
  number : ∀ c key d, (s.registry.thread c).clears = some (key, d) →
    (s.registry.mem.bitmask.clearNumber d).1 = 1
  /-- It returns 1 in `tag_get`, where it gives back what `get_avail_number` handed out. -/
  given : ∀ c key, (s.registry.thread c).reserves = some key → ∀ d b,
    s.registry.mem.bitmask.getAvailNumber = some (d, b) → (b.clearNumber d).1 = 1
  /-- The table has the size it was made with, and its count is below the growth threshold. -/
  sizes : s.buckets = .new hashmapCap
  below : s.registry.mem.table.entries.length < s.buckets.growat
  /-- Neither `hashmap_set` nor `hashmap_delete` resizes it. -/
  kept : ∀ count ≤ s.registry.mem.table.entries.length,
    ¬ s.buckets.Grows count ∧ ¬ s.buckets.Shrinks count
  /-- Nobody returns that `hashmap_set` is out of memory. -/
  memory : MemoryFound s.registry

/-- **What cannot happen does not happen,** in any run of any calls, whichever of their locks are
interrupted and whichever of their allocations fail. -/
theorem cannot_happen {s₀ : State} (h0 : Init s₀) {s : SizedState}
    (h : Run SizedStep (.load s₀) s) : CannotHappen s := by
  have hall : Inv s.registry ∧ s.buckets = .new hashmapCap ∧ MemoryFound s.registry := by
    refine h.invariant (P := fun s => Inv s.registry ∧ s.buckets = .new hashmapCap ∧
      MemoryFound s.registry) ⟨h0.inv, rfl, fun c a hc => ?_⟩ fun u c v hu _ hs => ?_
    · have hidle := h0.idle c
      rw [show s₀.thread c = _ from hc] at hidle
      cases hidle
    · obtain ⟨o, ho⟩ := hs
      obtain ⟨hi, hb, hfound⟩ := hu
      obtain ⟨hstep, hb', hfound'⟩ := sizedStep_spec hi hb ho
      exact ⟨hstep.inv hi, hb'.trans hb, hfound' hfound⟩
  obtain ⟨hi, hb, hfound⟩ := hall
  have hbelow : s.registry.mem.table.entries.length < s.buckets.growat := hb ▸ hi.not_grows
  exact {
    entry := fun c key d hc hkey => hi.clears_entry hc hkey
    number := fun c key d hc => hi.clears_number hc
    given := fun c key _ d b hd => clearNumber_of_avail hd
    sizes := hb
    below := hbelow
    kept := fun count hle =>
      ⟨ne_of_lt (lt_of_le_of_lt hle hbelow), by rw [hb]; exact not_shrinks_new count⟩
    memory := hfound }

/-- A creation whose allocation of a level fails is about to give its descriptor back. -/
def failing : State := ⟨Mem.initial, fun _ => .get ⟨5, tagCreat, tagPermAll, 0⟩ .start⟩

theorem cannot_happen_failing :
    ∃ s, Run SizedStep (.load failing) s ∧ (s.registry.thread 0).clears = some (5, 0) ∧
      CannotHappen s := by
  let l : List (CallId × Outcome × Bool × Bool) :=
    [(0, .go, true, true), (0, .go, true, true), (0, .go, true, true), (0, .go, true, true),
      (0, .nomem, true, true), (0, .go, true, true)]
  have hrun : Run SizedStep (.load failing) (after sizedStep (.load failing) l) := run_after _ l
  exact ⟨_, hrun, by decide +kernel, cannot_happen ⟨rfl, fun _ => rfl⟩ hrun⟩

end TagAos.Registry
