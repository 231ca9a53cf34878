import TagAos.Registry.Locks
import Mathlib.Data.Finset.Card
import Mathlib.Data.Finset.Image
import Mathlib.Data.Finset.Range
import Mathlib.Logic.Function.Iterate

/-!
# The registry, one call at a time

When calls do not overlap and nothing goes wrong, the registry is a set of live services, each with
a descriptor and a key.  `Services` is that specification; `Stands` says which services the memory
of the registry stands for.

* `Stands.serve` — one call on the memory does what it does on the services, and returns the same.
* `serial_iff` — a sequence of calls returns what the specification returns, exactly when no
  service is created while all descriptors are in use and one of them is private.  The limit is
  tested on the number of entries of the table, and private services are not in the table.
-/

set_option autoImplicit false

namespace TagAos.Registry

open Conc

/-! ## The specification

The registry as a user of the module sees it: keys and descriptors, with no bitmask and no table. -/

/-- `TAG_CREAT` with a valid key and permission. -/
def GetArgs.creates (a : GetArgs) : Bool :=
  0 ≤ a.key && a.command = tagCreat && (a.permission = tagPermUsr || a.permission = tagPermAll)

/-- `TAG_OPEN` of a positive key. -/
def GetArgs.opens (a : GetArgs) : Bool := 0 < a.key && a.command = tagOpen

/-- The live services: the key of the service with each descriptor. -/
abbrev Services := ℕ → Option ℤ

namespace Services

/-- No service is live. -/
def empty : Services := fun _ => none

/-- The smallest unused descriptor. -/
def unused (v : Services) : Option ℕ := (List.range maxTags).find? fun d => (v d).isNone

/-- The descriptor of the live service with the key. -/
def holder (v : Services) (key : ℤ) : Option ℕ :=
  (List.range maxTags).find? fun d => v d = some key

/-- Create a service. -/
def create (v : Services) (key : ℤ) : Services × ℤ :=
  match v.unused with
  | none => (v, -EMAXTAG)
  | some d =>
    if key ≠ ipcPrivate ∧ (v.holder key).isSome then (v, -EBUSY)
    else (Function.update v d (some key), d)

/-- Find the service with the key. -/
def find (v : Services) (key : ℤ) : ℤ :=
  match v.holder key with
  | none => -ENODATA
  | some d => d

/-- Delete the service with the descriptor. -/
def delete (v : Services) (d : ℕ) : Services × ℤ :=
  if (v d).isSome then (Function.update v d none, 1) else (v, -ENODATA)

/-- What a call does to the services, and what it returns. -/
def serve (v : Services) : Thread → Services × ℤ
  | .get a _ =>
    if a.creates then v.create a.key
    else if a.opens then (v, v.find a.key)
    else (v, -EINVAL)
  | .delete tag _ _ => if tag < 0 ∨ (maxTags : ℤ) ≤ tag then (v, -EINVAL) else v.delete tag.toNat

/-- What the calls of a sequence return. -/
def replies (v : Services) : List Thread → List (Option ℤ)
  | [] => []
  | t :: ts => some (v.serve t).2 :: (v.serve t).1.replies ts

/-- A service is created while all descriptors are in use, one of them by a private service. -/
def Exhausted (v : Services) (t : Thread) : Prop :=
  (∃ a p, t = .get a p ∧ a.creates = true) ∧ (∀ d, d < maxTags → v d ≠ none) ∧
    ∃ d, d < maxTags ∧ v d = some ipcPrivate

/-- No call of the sequence creates a service while all descriptors are in use, one of them by a
private service. -/
def Roomy (v : Services) : List Thread → Prop
  | [] => True
  | t :: ts => ¬ v.Exhausted t ∧ (v.serve t).1.Roomy ts

theorem unused_eq_some {v : Services} {d : ℕ} :
    v.unused = some d ↔ d < maxTags ∧ v d = none ∧ ∀ k, k < d → v k ≠ none := by
  rw [unused, List.find?_range_eq_some]
  simp only [Option.isNone_iff_eq_none, List.mem_range, Bool.not_eq_true',
    Option.isNone_eq_false_iff, Option.isSome_iff_ne_none]
  tauto

theorem unused_eq_none {v : Services} : v.unused = none ↔ ∀ d, d < maxTags → v d ≠ none := by
  simp [unused, List.find?_eq_none]

end Services

/-! ## Calls one at a time

A call that is not interrupted, with nobody else around, is a function of the memory. -/

/-- Run the call `c` alone.  No call makes more than 40 operations. -/
def State.serve (s : State) (c : CallId) : State := after step s (List.replicate 40 (c, .go))

/-- What the call has returned. -/
def Thread.result : Thread → Option ℤ
  | get _ (.done rc) | delete _ _ (.done rc) => some rc
  | _ => none

/-- What the calls of a sequence return. -/
def State.replies (s : State) : List CallId → List (Option ℤ)
  | [] => []
  | c :: cs => ((s.serve c).thread c).result :: (s.serve c).replies cs

/-- The callers of the deletions in a sequence have permission. -/
def State.Permitted (s : State) : List CallId → Prop
  | [] => True
  | c :: cs =>
    (∀ tag u p e, s.thread c = .delete tag u p → s.mem.tags tag.toNat = some e →
      e.checkPerm u = false) ∧ (s.serve c).Permitted cs

/-- One operation of a `tag_get`, if nothing is in its way. -/
def getGo (c : CallId) (a : GetArgs) (x : Mem × GetState) : Mem × GetState :=
  (getStep c x.1 a x.2 .go).getD x

/-- One operation of a deletion, if nothing is in its way. -/
def deleteGo (c : CallId) (tag : ℤ) (u : ℕ) (x : Mem × DeleteState) : Mem × DeleteState :=
  (deleteStep c x.1 tag u x.2 .go).getD x

theorem after_get {s : State} {c : CallId} {a : GetArgs} {p : GetState}
    (h : s.thread c = .get a p) (n : ℕ) :
    after step s (List.replicate n (c, .go)) =
      s.set c ((getGo c a)^[n] (s.mem, p)).1 (.get a ((getGo c a)^[n] (s.mem, p)).2) := by
  induction n generalizing s p with
  | zero => rw [List.replicate_zero, after, Function.iterate_zero_apply, ← h, Config.set_self]
  | succ n ih =>
    rw [List.replicate_succ, after, Function.iterate_succ_apply]
    cases hx : getStep c s.mem a p .go with
    | none => simp [step, h, hx, getGo, ih h]
    | some r =>
      have hset : (s.set c r.1 (.get a r.2)).thread c = .get a r.2 := Config.set_thread_self ..
      simp [step, h, hx, getGo, ih hset]

theorem after_delete {s : State} {c : CallId} {tag : ℤ} {u : ℕ} {p : DeleteState}
    (h : s.thread c = .delete tag u p) (n : ℕ) :
    after step s (List.replicate n (c, .go)) =
      s.set c ((deleteGo c tag u)^[n] (s.mem, p)).1
        (.delete tag u ((deleteGo c tag u)^[n] (s.mem, p)).2) := by
  induction n generalizing s p with
  | zero => rw [List.replicate_zero, after, Function.iterate_zero_apply, ← h, Config.set_self]
  | succ n ih =>
    rw [List.replicate_succ, after, Function.iterate_succ_apply]
    cases hx : deleteStep c s.mem tag u p .go with
    | none => simp [step, h, hx, deleteGo, ih h]
    | some r =>
      have hset : (s.set c r.1 (.delete tag u r.2)).thread c = .delete tag u r.2 :=
        Config.set_thread_self ..
      simp [step, h, hx, deleteGo, ih hset]

/-! ## One call

Each path of the code comes out as one line of the specification, but for the one on which no number
is left although the table has room. -/

section Call

variable {c : CallId} {m : Mem} {l : Lock} {a : GetArgs} {d : ℕ}

/-- The memory with one semaphore replaced. -/
abbrev Mem.withSem (m : Mem) (l : Lock) (x : RwSem CallId) : Mem :=
  { m with sem := Function.update m.sem l x }

theorem Mem.downWrite_of_free (h : m.sem l = .free) :
    m.downWrite c l = some (m.withSem l (.exclusive c)) := by
  simp [downWrite, h, RwSem.free, RwSem.downWrite, withSem]

theorem Mem.downRead_of_free (h : m.sem l = .free) :
    m.downRead c l = some (m.withSem l (.shared {c})) := by
  simp [downRead, h, RwSem.free, RwSem.downRead, withSem]

theorem Mem.upWrite_withSem (h : m.sem l = .free) :
    (m.withSem l (.exclusive c)).upWrite c l = m := by
  have hsem : Function.update m.sem l RwSem.free = m.sem := by rw [← h, Function.update_eq_self]
  simp [upWrite, RwSem.upWrite, hsem]

theorem Mem.upRead_withSem (h : m.sem l = .free) :
    (m.withSem l (.shared {c})).upRead c l = m := by
  have hsem : Function.update m.sem l (.shared ∅) = m.sem := by
    rw [Function.update_eq_self_iff, h, RwSem.free]
  simp [upRead, RwSem.upRead, hsem]

theorem Mem.reserve_withSem (m : Mem) (l : Lock) (x : RwSem CallId) (key : ℤ) (oom : Bool) :
    (m.withSem l x).reserve key oom =
      ((m.reserve key oom).1.withSem l x, (m.reserve key oom).2) := by
  by_cases hmax : maxTags ≤ m.table.entries.length
  · simp only [reserve, withSem, if_pos hmax]
  · cases hav : m.bitmask.getAvailNumber with
    | none => simp only [reserve, withSem, if_neg hmax, hav]
    | some r =>
      simp only [reserve, withSem, if_neg hmax, hav]
      split_ifs <;> rfl

theorem Mem.clearCommon_withSem (m : Mem) (l : Lock) (x : RwSem CallId) (key : ℤ) (d : ℕ) :
    (m.withSem l x).clearCommon key d = (m.clearCommon key d).withSem l x := by
  simp only [clearCommon]
  split_ifs <;> rfl

theorem getStart_eq (a : GetArgs) :
    getStart a = if a.creates then .lockCreate else if a.opens then .lockOpen
      else .done (-EINVAL) := by
  have hdiff : tagOpen ≠ tagCreat := by decide
  rw [getStart, GetArgs.creates, GetArgs.opens]
  rcases lt_trichotomy a.key 0 with hkey | hkey | hkey
  · simp [hkey, not_lt.2 (le_of_lt hkey)]
  · by_cases hc : a.command = tagCreat
    · by_cases hp : a.permission = tagPermUsr <;> simp [hkey, hc, hp]
    · simp [hkey, hc, ipcPrivate]
  · by_cases hc : a.command = tagCreat
    · by_cases hp : a.permission = tagPermUsr <;>
        simp [hc, hp, le_of_lt hkey, not_lt.2 (le_of_lt hkey), hdiff.symm]
    · have hne : a.key ≠ ipcPrivate := ne_of_gt hkey
      simp [hc, hkey, hne, not_lt.2 (le_of_lt hkey)]

theorem getGo_done (c : CallId) (a : GetArgs) (m : Mem) (rc : ℤ) (n : ℕ) :
    (getGo c a)^[n] (m, .done rc) = (m, .done rc) := Function.iterate_fixed rfl n

theorem deleteGo_done (c : CallId) (tag : ℤ) (u : ℕ) (m : Mem) (rc : ℤ) (n : ℕ) :
    (deleteGo c tag u)^[n] (m, .done rc) = (m, .done rc) := Function.iterate_fixed rfl n

/-- The loop of `add_tag_level`. -/
theorem getGo_addLevel (c : CallId) (a : GetArgs) (m : Mem) (d : ℕ) {k i : ℕ}
    (h : i + (k + 1) = levels) :
    (getGo c a)^[k + 1] (m, .addLevel d i) = (m, .allocEntry d) := by
  induction k generalizing i with
  | zero =>
    have hi : ¬ i + 1 < levels := by omega
    simp [getGo, getStep, hi]
  | succ k ih =>
    have hi : i + 1 < levels := by omega
    rw [Function.iterate_succ_apply]
    have hgo : getGo c a (m, .addLevel d i) = (m, .addLevel d (i + 1)) := by
      simp [getGo, getStep, hi]
    rw [hgo]
    exact ih (by omega)

/-- A `TAG_CREAT` that runs alone. -/
theorem getGo_create (hm : m.sem .common = .free) (ha : a.creates = true) :
    (getGo c a)^[40] (m, .start) =
      match m.reserve a.key false with
      | (m', .error e) => (m', .done (-e))
      | (m', .ok d) =>
        ({ m' with tags := Function.update m'.tags d (some ⟨a.key, d, a.permission, a.euid⟩) },
          .done d) := by
  have hsem : (m.reserve a.key false).1.sem .common = .free := by rw [Mem.reserve_sem, hm]
  have hfirst : (getGo c a)^[3] (m, .start) =
      ((m.reserve a.key false).1.withSem .common (.exclusive c),
        .unlockCreate (m.reserve a.key false).2) := by
    simp [getGo, getStep, getStart_eq, ha, Mem.downWrite_of_free hm, Mem.reserve_withSem]
  rw [show 40 = 37 + 3 from rfl, Function.iterate_add_apply, hfirst]
  cases hr : m.reserve a.key false with
  | mk m' r =>
    rw [hr] at hsem
    cases r with
    | error e =>
      rw [show 37 = 36 + 1 from rfl, Function.iterate_succ_apply]
      have hgo : getGo c a (m'.withSem .common (.exclusive c), .unlockCreate (.error e)) =
          (m', .done (-e)) := by simp [getGo, getStep, Mem.upWrite_withSem hsem]
      rw [hgo, getGo_done]
    | ok d =>
      rw [show 37 = 3 + (31 + 1) + 2 from rfl, Function.iterate_add_apply,
        Function.iterate_add_apply]
      have hgo : (getGo c a)^[2] (m'.withSem .common (.exclusive c), .unlockCreate (.ok d)) =
          (m', .addLevel d 0) := by simp [getGo, getStep, Mem.upWrite_withSem hsem]
      rw [hgo, getGo_addLevel c a m' d rfl]
      simp [getGo, getStep]

/-- A `TAG_OPEN` that runs alone. -/
theorem getGo_open (hm : m.sem .common = .free) (ha : a.creates = false) (ha' : a.opens = true) :
    (getGo c a)^[40] (m, .start) =
      (m, .done (match m.table.lookup a.key with
        | none => -ENODATA
        | some d => if m.tags d = none then -ENODATA else d)) := by
  have hfirst : (getGo c a)^[2] (m, .start) =
      (m.withSem .common (.shared {c}), .lookup) := by
    simp [getGo, getStep, getStart_eq, ha, ha', Mem.downRead_of_free hm]
  rw [show 40 = 38 + 2 from rfl, Function.iterate_add_apply, hfirst]
  cases hl : m.table.lookup a.key with
  | none =>
    have hgo : (getGo c a)^[2] (m.withSem .common (.shared {c}), .lookup) =
        (m, .done (-ENODATA)) := by
      simp [getGo, getStep, hl, Mem.upRead_withSem hm]
    rw [show 38 = 36 + 2 from rfl, Function.iterate_add_apply, hgo, getGo_done]
  | some d =>
    have hgo : (getGo c a)^[3] (m.withSem .common (.shared {c}), .lookup) =
        (m, .done (if m.tags d = none then -ENODATA else d)) := by
      simp [getGo, getStep, hl, Mem.upRead_withSem hm]
    rw [show 38 = 35 + 3 from rfl, Function.iterate_add_apply, hgo, getGo_done]

/-- A `tag_get` that does not pass the input check. -/
theorem getGo_invalid (ha : a.creates = false) (ha' : a.opens = false) :
    (getGo c a)^[40] (m, .start) = (m, .done (-EINVAL)) := by
  have hgo : getGo c a (m, .start) = (m, .done (-EINVAL)) := by
    simp [getGo, getStep, getStart_eq, ha, ha']
  rw [show 40 = 39 + 1 from rfl, Function.iterate_succ_apply, hgo, getGo_done]

/-- A deletion of a descriptor that is not live, or not a descriptor. -/
theorem deleteGo_fails {tag : ℤ} {u : ℕ} (hm : m.sem (.tag tag.toNat) = .free)
    (ht : tag < 0 ∨ (maxTags : ℤ) ≤ tag ∨ m.tags tag.toNat = none) :
    (deleteGo c tag u)^[40] (m, .start) =
      (m, .done (if tag < 0 ∨ (maxTags : ℤ) ≤ tag then -EINVAL else -ENODATA)) := by
  by_cases hv : tag < 0 ∨ (maxTags : ℤ) ≤ tag
  · have hgo : deleteGo c tag u (m, .start) = (m, .done (-EINVAL)) := by
      simp [deleteGo, deleteStep, hv]
    rw [show 40 = 39 + 1 from rfl, Function.iterate_succ_apply, hgo, deleteGo_done, if_pos hv]
  · have hnone : m.tags tag.toNat = none := by tauto
    have hgo : (deleteGo c tag u)^[4] (m, .start) = (m, .done (-ENODATA)) := by
      simp [deleteGo, deleteStep, hv, Mem.downWrite_of_free hm, hnone,
        Mem.upWrite_withSem hm]
    rw [show 40 = 36 + 4 from rfl, Function.iterate_add_apply, hgo, deleteGo_done, if_neg hv]

/-- A deletion of a live tag by a caller with permission. -/
theorem deleteGo_live {tag : ℤ} {u : ℕ} {e : Entry} (hm : ∀ l, m.sem l = .free)
    (hv : ¬ (tag < 0 ∨ (maxTags : ℤ) ≤ tag)) (he : m.tags tag.toNat = some e)
    (hp : e.checkPerm u = false) :
    (deleteGo c tag u)^[40] (m, .start) =
      (({ m with tags := Function.update m.tags tag.toNat none } : Mem).clearCommon e.key e.tagKey,
        .done 1) := by
  have hgo : (deleteGo c tag u)^[5] (m, .start) =
      (({ m with tags := Function.update m.tags tag.toNat none } : Mem).withSem
        (.tag tag.toNat) (.exclusive c), .unlockTag e) := by
    simp [deleteGo, deleteStep, hv, Mem.downWrite_of_free (hm _), he, hp]
  rw [show 40 = 35 + 5 from rfl, Function.iterate_add_apply, hgo]
  generalize hm' : ({ m with tags := Function.update m.tags tag.toNat none } : Mem) = m'
  have hfree : ∀ l, m'.sem l = .free := by rw [← hm']; exact hm
  have hfree' : (m'.clearCommon e.key e.tagKey).sem .common = .free := by
    rw [Mem.clearCommon_sem, hfree]
  have hrest : (deleteGo c tag u)^[6]
      (m'.withSem (.tag tag.toNat) (.exclusive c), .unlockTag e) =
      (m'.clearCommon e.key e.tagKey, .done 1) := by
    simp [deleteGo, deleteStep, Mem.upWrite_withSem (hfree _), Mem.downWrite_of_free (hfree _),
      Mem.clearCommon_withSem, Mem.upWrite_withSem hfree']
  rw [show 35 = 29 + 6 from rfl, Function.iterate_add_apply, hrest, deleteGo_done]

end Call

/-! ## What the memory stands for

The live tags with their keys.  Between calls nobody owns a descriptor, so the three structures say
the same. -/

/-- The memory of the registry, while no call is at work on it, stands for the services. -/
structure Stands (m : Mem) (v : Services) : Prop where
  sem : ∀ l, m.sem l = .free
  nBits : m.bitmask.nBits = maxTags
  bit : ∀ d, m.bitmask.bit d = (v d).isSome
  lt : ∀ d, v d ≠ none → d < maxTags
  tags : ∀ d, (m.tags d).map Entry.key = v d
  tagKey : ∀ d e, m.tags d = some e → e.tagKey = d
  table : ∀ k d, m.table.lookup k = some d ↔ k ≠ ipcPrivate ∧ v d = some k

/-- The empty registry stands for no services. -/
theorem Stands.initial : Stands Mem.initial Services.empty where
  sem _ := rfl
  nBits := rfl
  bit d := Bitmask.bit_initializeBitmask maxTags d
  lt d h := absurd rfl h
  tags _ := rfl
  tagKey d e h := by cases h
  table k d := by simp [Mem.initial, Services.empty]

namespace Stands

variable {m m' : Mem} {v v' : Services} {key : ℤ} {d : ℕ} (h : Stands m v)

include h

theorem tags_eq_none : m.tags d = none ↔ v d = none := by
  rw [← h.tags, Option.map_eq_none_iff]

/-- The table finds the holder of a key. -/
theorem holder (hk : key ≠ ipcPrivate) : v.holder key = m.table.lookup key := by
  refine Option.ext fun d => ?_
  rw [Services.holder, List.find?_range_eq_some, h.table]
  constructor
  · exact fun hd => ⟨hk, by simpa using hd.1⟩
  · rintro ⟨-, hd⟩
    refine ⟨by simpa using hd, List.mem_range.2 (h.lt d (by simp [hd])), fun j hj => ?_⟩
    have hne : v j ≠ some key := by
      intro hj'
      have h1 := (h.table key j).2 ⟨hk, hj'⟩
      have h2 := (h.table key d).2 ⟨hk, hd⟩
      rw [h1] at h2
      exact ne_of_lt hj (Option.some.inj h2)
    simp [hne]

/-- The table has an entry for each service that is not private, so it is full only when all
descriptors are in use and no service is private. -/
theorem count_ge : maxTags ≤ m.table.entries.length ↔
    ∀ d, d < maxTags → v d ≠ none ∧ v d ≠ some ipcPrivate := by
  let holders : Finset ℕ := m.table.keys.toFinset.image fun k => (m.table.lookup k).getD 0
  have hmem : ∀ d, d ∈ holders ↔ ∃ k, m.table.lookup k = some d := by
    intro d
    simp only [holders, Finset.mem_image, List.mem_toFinset, ← AList.mem_keys]
    constructor
    · rintro ⟨k, hk, rfl⟩
      obtain ⟨x, hx⟩ := Option.isSome_iff_exists.1 (AList.lookup_isSome.2 hk)
      exact ⟨k, by simp [hx]⟩
    · rintro ⟨k, hk⟩
      exact ⟨k, AList.lookup_isSome.1 (by simp [hk]), by simp [hk]⟩
  have hcard : holders.card = m.table.entries.length := by
    rw [Finset.card_image_of_injOn, List.toFinset_card_of_nodup m.table.keys_nodup]
    · simp [AList.keys, List.keys]
    · intro k hk k' hk' heq
      simp only [Finset.mem_coe, List.mem_toFinset, ← AList.mem_keys, ← AList.lookup_isSome,
        Option.isSome_iff_exists] at hk hk'
      obtain ⟨x, hx⟩ := hk
      obtain ⟨x', hx'⟩ := hk'
      simp only [hx, hx', Option.getD_some] at heq
      subst heq
      have h1 := ((h.table k x).1 hx).2
      have h2 := ((h.table k' x).1 hx').2
      rw [h1] at h2
      exact Option.some.inj h2
  have hsub : holders ⊆ Finset.range maxTags := by
    intro d hd
    obtain ⟨k, hk⟩ := (hmem d).1 hd
    exact Finset.mem_range.2 (h.lt d (by simp [((h.table k d).1 hk).2]))
  rw [← hcard]
  constructor
  · intro hle d hd
    have heq : holders = Finset.range maxTags :=
      Finset.eq_of_subset_of_card_le hsub (by simpa using hle)
    obtain ⟨k, hk⟩ := (hmem d).1 (heq ▸ Finset.mem_range.2 hd)
    obtain ⟨hne, hkey⟩ := (h.table k d).1 hk
    simp [hkey, hne]
  · intro hall
    have hsup : Finset.range maxTags ⊆ holders := by
      intro d hd
      obtain ⟨hsome, hne⟩ := hall d (Finset.mem_range.1 hd)
      obtain ⟨k, hk⟩ := Option.ne_none_iff_exists'.1 hsome
      exact (hmem d).2 ⟨k, (h.table k d).2 ⟨fun h => hne (h ▸ hk), hk⟩⟩
    simpa using Finset.card_le_card hsup

/-- The number that is handed out is the smallest unused descriptor. -/
theorem avail {b : Bitmask} (ha : m.bitmask.getAvailNumber = some (d, b)) :
    v.unused = some d := by
  obtain ⟨hlt, -, hclear, -⟩ := Bitmask.getAvailNumber_spec ha
  refine Services.unused_eq_some.2 ⟨h.nBits ▸ hlt, ?_, fun k hk => ?_⟩
  · simpa [h.bit] using hclear
  · have hset := Bitmask.getAvailNumber_least ha hk
    rw [h.bit] at hset
    exact Option.isSome_iff_ne_none.1 hset

theorem avail_none (ha : m.bitmask.getAvailNumber = none) : v.unused = none := by
  refine Services.unused_eq_none.2 fun d hd => ?_
  have hset := Bitmask.getAvailNumber_none ha (h.nBits.symm ▸ hd)
  rw [h.bit] at hset
  exact Option.isSome_iff_ne_none.1 hset

/-- A descriptor and its key have been reserved, and the tag has been published. -/
theorem created {b : Bitmask} {e : Entry} (ha : m.bitmask.getAvailNumber = some (d, b))
    (hkey : e.key = key) (hd : e.tagKey = d)
    (hfree : key ≠ ipcPrivate → m.table.lookup key = none) :
    Stands { m with
      bitmask := b
      table := if key = ipcPrivate then m.table else m.table.insert key d
      tags := Function.update m.tags d (some e) } (Function.update v d (some key)) := by
  obtain ⟨hlt, hn, hclear, hbits⟩ := Bitmask.getAvailNumber_spec ha
  have hnone : v d = none := (Services.unused_eq_some.1 (h.avail ha)).2.1
  refine ⟨h.sem, hn.trans h.nBits, fun x => ?_, fun x hx => ?_, fun x => ?_, fun x e' hx => ?_,
    fun k x => ?_⟩
  · by_cases hxd : x = d
    · subst hxd; simp [hbits]
    · simp [hbits, h.bit, hxd]
  · by_cases hxd : x = d
    · subst hxd; exact h.nBits ▸ hlt
    · exact h.lt x (by simpa [hxd] using hx)
  · by_cases hxd : x = d
    · subst hxd; simp [hkey]
    · simp [hxd, h.tags]
  · by_cases hxd : x = d
    · subst hxd
      simp only [Function.update_self, Option.some.injEq] at hx
      exact hx ▸ hd
    · exact h.tagKey x e' (by simpa [hxd] using hx)
  · by_cases hp : key = ipcPrivate
    · simp only [if_pos hp, h.table]
      by_cases hxd : x = d
      · subst hxd
        simp only [hnone, reduceCtorEq, and_false, Function.update_self, Option.some.injEq,
          false_iff, not_and]
        exact fun hk he => hk (he ▸ hp)
      · simp [hxd]
    · simp only [if_neg hp]
      by_cases hk : k = key
      · subst hk
        rw [AList.lookup_insert]
        by_cases hxd : x = d
        · subst hxd; simp [hp]
        · have hno : v x ≠ some k := by
            intro hx
            have := (h.table k x).2 ⟨hp, hx⟩
            rw [hfree hp] at this; cases this
          simp [hxd, Ne.symm hxd, hno]
      · rw [AList.lookup_insert_ne hk, h.table]
        by_cases hxd : x = d
        · subst hxd; simp [hnone, Ne.symm hk]
        · simp [hxd]

/-- A number has been handed out and given back. -/
theorem refused {b : Bitmask} (ha : m.bitmask.getAvailNumber = some (d, b)) :
    Stands { m with bitmask := (b.clearNumber d).2 } v := by
  obtain ⟨hlt, hn, hclear, hbits⟩ := Bitmask.getAvailNumber_spec ha
  obtain ⟨-, hn', hbits'⟩ := Bitmask.clearNumber_spec (hn.symm ▸ hlt) (by simp [hbits])
  refine ⟨h.sem, (hn'.trans hn).trans h.nBits, fun x => ?_, h.lt, h.tags, h.tagKey, h.table⟩
  rw [hbits', hbits]
  by_cases hxd : x = d
  · subst hxd; simp [← h.bit, hclear]
  · simp [hxd, h.bit]

/-- A tag has been taken out of `tags` and given back. -/
theorem deleted {e : Entry} (he : m.tags d = some e) :
    Stands (({ m with tags := Function.update m.tags d none } : Mem).clearCommon e.key e.tagKey)
      (Function.update v d none) := by
  have hkey : v d = some e.key := by rw [← h.tags, he]; rfl
  have hlt : d < m.bitmask.nBits := h.nBits ▸ h.lt d (by simp [hkey])
  obtain ⟨hone, hn, hbits⟩ := Bitmask.clearNumber_spec hlt (by simp [h.bit, hkey])
  have hclear : ({ m with tags := Function.update m.tags d none } : Mem).clearCommon e.key e.tagKey =
      { m with
        tags := Function.update m.tags d none
        bitmask := (m.bitmask.clearNumber d).2
        table := if e.key ≠ ipcPrivate ∧ m.table.lookup e.key = some d then m.table.erase e.key
          else m.table } := by
    rw [h.tagKey d e he]
    simp only [Mem.clearCommon, if_pos hone]
  rw [hclear]
  refine ⟨h.sem, hn.trans h.nBits, fun x => ?_, fun x hx => ?_, fun x => ?_, fun x e' hx => ?_,
    fun k x => ?_⟩
  · by_cases hxd : x = d
    · subst hxd; simp [hbits]
    · simp [hbits, h.bit, hxd]
  · by_cases hxd : x = d
    · subst hxd; simp at hx
    · exact h.lt x (by simpa [hxd] using hx)
  · by_cases hxd : x = d
    · subst hxd; simp
    · simp [hxd, h.tags]
  · by_cases hxd : x = d
    · subst hxd; simp at hx
    · exact h.tagKey x e' (by simpa [hxd] using hx)
  · by_cases hp : e.key = ipcPrivate
    · simp only [ne_eq, hp, not_true_eq_false, false_and, if_false, h.table]
      by_cases hxd : x = d
      · subst hxd
        simp only [hkey, hp, Option.some.injEq, Function.update_self, reduceCtorEq, and_false,
          iff_false, not_and]
        exact fun hk he => hk he.symm
      · simp [hxd]
    · have hin : m.table.lookup e.key = some d := (h.table e.key d).2 ⟨hp, hkey⟩
      simp only [ne_eq, hp, not_false_eq_true, hin, and_self, if_true]
      by_cases hk : k = e.key
      · subst hk
        rw [AList.lookup_erase]
        by_cases hxd : x = d
        · subst hxd; simp
        · have hno : v x ≠ some e.key := by
            intro hx
            have := (h.table e.key x).2 ⟨hp, hx⟩
            rw [hin] at this
            exact hxd (Option.some.inj this).symm
          simp [hxd, hno]
      · rw [AList.lookup_erase_ne hk, h.table]
        by_cases hxd : x = d
        · subst hxd; simp [hkey, Ne.symm hk]
        · simp [hxd]

/-- What a creation finds under `common_lock`, and what the specification does. -/
inductive Reserved (m : Mem) (v : Services) (key : ℤ) : Prop
  /-- All descriptors are in use, and no service is private. -/
  | full (code : m.reserve key false = (m, .error EMAXTAG)) (unused : v.unused = none)
      (keyed : ∀ d, d < maxTags → v d ≠ some ipcPrivate)
  /-- All descriptors are in use, and some service is private. -/
  | exhausted (d : ℕ) (code : m.reserve key false = (m, .error EPROTO)) (unused : v.unused = none)
      (lt : d < maxTags) (hidden : v d = some ipcPrivate)
  /-- The key is in use. -/
  | busy (d : ℕ) (m' : Mem) (code : m.reserve key false = (m', .error EBUSY))
      (unused : v.unused = some d) (live : key ≠ ipcPrivate ∧ (v.holder key).isSome = true)
      (stands : Stands m' v)
  /-- A descriptor is reserved. -/
  | created (d : ℕ) (m' : Mem) (code : m.reserve key false = (m', .ok d))
      (unused : v.unused = some d) (new : ¬ (key ≠ ipcPrivate ∧ (v.holder key).isSome = true))
      (stands : ∀ e : Entry, e.key = key → e.tagKey = d →
        Stands { m' with tags := Function.update m'.tags d (some e) }
          (Function.update v d (some key)))

theorem reserved (key : ℤ) : Reserved m v key := by
  by_cases hmax : maxTags ≤ m.table.entries.length
  · have hall := h.count_ge.1 hmax
    exact .full (by simp only [Mem.reserve, if_pos hmax])
      (Services.unused_eq_none.2 fun d hd => (hall d hd).1) fun d hd => (hall d hd).2
  · cases ha : m.bitmask.getAvailNumber with
    | none =>
      have hnone := h.avail_none ha
      -- the table is not full, so somebody is not in it
      obtain ⟨d, hd, hpriv⟩ : ∃ d, d < maxTags ∧ v d = some ipcPrivate := by
        by_contra hno
        push Not at hno
        exact hmax (h.count_ge.2 fun d hd => ⟨Services.unused_eq_none.1 hnone d hd, hno d hd⟩)
      exact .exhausted d (by simp only [Mem.reserve, if_neg hmax, ha]) hnone hd hpriv
    | some r =>
      obtain ⟨d, b⟩ := r
      have hd : ¬ maxTags ≤ d := not_le.2 (h.nBits ▸ (Bitmask.getAvailNumber_spec ha).1)
      have hcode : m.reserve key false =
          if key = ipcPrivate then ({ m with bitmask := b }, .ok d)
          else if (m.table.lookup key).isSome then
            ({ m with bitmask := (b.clearNumber d).2 }, .error EBUSY)
          else ({ m with bitmask := b, table := m.table.insert key d }, .ok d) := by
        simp [Mem.reserve, hmax, ha, hd]
      by_cases hkey : key = ipcPrivate
      · refine .created d _ (by rw [hcode, if_pos hkey]) (h.avail ha) (fun hn => hn.1 hkey) ?_
        intro e he hed
        have hs := h.created ha he hed fun hn => absurd hkey hn
        rwa [if_pos hkey] at hs
      · cases hl : m.table.lookup key with
        | some x =>
          exact .busy d _ (by rw [hcode, if_neg hkey, hl]; rfl) (h.avail ha)
            ⟨hkey, by rw [h.holder hkey, hl]; rfl⟩ (h.refused ha)
        | none =>
          refine .created d _ (by rw [hcode, if_neg hkey, hl]; rfl) (h.avail ha) ?_ ?_
          · rw [h.holder hkey, hl]
            simp
          · intro e he hed
            have hs := h.created ha he hed fun _ => hl
            rwa [if_neg hkey] at hs

/-- A creation does on the memory what it does on the services.  It returns the same, unless all
descriptors are in use and some service is private. -/
theorem create {c : CallId} {a : GetArgs} (ha : a.creates = true) :
    Stands ((getGo c a)^[40] (m, .start)).1 (v.create a.key).1 ∧
      (((getGo c a)^[40] (m, .start)).2 = .done (v.create a.key).2 ↔
        ¬ ((∀ d, d < maxTags → v d ≠ none) ∧ ∃ d, d < maxTags ∧ v d = some ipcPrivate)) := by
  rw [getGo_create (h.sem _) ha, Services.create]
  cases h.reserved a.key with
  | full code unused keyed =>
    rw [code, unused]
    refine ⟨h, ⟨fun _ hex => ?_, fun _ => rfl⟩⟩
    obtain ⟨d, hd, hpriv⟩ := hex.2
    exact keyed d hd hpriv
  | exhausted d code unused lt hidden =>
    rw [code, unused]
    refine ⟨h, ⟨fun heq => ?_, fun hno => ?_⟩⟩
    · simp [EPROTO, EMAXTAG] at heq
    · exact absurd ⟨Services.unused_eq_none.1 unused, d, lt, hidden⟩ hno
  | busy d m' code unused live stands =>
    simp only [code, unused, if_pos live]
    refine ⟨stands, ⟨fun _ hex => ?_, fun _ => trivial⟩⟩
    exact hex.1 d (Services.unused_eq_some.1 unused).1 (Services.unused_eq_some.1 unused).2.1
  | created d m' code unused new stands =>
    simp only [code, unused, if_neg new]
    refine ⟨stands _ rfl rfl, ⟨fun _ hex => ?_, fun _ => trivial⟩⟩
    exact hex.1 d (Services.unused_eq_some.1 unused).1 (Services.unused_eq_some.1 unused).2.1

/-- An opening finds the live service with the key. -/
theorem opened {c : CallId} {a : GetArgs} (ha : a.creates = false) (ha' : a.opens = true) :
    (getGo c a)^[40] (m, .start) = (m, .done (v.find a.key)) := by
  have hkey : a.key ≠ ipcPrivate := by
    rw [GetArgs.opens, Bool.and_eq_true, decide_eq_true_eq] at ha'
    exact ne_of_gt ha'.1
  rw [getGo_open (h.sem _) ha ha', Services.find, h.holder hkey]
  cases hl : m.table.lookup a.key with
  | none => rfl
  | some d =>
    have hlive : m.tags d ≠ none := by
      rw [Ne, h.tags_eq_none, ((h.table _ _).1 hl).2]
      simp
    simp [hlive]

end Stands

/-- **One call** on the memory does what it does on the services.  It returns the same, unless it
creates a service while all descriptors are in use and one of them is private. -/
theorem Stands.serve {s : State} {v : Services} (h : Stands s.mem v) {c : CallId}
    (hidle : (s.thread c).idle = true)
    (hperm : ∀ tag u p e, s.thread c = .delete tag u p → s.mem.tags tag.toNat = some e →
      e.checkPerm u = false) :
    Stands (s.serve c).mem (v.serve (s.thread c)).1 ∧
      (((s.serve c).thread c).result = some (v.serve (s.thread c)).2 ↔
        ¬ v.Exhausted (s.thread c)) := by
  cases hc : s.thread c with
  | get a p =>
    obtain rfl : p = .start := by
      rw [hc] at hidle
      cases p <;> first | rfl | cases hidle
    rw [State.serve, after_get hc, Config.set_mem, Config.set_thread_self, Services.serve]
    by_cases ha : a.creates = true
    · rw [if_pos ha]
      obtain ⟨hstands, hiff⟩ := h.create (c := c) ha
      refine ⟨hstands, Iff.trans ?_ (hiff.trans (not_congr
        ⟨fun hf => ⟨⟨a, _, rfl, ha⟩, hf⟩, fun hf => hf.2⟩))⟩
      rw [getGo_create (h.sem _) ha]
      split <;> simp [Thread.result]
    · have hno : ¬ v.Exhausted (.get a .start) := by
        rintro ⟨⟨a', p, heq, ha'⟩, -⟩
        cases heq
        exact ha ha'
      rw [Bool.not_eq_true] at ha
      by_cases ha' : a.opens = true
      · rw [h.opened ha ha', if_neg (by simp [ha]), if_pos ha']
        exact ⟨h, ⟨fun _ => hno, fun _ => rfl⟩⟩
      · rw [Bool.not_eq_true] at ha'
        rw [getGo_invalid ha ha', if_neg (by simp [ha]), if_neg (by simp [ha'])]
        exact ⟨h, ⟨fun _ => hno, fun _ => rfl⟩⟩
  | delete tag u p =>
    obtain rfl : p = .start := by
      rw [hc] at hidle
      cases p <;> first | rfl | cases hidle
    have hno : ¬ v.Exhausted (.delete tag u .start) := by
      rintro ⟨⟨a, p, heq, -⟩, -⟩
      cases heq
    rw [State.serve, after_delete hc, Config.set_mem, Config.set_thread_self, Services.serve]
    by_cases hv : tag < 0 ∨ (maxTags : ℤ) ≤ tag
    · rw [deleteGo_fails (h.sem _) (hv.elim .inl fun h => .inr (.inl h)), if_pos hv, if_pos hv]
      exact ⟨h, ⟨fun _ => hno, fun _ => rfl⟩⟩
    · rw [if_neg hv, Services.delete]
      cases hl : s.mem.tags tag.toNat with
      | none =>
        have hdead : v tag.toNat = none := h.tags_eq_none.1 hl
        rw [deleteGo_fails (h.sem _) (.inr (.inr hl)), if_neg hv, hdead]
        exact ⟨h, ⟨fun _ => hno, fun _ => rfl⟩⟩
      | some e =>
        have hlive : (v tag.toNat).isSome = true := by
          rw [← h.tags, hl]; rfl
        rw [deleteGo_live h.sem hv hl (hperm tag u _ e hc hl), if_pos hlive]
        exact ⟨h.deleted hl, ⟨fun _ => hno, fun _ => rfl⟩⟩

/-! ## Sequences of calls

The condition is about the services alone: it is never asked for one more when every descriptor is
in use and one of them is private. -/

/-- Running a call alone moves no other. -/
theorem State.serve_thread {s : State} {c d : CallId} (hd : d ≠ c) :
    (s.serve c).thread d = s.thread d := by
  rw [State.serve]
  refine after_keeps (P := fun t : State => t.thread d = s.thread d) ?_ rfl
  intro x hx u t hu ht
  obtain rfl : x = (c, Outcome.go) := List.eq_of_mem_replicate hx
  exact (Step.thread_of_ne ⟨_, ht⟩ hd).trans hu

/-- A sequence of calls returns what it returns on the services exactly when none of them creates
a service while all descriptors are in use and one of them is private. -/
theorem Stands.replies {s : State} {v : Services} (h : Stands s.mem v) {cs : List CallId}
    (hidle : ∀ c ∈ cs, (s.thread c).idle = true) (hcs : cs.Nodup) (hperm : s.Permitted cs) :
    s.replies cs = v.replies (cs.map s.thread) ↔ v.Roomy (cs.map s.thread) := by
  induction cs generalizing s v with
  | nil => exact ⟨fun _ => trivial, fun _ => rfl⟩
  | cons c cs ih =>
    rw [List.nodup_cons] at hcs
    obtain ⟨hstands, hiff⟩ := h.serve (hidle c (by simp)) hperm.1
    have hother : ∀ d ∈ cs, (s.serve c).thread d = s.thread d := by
      intro d hd
      refine State.serve_thread ?_
      rintro rfl
      exact hcs.1 hd
    have hrest := ih hstands (fun d hd => by
      rw [hother d hd]; exact hidle d (List.mem_cons_of_mem _ hd)) hcs.2 hperm.2
    rw [List.map_congr_left hother] at hrest
    rw [List.map_cons, State.replies, Services.replies, List.cons.injEq, hiff, hrest,
      Services.Roomy]

/-- **One call at a time** the registry returns what a set of services returns, exactly when no
service is created while all descriptors are in use and one of them is private. -/
theorem serial_iff {s₀ : State} (h0 : Init s₀) {cs : List CallId} (hcs : cs.Nodup)
    (hperm : s₀.Permitted cs) :
    s₀.replies cs = Services.empty.replies (cs.map s₀.thread) ↔
      Services.empty.Roomy (cs.map s₀.thread) :=
  Stands.replies (h0.mem ▸ Stands.initial) (fun c _ => h0.idle c) hcs hperm

/-! ## A full registry that does not say so

The test for a full registry counts the entries of the table, and private tags have none. -/

/-- Creations of private services. -/
def privates : CallId → Thread := fun _ => .get ⟨ipcPrivate, tagCreat, tagPermAll, 0⟩ .start

theorem privates_init : Init ⟨Mem.initial, privates⟩ := ⟨rfl, fun _ => rfl⟩

theorem permitted_of_get {s : State} {cs : List CallId}
    (h : ∀ c tag u p, s.thread c ≠ .delete tag u p) : s.Permitted cs := by
  induction cs generalizing s with
  | nil => trivial
  | cons c cs ih =>
    refine ⟨fun tag u p e hc => absurd hc (h c tag u p), ih fun d tag u p hd => ?_⟩
    by_cases hdc : d = c
    · subst hdc
      cases hc : s.thread d with
      | get a q =>
        rw [State.serve, after_get hc, Config.set_thread_self] at hd
        cases hd
      | delete tag' u' q => exact h d _ _ _ hc
    · rw [State.serve_thread hdc] at hd
      exact h d tag u p hd

/-- Private services under the descriptors below `n`. -/
def Services.privateBelow (n : ℕ) : Services := fun d => if d < n then some ipcPrivate else none

theorem Services.create_privateBelow {n : ℕ} (hn : n < maxTags) :
    ((privateBelow n).create ipcPrivate).1 = privateBelow (n + 1) := by
  have hunused : (privateBelow n).unused = some n :=
    unused_eq_some.2 ⟨hn, by simp [privateBelow], fun k hk => by simp [privateBelow, hk]⟩
  rw [create, hunused]
  simp only [ne_eq, not_true_eq_false, false_and, if_false]
  funext d
  rcases lt_trichotomy d n with hd | rfl | hd
  · simp [privateBelow, hd, ne_of_lt hd, Nat.lt_succ_of_lt hd]
  · simp [privateBelow]
  · simp [privateBelow, ne_of_gt hd, not_lt.2 (le_of_lt hd), not_lt.2 (Nat.succ_le_of_lt hd)]

/-- When all descriptors have gone to private services, the next creation is too many. -/
theorem Services.not_roomy {n k : ℕ} (h : n + k = maxTags) :
    ¬ (privateBelow n).Roomy (List.replicate (k + 1) (privates 0)) := by
  induction k generalizing n with
  | zero =>
    rintro ⟨hno, -⟩
    obtain rfl : n = maxTags := h
    exact hno ⟨⟨_, _, rfl, rfl⟩, fun d hd => by simp [privateBelow, hd], 0, by decide,
      by simp [privateBelow, maxTags]⟩
  | succ k ih =>
    rintro ⟨-, hrest⟩
    have hserve : ((privateBelow n).serve (privates 0)).1 = privateBelow (n + 1) :=
      create_privateBelow (by omega)
    rw [hserve] at hrest
    exact ih (by omega) hrest

/-- After `MAX_TAGS` private services the next `TAG_CREAT` does not return `-EMAXTAG`. -/
theorem exhausted_unnoticed : ¬ ∀ (s₀ : State) (cs : List CallId), Init s₀ → cs.Nodup →
    s₀.Permitted cs → s₀.replies cs = Services.empty.replies (cs.map s₀.thread) := by
  intro h
  have heq := h _ _ privates_init (List.nodup_range (n := maxTags + 1))
    (permitted_of_get fun _ _ _ _ hc => by cases hc)
  have hstart : Stands (⟨Mem.initial, privates⟩ : State).mem Services.empty := Stands.initial
  have hroomy := (hstart.replies (fun _ _ => rfl) List.nodup_range
    (permitted_of_get fun _ _ _ _ hc => by cases hc)).1 heq
  have hmap : (List.range (maxTags + 1)).map privates =
      List.replicate (maxTags + 1) (privates 0) :=
    List.eq_replicate_iff.2 ⟨by simp, by simp [privates]⟩
  have hempty : Services.empty = Services.privateBelow 0 := by
    funext d
    simp [Services.empty, Services.privateBelow]
  rw [hmap, hempty] at hroomy
  exact Services.not_roomy (by simp) hroomy

/-- A creation with key 5, a second one, an opening and a deletion. -/
def shortLife : State :=
  ⟨Mem.initial, fun
    | 2 => .get ⟨5, tagOpen, 0, 0⟩ .start
    | 3 => .delete 0 0 .start
    | _ => .get ⟨5, tagCreat, tagPermAll, 0⟩ .start⟩

/-- The second creation finds the key taken; the opening finds the tag, and the deletion removes it.
-/
theorem serial_iff_shortLife :
    shortLife.replies [0, 1, 2, 3] = [some 0, some (-EBUSY), some 0, some 1] := by
  have hroomy : Services.empty.Roomy ([0, 1, 2, 3].map shortLife.thread) :=
    ⟨fun h => absurd rfl (h.2.1 9 (by decide)), fun h => absurd rfl (h.2.1 9 (by decide)),
      fun h => absurd rfl (h.2.1 9 (by decide)), fun h => absurd rfl (h.2.1 9 (by decide)), trivial⟩
  have hthread : ∀ {s : State} {c d : CallId}, d ≠ c → (s.serve c).thread d = s.thread d :=
    State.serve_thread
  have hinit : Init shortLife := by
    refine ⟨rfl, fun c => ?_⟩
    dsimp only [shortLife]
    split <;> rfl
  refine ((@serial_iff shortLife hinit [0, 1, 2, 3] (by decide)
    ⟨?_, ?_, ?_, ?_, trivial⟩).2 hroomy).trans (by decide +kernel)
  · intro tag u p e hc
    cases hc
  · intro tag u p e hc
    rw [hthread (by decide)] at hc; cases hc
  · intro tag u p e hc
    rw [hthread (by decide), hthread (by decide)] at hc; cases hc
  · intro tag u p e hc _
    rw [hthread (by decide), hthread (by decide), hthread (by decide)] at hc
    cases hc
    simp [Entry.checkPerm]

end TagAos.Registry
