import Mathlib.Data.Finset.Insert
import Mathlib.Data.Finset.Erase
import Mathlib.Data.Finset.Empty
import Mathlib.Data.Finset.Basic
import Mathlib.Data.Finset.Filter

/-!
# Read-write semaphores

A read-write semaphore is held either by a set of readers or by one writer.  `RwSem` has one
constructor for each, so that "a writer excludes everybody else" is not a fact to carry around
but the shape of the type.  The acquiring operations are partial: `none` is the outcome of an
attempt that would have to wait.

Each operation comes with one lemma that says who holds the semaphore afterwards, in terms of who
held it before; nothing outside this file unfolds the operations.
-/

set_option autoImplicit false

namespace Conc

/-- How a semaphore is held. -/
inductive Mode
  | read
  | write
  deriving DecidableEq, Repr

/-- A read-write semaphore: a set of readers, empty when it is free, or one writer. -/
inductive RwSem (ι : Type*)
  | shared (readers : Finset ι)
  | exclusive (writer : ι)

namespace RwSem

variable {ι : Type*}

/-- The semaphore as it is initialised. -/
def free : RwSem ι := .shared ∅

/-- `c` holds the semaphore in the given mode. -/
def Holds : RwSem ι → ι → Mode → Prop
  | .shared r, c, .read => c ∈ r
  | .exclusive w, c, .write => c = w
  | .shared _, _, .write => False
  | .exclusive _, _, .read => False

/-- A writer holds the semaphore. -/
def isExclusive : RwSem ι → Bool
  | .shared _ => false
  | .exclusive _ => true

instance [DecidableEq ι] (s : RwSem ι) (c : ι) (md : Mode) : Decidable (s.Holds c md) :=
  match s, md with
  | .shared r, .read => inferInstanceAs (Decidable (c ∈ r))
  | .exclusive w, .write => inferInstanceAs (Decidable (c = w))
  | .shared _, .write | .exclusive _, .read => isFalse id

@[simp] theorem free_holds (c : ι) (md : Mode) : ¬ (free : RwSem ι).Holds c md := by
  cases md <;> simp [free, Holds]

/-- A semaphore nobody holds is free. -/
theorem eq_free {s : RwSem ι} (h : ∀ c md, ¬ s.Holds c md) : s = free := by
  cases s with
  | shared r => exact congrArg shared (Finset.eq_empty_of_forall_notMem fun c => h c .read)
  | exclusive w => exact absurd rfl (h w .write)

/-- **A writer is alone.** -/
theorem Holds.eq_of_write {s : RwSem ι} {c d : ι} {md : Mode} (h : s.Holds c .write)
    (h' : s.Holds d md) : d = c ∧ md = .write := by
  cases s with
  | shared r => exact h.elim
  | exclusive w =>
    cases md with
    | read => exact h'.elim
    | write => exact ⟨Eq.trans h' (Eq.symm h), rfl⟩

theorem isExclusive_iff {s : RwSem ι} : s.isExclusive = true ↔ ∃ c, s.Holds c .write := by
  cases s with
  | shared r => simp [isExclusive, Holds]
  | exclusive w => simp [isExclusive, Holds]

variable [DecidableEq ι]

/-- Acquire for reading; `none` while a writer holds the semaphore. -/
def downRead (c : ι) : RwSem ι → Option (RwSem ι)
  | .shared r => some (.shared (insert c r))
  | .exclusive _ => none

/-- Release after reading. -/
def upRead (c : ι) : RwSem ι → RwSem ι
  | .shared r => .shared (r.erase c)
  | .exclusive w => .exclusive w

/-- Acquire for writing; `none` while anybody holds the semaphore. -/
def downWrite (c : ι) : RwSem ι → Option (RwSem ι)
  | .shared r => if r = ∅ then some (.exclusive c) else none
  | .exclusive _ => none

/-- Release after writing. -/
def upWrite (c : ι) : RwSem ι → RwSem ι
  | .shared r => .shared r
  | .exclusive w => if w = c then free else .exclusive w

variable {s s' : RwSem ι} {c d : ι} {md : Mode}

theorem holds_downRead (h : s.downRead c = some s') :
    s'.Holds d md ↔ s.Holds d md ∨ (d = c ∧ md = .read) := by
  cases s with
  | exclusive w => simp [downRead] at h
  | shared r =>
    simp only [downRead, Option.some.injEq] at h
    subst h
    cases md <;> simp [Holds, or_comm]

theorem holds_upRead (h : s.Holds c .read) :
    (s.upRead c).Holds d md ↔ s.Holds d md ∧ ¬ (d = c ∧ md = .read) := by
  cases s with
  | exclusive w => exact h.elim
  | shared r => cases md <;> simp [upRead, Holds, and_comm]

theorem not_holds_of_downWrite (h : s.downWrite c = some s') : ¬ s.Holds d md := by
  cases s with
  | exclusive w => simp [downWrite] at h
  | shared r =>
    simp only [downWrite] at h
    split at h
    · rename_i hr; subst hr; exact free_holds d md
    · exact absurd h (by simp)

theorem holds_downWrite (h : s.downWrite c = some s') :
    s'.Holds d md ↔ s.Holds d md ∨ (d = c ∧ md = .write) := by
  have hn : ¬ s.Holds d md := not_holds_of_downWrite h
  cases s with
  | exclusive w => simp [downWrite] at h
  | shared r =>
    simp only [downWrite] at h
    split at h
    · cases h
      cases md with
      | read => simpa [Holds] using hn
      | write => simp [Holds]
    · exact absurd h (by simp)

theorem holds_upWrite (h : s.Holds c .write) :
    (s.upWrite c).Holds d md ↔ s.Holds d md ∧ ¬ (d = c ∧ md = .write) := by
  cases s with
  | shared r => exact h.elim
  | exclusive w =>
    have hw : w = c := Eq.symm h
    rw [upWrite, if_pos hw]
    constructor
    · exact fun hf => absurd hf (free_holds d md)
    · rintro ⟨hd, hne⟩
      cases md with
      | read => exact hd.elim
      | write => exact absurd ⟨Eq.trans hd hw, rfl⟩ hne

/-- The semaphore when its readers are left out of account. -/
def onlyWriter : RwSem ι → RwSem ι
  | .shared _ => free
  | .exclusive w => .exclusive w

omit [DecidableEq ι] in
@[simp] theorem onlyWriter_free : (free : RwSem ι).onlyWriter = free := rfl

theorem onlyWriter_downRead (h : s.downRead c = some s') : s'.onlyWriter = s.onlyWriter := by
  cases s with
  | shared r =>
    cases h
    rfl
  | exclusive w => cases h

@[simp] theorem onlyWriter_upRead (s : RwSem ι) (c : ι) :
    (s.upRead c).onlyWriter = s.onlyWriter := by
  cases s <;> rfl

theorem downWrite_onlyWriter (h : s.downWrite c = some s') :
    s.onlyWriter.downWrite c = some s'.onlyWriter := by
  cases s with
  | shared r =>
    rw [downWrite] at h
    split at h
    · cases h; rfl
    · cases h
  | exclusive w => cases h

@[simp] theorem onlyWriter_upWrite (s : RwSem ι) (c : ι) :
    (s.upWrite c).onlyWriter = s.onlyWriter.upWrite c := by
  cases s with
  | shared r => rfl
  | exclusive w =>
    rw [upWrite, onlyWriter, upWrite]
    split <;> rfl

/-- Somebody is in the way of a reader only if a writer is. -/
theorem downRead_eq_none (h : s.downRead c = none) : ∃ d, s.Holds d .write := by
  cases s with
  | shared r => simp [downRead] at h
  | exclusive w => exact ⟨w, rfl⟩

/-- Somebody is in the way of a writer. -/
theorem downWrite_eq_none (h : s.downWrite c = none) : ∃ d md, s.Holds d md := by
  cases s with
  | shared r =>
    rw [downWrite] at h
    split at h
    · cases h
    · rename_i hr
      obtain ⟨d, hd⟩ := Finset.nonempty_iff_ne_empty.2 hr
      exact ⟨d, .read, hd⟩
  | exclusive w => exact ⟨w, .write, rfl⟩

/-- Acquire in a mode. -/
def acquire (md : Mode) (c : ι) (s : RwSem ι) : Option (RwSem ι) :=
  match md with
  | .read => s.downRead c
  | .write => s.downWrite c

/-- Release in a mode. -/
def release (md : Mode) (c : ι) (s : RwSem ι) : RwSem ι :=
  match md with
  | .read => s.upRead c
  | .write => s.upWrite c

/-- What is acquired and released again is as it was. -/
theorem release_acquire (h : s.acquire md c = some s') (hc : ¬ s.Holds c md) :
    s'.release md c = s := by
  cases md with
  | read =>
    cases s with
    | exclusive w => cases h
    | shared r =>
      cases h
      exact congrArg shared (Finset.erase_insert hc)
  | write =>
    cases s with
    | exclusive w => cases h
    | shared r =>
      simp only [acquire, downWrite] at h
      split at h
      · rename_i hr
        cases h
        rw [hr]
        exact if_pos rfl
      · cases h

/-! ## Readers that are left out

A semaphore as it would be if some of its readers were not there.  What the others do to it they can
also do then. -/

/-- The semaphore as it would be if nobody of `U` had ever read under it. -/
def without (U : ι → Bool) : RwSem ι → RwSem ι
  | .shared r => .shared (r.filter fun c => U c = false)
  | .exclusive w => .exclusive w

section Without

variable {U : ι → Bool}

omit [DecidableEq ι] in
@[simp] theorem isExclusive_without (s : RwSem ι) : (s.without U).isExclusive = s.isExclusive := by
  cases s <;> rfl

theorem downRead_without (hc : U c = false) (s : RwSem ι) :
    (s.without U).downRead c = (s.downRead c).map (without U) := by
  cases s with
  | exclusive w => rfl
  | shared r => simp [without, downRead, Finset.filter_insert, hc]

@[simp] theorem upRead_without (c : ι) (s : RwSem ι) :
    (s.upRead c).without U = (s.without U).upRead c := by
  cases s with
  | exclusive w => rfl
  | shared r => simp [without, upRead, Finset.filter_erase]

theorem downWrite_without (h : s.downWrite c = some s') :
    (s.without U).downWrite c = some (s'.without U) := by
  cases s with
  | exclusive w => cases h
  | shared r =>
    simp only [downWrite, Option.ite_none_right_eq_some, Option.some.injEq] at h
    obtain ⟨rfl, rfl⟩ := h
    simp [without, downWrite]

@[simp] theorem upWrite_without (c : ι) (s : RwSem ι) :
    (s.upWrite c).without U = (s.without U).upWrite c := by
  cases s with
  | shared r => rfl
  | exclusive w =>
    rw [upWrite, without, upWrite]
    split <;> rfl

/-- Nobody sees a reader come that is left out. -/
theorem without_of_downRead (hc : U c = true) (h : s.downRead c = some s') :
    s'.without U = s.without U := by
  cases s with
  | exclusive w => cases h
  | shared r =>
    cases h
    simp [without, Finset.filter_insert, hc]

/-- Nobody sees a reader go that is left out. -/
theorem without_of_upRead (hc : U c = true) (s : RwSem ι) :
    (s.upRead c).without U = s.without U := by
  cases s with
  | exclusive w => rfl
  | shared r =>
    refine congrArg shared (Finset.ext fun d => ?_)
    simp only [Finset.mem_filter, Finset.mem_erase]
    refine ⟨fun h => ⟨h.1.2, h.2⟩, fun h => ⟨⟨?_, h.1⟩, h.2⟩⟩
    rintro rfl
    rw [hc] at h
    cases h.2

end Without

end RwSem
end Conc
