import TagAos.Conc.RwSem
import Mathlib.Logic.Relation
import Mathlib.Order.WellFounded
import Mathlib.Order.RelClasses

/-!
# Waiting in line

Threads that wait for a lock stand in line in the order of their arrival.  `ahead c q` is the part
of the line `q` that stands before `c`; whoever stands there has fewer ahead of it than `c`
(`length_ahead_lt`).

The second half is about any relation "waits for" that goes down in some rank: it has no cycle,
and every wait can be followed to one that ends it.
-/

set_option autoImplicit false

namespace Conc

/-! ## The line

Who stands in line, and in which order. -/

/-- Two threads cannot hold a lock in these modes at the same time. -/
def Mode.conflicts : Mode → Mode → Bool
  | .read, .read => false
  | _, _ => true

section Line

variable {ι : Type*} [DecidableEq ι] {c d : ι} {x : ι × Mode} {q : List (ι × Mode)}

/-- Who stands in line before `c`: everybody, if `c` does not stand there. -/
def ahead (c : ι) (q : List (ι × Mode)) : List (ι × Mode) := q.takeWhile fun x => x.1 ≠ c

theorem mem_of_mem_ahead (h : x ∈ ahead c q) : x ∈ q := List.takeWhile_subset _ h

/-- Whoever stands before `c` has fewer ahead of it. -/
theorem length_ahead_lt (h : x ∈ ahead c q) : (ahead x.1 q).length < (ahead c q).length := by
  induction q with
  | nil => cases h
  | cons y q ih =>
    rw [ahead, List.takeWhile_cons] at h ⊢
    rw [ahead, List.takeWhile_cons]
    by_cases hc : y.1 = c
    · simp [hc] at h
    · simp only [ne_eq, hc, not_false_eq_true, decide_true, if_true, List.mem_cons] at h ⊢
      by_cases hx : y.1 = x.1
      · simp [hx]
      · have hmem : x ∈ ahead c q := h.resolve_left fun hxy => hx (by rw [hxy])
        simpa [hx, ahead] using ih hmem

/-- A semaphore that nobody holds in a conflicting mode can be acquired. -/
theorem RwSem.exists_downRead {s : RwSem ι}
    (h : ∀ d md, s.Holds d md → Mode.read.conflicts md = false) : ∃ t, s.downRead c = some t := by
  refine Option.ne_none_iff_exists'.1 fun hnone => ?_
  obtain ⟨d, hd⟩ := RwSem.downRead_eq_none hnone
  cases h d _ hd

theorem RwSem.exists_downWrite {s : RwSem ι}
    (h : ∀ d md, s.Holds d md → Mode.write.conflicts md = false) :
    ∃ t, s.downWrite c = some t := by
  refine Option.ne_none_iff_exists'.1 fun hnone => ?_
  obtain ⟨d, md, hd⟩ := RwSem.downWrite_eq_none hnone
  cases h d md hd

end Line

/-! ## Waiting in the order of a rank

If a rank goes down along every wait there is no cycle, and every chain of waits has an end. -/

section Rank

variable {ι α : Type*} [Preorder α] {R : ι → ι → Prop} {rank : ι → α}

theorem rank_lt_of_transGen (h : ∀ c d, R c d → rank d < rank c) {c d : ι}
    (hcd : Relation.TransGen R c d) : rank d < rank c := by
  induction hcd with
  | single hcd => exact h _ _ hcd
  | tail _ hde ih => exact (h _ _ hde).trans ih

/-- **What goes down in a rank has no cycle.** -/
theorem acyclic_of_rank (h : ∀ c d, R c d → rank d < rank c) (c : ι) :
    ¬ Relation.TransGen R c c := fun hcc => lt_irrefl _ (rank_lt_of_transGen h hcc)

/-- **Every wait can be followed to its end**: to somebody who is waited for and does not wait. -/
theorem exists_end_of_rank [WellFoundedLT α] (h : ∀ c d, R c d → rank d < rank c) {c d : ι}
    (hcd : R c d) : ∃ e f, Relation.ReflTransGen R c e ∧ R e f ∧ ∀ g, ¬ R f g := by
  generalize ha : rank c = a
  induction a using WellFoundedLT.induction generalizing c d with
  | _ a ih =>
    by_cases hd : ∃ g, R d g
    · obtain ⟨g, hg⟩ := hd
      obtain ⟨e, f, hde, hef, hf⟩ := ih (rank d) (ha ▸ h c d hcd) hg rfl
      exact ⟨e, f, .head hcd hde, hef, hf⟩
    · exact ⟨c, d, .refl, hcd, fun g hg => hd ⟨g, hg⟩⟩

end Rank
end Conc
