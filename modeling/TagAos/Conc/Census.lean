import Mathlib.Algebra.BigOperators.Group.Finset.Basic
import Mathlib.Algebra.BigOperators.Ring.Finset
import Mathlib.Data.Finset.Card
import Mathlib.Data.Finset.Insert

/-!
# Counters that count threads

A reference counter is correct when its value is the number of threads that are between their
increment and their decrement.  `Census P n` says that exactly `n` threads satisfy `P`; the
lemmas say how it moves when one thread enters or leaves, and what a zero or a positive value
tells.  The type of threads may be infinite, the counted set never is.
-/

set_option autoImplicit false

namespace Conc

variable {ι : Type*}

/-- Exactly `n` threads satisfy `P`. -/
def Census (P : ι → Prop) (n : ℤ) : Prop :=
  ∃ S : Finset ι, (∀ c, c ∈ S ↔ P c) ∧ (S.card : ℤ) = n

namespace Census

variable {P Q : ι → Prop} {n : ℤ} {c : ι}

theorem empty (h : ∀ c, ¬ P c) : Census P 0 := ⟨∅, by simpa using h, rfl⟩

theorem congr (h : Census P n) (hpq : ∀ c, P c ↔ Q c) : Census Q n := by
  obtain ⟨S, hS, hn⟩ := h
  exact ⟨S, fun c => (hS c).trans (hpq c), hn⟩

/-- One thread more: `c` is counted from now on, and nobody else changes. -/
theorem enter [DecidableEq ι] (h : Census P n) (hc : ¬ P c) (hc' : Q c)
    (hother : ∀ d, d ≠ c → (Q d ↔ P d)) : Census Q (n + 1) := by
  obtain ⟨S, hS, hn⟩ := h
  refine ⟨insert c S, fun d => ?_, ?_⟩
  · by_cases hd : d = c
    · subst hd; simp [hc']
    · rw [Finset.mem_insert, hS, hother d hd]; simp [hd]
  · rw [Finset.card_insert_of_notMem (by rw [hS]; exact hc), ← hn]; simp

/-- One thread less: `c` was counted and is not any more, and nobody else changes. -/
theorem leave [DecidableEq ι] (h : Census P n) (hc : P c) (hc' : ¬ Q c)
    (hother : ∀ d, d ≠ c → (Q d ↔ P d)) : Census Q (n - 1) := by
  obtain ⟨S, hS, hn⟩ := h
  refine ⟨S.erase c, fun d => ?_, ?_⟩
  · by_cases hd : d = c
    · subst hd; simp [hc']
    · rw [Finset.mem_erase, hS, hother d hd]; simp [hd]
  · have hpos : 0 < S.card := Finset.card_pos.2 ⟨c, (hS c).2 hc⟩
    rw [Finset.card_erase_of_mem ((hS c).2 hc), ← hn]; omega

theorem pos (h : Census P n) (hc : P c) : 0 < n := by
  obtain ⟨S, hS, hn⟩ := h
  have hpos : 0 < S.card := Finset.card_pos.2 ⟨c, (hS c).2 hc⟩
  omega

theorem nonneg (h : Census P n) : 0 ≤ n := by
  obtain ⟨S, _, hn⟩ := h
  omega

/-- A counter at zero counts nobody. -/
theorem not_of_zero (h : Census P 0) (c : ι) : ¬ P c := fun hc => absurd (h.pos hc) (by simp)

/-- A positive counter counts somebody. -/
theorem exists_of_pos (h : Census P n) (hn : 0 < n) : ∃ c, P c := by
  obtain ⟨S, hS, hcard⟩ := h
  obtain ⟨c, hc⟩ : S.Nonempty := Finset.card_pos.1 (by omega)
  exact ⟨c, (hS c).1 hc⟩

/-- **Counters that count parts of what another counts.**  Threads that are counted by one of
several counters, and by one of them only, are at most as many as there are threads. -/
theorem sum_le {κ : Type*} {T : Finset κ} {Q : κ → ι → Prop} {m : κ → ℤ} (h : Census P n)
    (hQ : ∀ k, Census (Q k) (m k)) (hsub : ∀ k c, Q k c → P c)
    (hone : ∀ k k' c, Q k c → Q k' c → k = k') : ∑ k ∈ T, m k ≤ n := by
  classical
  obtain ⟨S, hS, hn⟩ := h
  choose R hR hm using hQ
  have hdisj : ∀ k ∈ T, ∀ k' ∈ T, k ≠ k' → Disjoint (R k) (R k') := fun k _ k' _ hne =>
    Finset.disjoint_left.2 fun c hk hk' => hne (hone k k' c ((hR k c).1 hk) ((hR k' c).1 hk'))
  have hunion : T.biUnion R ⊆ S := by
    intro c hc
    obtain ⟨k, -, hk⟩ := Finset.mem_biUnion.1 hc
    exact (hS c).2 (hsub k c ((hR k c).1 hk))
  have hcard : ∑ k ∈ T, (R k).card ≤ S.card := by
    rw [← Finset.card_biUnion hdisj]
    exact Finset.card_le_card hunion
  calc ∑ k ∈ T, m k = ∑ k ∈ T, ((R k).card : ℤ) := Finset.sum_congr rfl fun k _ => (hm k).symm
    _ = ((∑ k ∈ T, (R k).card : ℕ) : ℤ) := by rw [Nat.cast_sum]
    _ ≤ n := by rw [← hn]; exact_mod_cast hcard

end Census
end Conc
