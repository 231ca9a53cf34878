import Mathlib.Algebra.BigOperators.Group.Finset.Piecewise
import Mathlib.Data.Finset.Card
import Mathlib.Data.Finset.Range
import Mathlib.Order.Interval.Finset.Nat

/-!
# Open addressing with displaced buckets

The buckets of a table lie on a circle.  An entry goes to the bucket its hash names, its home, or
to one further on, and the bucket says how far: `dib` is one at home, one more at the next
position, and zero in an empty bucket.  Robin Hood insertion lets an entry that is far from home
take the bucket of one that is nearer.

The whole discipline is local.  `Ordered` says that every entry is where its `dib` puts it, and
that the `dib` goes up by at most one from a bucket to the next.  So an entry is preceded by a
chain of full buckets that starts at its home (`Ordered.chain`), none of which would have given
way to it.

* `Ordered.put`, `Arrives.pass`, `Arrives.evict` — the three things that happen to an entry on its
  way to a bucket.
* `Ordered.hole`, `Holed.shift`, `Holed.close` — the three things that happen after a removal.
* `contents` — what the table holds, each entry once; `contents_update` is all that is needed
  about one assignment.

Nothing is said about the probing loops: a program proves that its loop makes these moves.
-/

set_option autoImplicit false

namespace RobinHood

/-! ## Positions on a circle

All that is needed of the positions: there are finitely many, and going on leads from each to each.
-/

/-- Finitely many positions, each of which is reached from any other by going on. -/
structure Circle (ι : Type*) where
  /-- The positions. -/
  pos : Finset ι
  /-- The position after this one. -/
  next : ι → ι
  next_mem : ∀ i ∈ pos, next i ∈ pos
  reach : ∀ i ∈ pos, ∀ j ∈ pos, ∃ t < pos.card, next^[t] i = j

namespace Circle

variable {ι : Type*} (C : Circle ι) {i j : ι}

theorem iterate_mem (h : i ∈ C.pos) (t : ℕ) : C.next^[t] i ∈ C.pos := by
  induction t with
  | zero => exact h
  | succ t ih => rw [Function.iterate_succ_apply']; exact C.next_mem _ ih

/-- Different positions are followed by different ones. -/
theorem next_inj (hi : i ∈ C.pos) (hj : j ∈ C.pos) (h : C.next i = C.next j) : i = j := by
  have hsurj : Set.SurjOn C.next C.pos C.pos := by
    intro k hk
    obtain ⟨t, -, ht⟩ := C.reach (C.next k) (C.next_mem k hk) k hk
    refine ⟨C.next^[t] k, C.iterate_mem hk t, ?_⟩
    rw [← Function.iterate_succ_apply' C.next, Function.iterate_succ_apply, ht]
  exact Finset.injOn_of_surjOn_of_card_le C.next (fun k hk => C.next_mem k hk) hsurj le_rfl hi hj h

/-- Going on from a position, no position is met twice in one round. -/
theorem iterate_inj (hi : i ∈ C.pos) {s t : ℕ} (hs : s < C.pos.card) (ht : t < C.pos.card)
    (h : C.next^[s] i = C.next^[t] i) : s = t := by
  have hsurj : Set.SurjOn (fun t => C.next^[t] i) (Finset.range C.pos.card) C.pos := by
    intro k hk
    obtain ⟨t, ht, rfl⟩ := C.reach i hi k hk
    exact ⟨t, by simpa using ht, rfl⟩
  exact Finset.injOn_of_surjOn_of_card_le (fun t => C.next^[t] i)
    (fun t _ => C.iterate_mem hi t) hsurj (by simp) (by simpa using hs) (by simpa using ht) h

/-- The numbers below `n`, the first after the last. -/
def mod (n : ℕ) (hn : 0 < n) : Circle ℕ where
  pos := Finset.range n
  next i := (i + 1) % n
  next_mem _ _ := Finset.mem_range.2 (Nat.mod_lt _ hn)
  reach i hi j hj := by
    have hiter : ∀ t, (fun i => (i + 1) % n)^[t] i = (i + t) % n := by
      intro t
      induction t with
      | zero => exact (Nat.mod_eq_of_lt (Finset.mem_range.1 hi)).symm
      | succ t ih => rw [Function.iterate_succ_apply', ih, Nat.mod_add_mod, Nat.add_assoc]
    have hi := Finset.mem_range.1 hi
    have hj := Finset.mem_range.1 hj
    rw [Finset.card_range]
    refine ⟨(j + (n - i)) % n, Nat.mod_lt _ hn, ?_⟩
    rw [hiter, Nat.add_mod_mod, show i + (j + (n - i)) = j + n by omega, Nat.add_mod_right,
      Nat.mod_eq_of_lt hj]

end Circle

/-! ## Buckets

A bucket as it is in memory, and the entry it stands for. -/

/-- A bucket: the hash and the item of an entry, and how far it is from home. -/
structure Bucket (η α : Type*) where
  hash : η
  /-- Zero in an empty bucket, one at home. -/
  dib : ℕ
  item : α

variable {ι η α : Type*}

namespace Bucket

/-- The bucket holds nothing. -/
def Empty (b : Bucket η α) : Prop := b.dib = 0

instance (b : Bucket η α) : Decidable b.Empty := inferInstanceAs (Decidable (_ = _))

/-- The entry of a bucket, if there is one. -/
def content (b : Bucket η α) : Multiset (η × α) := if b.Empty then 0 else {(b.hash, b.item)}

/-- The same entry one position further on. -/
def further (b : Bucket η α) : Bucket η α := { b with dib := b.dib + 1 }

/-- The same entry one position nearer. -/
def nearer (b : Bucket η α) : Bucket η α := { b with dib := b.dib - 1 }

/-- The bucket after its entry has gone. -/
def clear (b : Bucket η α) : Bucket η α := { b with dib := 0 }

theorem content_of_empty {b : Bucket η α} (h : b.Empty) : b.content = 0 := if_pos h

theorem content_of_full {b : Bucket η α} (h : ¬ b.Empty) : b.content = {(b.hash, b.item)} :=
  if_neg h

theorem further_content {b : Bucket η α} (h : ¬ b.Empty) : b.further.content = b.content := by
  have hfull : ¬ b.further.Empty := Nat.succ_ne_zero _
  rw [content_of_full h, content_of_full hfull, further]

theorem clear_content (b : Bucket η α) : b.clear.content = 0 := content_of_empty rfl

theorem card_content (b : Bucket η α) : b.content.card = if b.Empty then 0 else 1 := by
  rw [content]
  split <;> rfl

end Bucket

/-! ## What a table holds

The entries as a multiset: moving an entry does not change it. -/

variable (C : Circle ι)

/-- The entries of the table. -/
def contents (T : ι → Bucket η α) : Multiset (η × α) := ∑ i ∈ C.pos, (T i).content

variable {C} {T : ι → Bucket η α} {i j : ι} {b e : Bucket η α}

theorem mem_contents {x : η × α} :
    x ∈ contents C T ↔ ∃ i ∈ C.pos, ¬ (T i).Empty ∧ x = ((T i).hash, (T i).item) := by
  rw [contents, Multiset.mem_sum]
  refine exists_congr fun i => and_congr_right fun _ => ?_
  rw [Bucket.content]
  split <;> simp [*]

/-- The table holds as many entries as buckets are full. -/
theorem card_contents : (contents C T).card = (C.pos.filter fun i => ¬ (T i).Empty).card := by
  rw [contents, Multiset.card_sum, Finset.card_filter]
  refine Finset.sum_congr rfl fun i _ => ?_
  rw [Bucket.card_content]
  split <;> simp [*]

/-- A table with fewer entries than buckets has an empty one. -/
theorem exists_empty (h : (contents C T).card < C.pos.card) : ∃ i ∈ C.pos, (T i).Empty := by
  by_contra hnone
  have hfull : ∀ i ∈ C.pos, ¬ (T i).Empty := fun i hi he => hnone ⟨i, hi, he⟩
  rw [card_contents, Finset.filter_true_of_mem hfull] at h
  exact lt_irrefl _ h

/-! ## The order of a table

The order is local, about a bucket and the one before it.  What a search needs is a statement about
all the buckets between an entry and its home; it follows by going back from the entry
(`Ordered.chain`). -/

variable (C) (home : η → ι)

/-- Every entry is as far from its home as its bucket says, and no bucket is further than one more
than the one before. -/
structure Ordered (T : ι → Bucket η α) : Prop where
  place : ∀ i ∈ C.pos, ¬ (T i).Empty → C.next^[(T i).dib - 1] (home (T i).hash) = i
  step : ∀ i ∈ C.pos, (T (C.next i)).dib ≤ (T i).dib + 1

/-- The entry `e` has come to the position `i` on its way from home, and no bucket on the way has
given way to it. -/
structure Arrives (T : ι → Bucket η α) (i : ι) (e : Bucket η α) : Prop where
  mem : i ∈ C.pos
  full : ¬ e.Empty
  place : C.next^[e.dib - 1] (home e.hash) = i
  step : ∀ j ∈ C.pos, C.next j = i → e.dib ≤ (T j).dib + 1

/-- The table is in order but for the bucket `i`, whose entry has gone. -/
structure Holed (T : ι → Bucket η α) (i : ι) : Prop where
  mem : i ∈ C.pos
  place : ∀ j ∈ C.pos, j ≠ i → ¬ (T j).Empty → C.next^[(T j).dib - 1] (home (T j).hash) = j
  step : ∀ j ∈ C.pos, j ≠ i → C.next j ≠ i → (T (C.next j)).dib ≤ (T j).dib + 1
  /-- Over the hole the distance goes up by at most two. -/
  bridge : ∀ j ∈ C.pos, C.next j = i → (T (C.next i)).dib ≤ (T j).dib + 2

variable {C} {home}

theorem ordered_of_empty (h : ∀ i ∈ C.pos, (T i).Empty) : Ordered C home T where
  place i hi hfull := absurd (h i hi) hfull
  step i hi := (h _ (C.next_mem i hi)).trans_le (Nat.zero_le _)

/-- Only the hashes and the distances matter. -/
theorem Ordered.congr {T' : ι → Bucket η α} (h : Ordered C home T)
    (hdib : ∀ i, (T' i).dib = (T i).dib) (hhash : ∀ i, (T' i).hash = (T i).hash) :
    Ordered C home T' where
  place i hi hfull := by
    rw [hdib, hhash]
    exact h.place i hi (by rwa [Bucket.Empty, ← hdib])
  step i hi := by
    rw [hdib, hdib]
    exact h.step i hi

/-- **The chain.**  From the home of an entry to the entry all buckets are full, and each is at
least as far from its home as the entry would be there. -/
theorem Ordered.chain (h : Ordered C home T) (hhome : home (T i).hash ∈ C.pos) (hi : i ∈ C.pos)
    (hfull : ¬ (T i).Empty) {t : ℕ} (ht : t < (T i).dib) :
    t + 1 ≤ (T (C.next^[t] (home (T i).hash))).dib := by
  obtain ⟨k, hk⟩ : ∃ k, t + k + 1 = (T i).dib := ⟨(T i).dib - t - 1, by omega⟩
  induction k generalizing t with
  | zero =>
    rw [show t = (T i).dib - 1 by omega, h.place i hi hfull]
    omega
  | succ k ih =>
    have hnext := ih (t := t + 1) (by omega) (by omega)
    rw [Function.iterate_succ_apply'] at hnext
    have hstep := h.step _ (C.iterate_mem hhome t)
    omega

/-- In a table that is not full an entry is at most as far from home as there are entries. -/
theorem Ordered.dib_le (h : Ordered C home T) (hhome : home (T i).hash ∈ C.pos) (hi : i ∈ C.pos)
    (hempty : ∃ p ∈ C.pos, (T p).Empty) : (T i).dib ≤ (contents C T).card := by
  by_cases hfull : (T i).Empty
  · exact hfull.trans_le (Nat.zero_le _)
  have hchain : ∀ t < (T i).dib, ¬ (T (C.next^[t] (home (T i).hash))).Empty := by
    intro t ht hemp
    have := h.chain hhome hi hfull ht
    rw [hemp] at this
    omega
  have hround : (T i).dib ≤ C.pos.card := by
    obtain ⟨p, hp, hpe⟩ := hempty
    obtain ⟨t, ht, rfl⟩ := C.reach _ hhome p hp
    by_contra hlt
    exact hchain t (by omega) hpe
  rw [card_contents, ← Finset.card_range (T i).dib]
  refine Finset.card_le_card_of_injOn (fun t => C.next^[t] (home (T i).hash)) ?_ ?_
  · intro t ht
    exact Finset.mem_filter.2 ⟨C.iterate_mem hhome t, hchain t (by simpa using ht)⟩
  · intro s hs t ht heq
    have hs : s < (T i).dib := by simpa using hs
    have ht : t < (T i).dib := by simpa using ht
    exact C.iterate_inj hhome (by omega) (by omega) heq

/-- An entry starts at its home. -/
theorem Arrives.start (hhome : home e.hash ∈ C.pos) (h : e.dib = 1) :
    Arrives C home T (home e.hash) e where
  mem := hhome
  full := by rw [Bucket.Empty, h]; exact one_ne_zero
  place := by rw [h]; rfl
  step j _ _ := by omega

/-- An entry goes past a bucket whose entry is at least as far from home. -/
theorem Arrives.pass (h : Arrives C home T i e) (hle : e.dib ≤ (T i).dib) :
    Arrives C home T (C.next i) e.further where
  mem := C.next_mem i h.mem
  full := Nat.succ_ne_zero _
  place := by
    have hpos : e.dib ≠ 0 := h.full
    rw [Bucket.further, show e.dib + 1 - 1 = e.dib - 1 + 1 by omega,
      Function.iterate_succ_apply', h.place]
  step j hj hnext := by
    obtain rfl := C.next_inj hj h.mem hnext
    exact Nat.succ_le_succ hle

/-- A position that has been reached after full buckets is not far from home. -/
theorem Arrives.dib_le (h : Ordered C home T) (ha : Arrives C home T i e)
    (hhome : ∀ x, home x ∈ C.pos) (hempty : ∃ p ∈ C.pos, (T p).Empty) :
    e.dib ≤ (contents C T).card + 1 := by
  obtain ⟨t, -, ht⟩ := C.reach (C.next i) (C.next_mem i ha.mem) i ha.mem
  have hprev : C.next (C.next^[t] i) = i := by
    rw [← Function.iterate_succ_apply' C.next, Function.iterate_succ_apply, ht]
  have hmem := C.iterate_mem ha.mem t
  exact (ha.step _ hmem hprev).trans (Nat.succ_le_succ (h.dib_le (hhome _) hmem hempty))

theorem Ordered.hole (h : Ordered C home T) (hi : i ∈ C.pos) : Holed C home T i where
  mem := hi
  place j hj _ := h.place j hj
  step j hj _ _ := h.step j hj
  bridge j hj hnext := by
    have h1 := h.step i hi
    have h2 := h.step j hj
    rw [hnext] at h2
    omega

/-! ## One assignment

Every loop over the table assigns one bucket after the other.  What an assignment does to the
entries is said once. -/

variable [DecidableEq ι]

variable (C) in
/-- The entries outside of one bucket. -/
def contentsBut (T : ι → Bucket η α) (i : ι) : Multiset (η × α) :=
  ∑ j ∈ C.pos.erase i, (T j).content

theorem contents_eq (T : ι → Bucket η α) (hi : i ∈ C.pos) :
    contents C T = (T i).content + contentsBut C T i :=
  (Finset.add_sum_erase _ (fun i => (T i).content) hi).symm

theorem contentsBut_update (T : ι → Bucket η α) (i : ι) (b : Bucket η α) :
    contentsBut C (Function.update T i b) i = contentsBut C T i := by
  refine Finset.sum_congr rfl fun j hj => ?_
  rw [Function.update_of_ne (Finset.ne_of_mem_erase hj)]

/-- **One assignment** exchanges the content of one bucket. -/
theorem contents_update (T : ι → Bucket η α) (hi : i ∈ C.pos) (b : Bucket η α) :
    contents C (Function.update T i b) + (T i).content = contents C T + b.content := by
  rw [contents_eq _ hi, contents_eq T hi, contentsBut_update, Function.update_self,
    add_right_comm, add_comm b.content, add_right_comm]

/-- Two full buckets are one if their items have the same key and no key is there twice. -/
theorem eq_of_key {κ : Type*} {key : α → κ}
    (hnodup : ((contents C T).map fun x => key x.2).Nodup) (hi : i ∈ C.pos) (hj : j ∈ C.pos)
    (hi' : ¬ (T i).Empty) (hj' : ¬ (T j).Empty) (h : key (T i).item = key (T j).item) : i = j := by
  by_contra hne
  have hmem : ((T j).hash, (T j).item) ∈ contentsBut C T i := by
    rw [contentsBut, Multiset.mem_sum]
    exact ⟨j, Finset.mem_erase.2 ⟨Ne.symm hne, hj⟩, by rw [Bucket.content_of_full hj']; simp⟩
  rw [contents_eq T hi, Bucket.content_of_full hi', Multiset.singleton_add, Multiset.map_cons,
    Multiset.nodup_cons] at hnodup
  exact hnodup.1 (Multiset.mem_map.2 ⟨_, hmem, h.symm⟩)

/-! ## Insertion

The two ways an entry can go on: it takes a bucket, or passes it. -/

/-- **An entry may take a bucket** whose entry is not further from home. -/
theorem Ordered.put (h : Ordered C home T) (ha : Arrives C home T i e)
    (hle : (T i).dib ≤ e.dib) : Ordered C home (Function.update T i e) where
  place j hj hfull := by
    by_cases hji : j = i
    · subst hji
      rw [Function.update_self]
      exact ha.place
    · rw [Function.update_of_ne hji] at hfull ⊢
      exact h.place j hj hfull
  step j hj := by
    have hkeep : (T j).dib ≤ (Function.update T i e j).dib := by
      by_cases hji : j = i
      · subst hji
        rwa [Function.update_self]
      · rw [Function.update_of_ne hji]
    by_cases hnext : C.next j = i
    · rw [hnext, Function.update_self]
      have := ha.step j hj hnext
      omega
    · rw [Function.update_of_ne hnext]
      have := h.step j hj
      omega

/-- An entry that has lost its bucket goes on from there. -/
theorem Arrives.evict (h : Ordered C home T) (ha : Arrives C home T i e) (hfull : ¬ (T i).Empty)
    (hle : (T i).dib ≤ e.dib) :
    Arrives C home (Function.update T i e) (C.next i) (T i).further where
  mem := C.next_mem i ha.mem
  full := Nat.succ_ne_zero _
  place := by
    have hpos : (T i).dib ≠ 0 := hfull
    rw [Bucket.further, show (T i).dib + 1 - 1 = (T i).dib - 1 + 1 by omega,
      Function.iterate_succ_apply', h.place i ha.mem hfull]
  step j hj hnext := by
    obtain rfl := C.next_inj hj ha.mem hnext
    rw [Function.update_self]
    exact Nat.succ_le_succ hle

/-! ## Removal

The table with a hole in it is in order everywhere else, and the hole moves until it can be closed.
-/

/-- What is in the hole does not matter. -/
theorem Holed.congr (h : Holed C home T i) (hne : C.next i ≠ i) (b : Bucket η α) :
    Holed C home (Function.update T i b) i where
  mem := h.mem
  place j hj hji hfull := by
    rw [Function.update_of_ne hji] at hfull ⊢
    exact h.place j hj hji hfull
  step j hj hji hnext := by
    rw [Function.update_of_ne hji, Function.update_of_ne hnext]
    exact h.step j hj hji hnext
  bridge j hj hnext := by
    have hji : j ≠ i := by
      rintro rfl
      exact hne hnext
    rw [Function.update_of_ne hji, Function.update_of_ne hne]
    exact h.bridge j hj hnext

/-- **The entry after the hole moves into it** if it is not at home; the hole moves on. -/
theorem Holed.shift (h : Holed C home T i) (hhome : ∀ x, home x ∈ C.pos) (hne : C.next i ≠ i)
    (hfar : 1 < (T (C.next i)).dib) :
    Holed C home (Function.update T i (T (C.next i)).nearer) (C.next i) where
  mem := C.next_mem i h.mem
  place j hj hjn hfull := by
    by_cases hji : j = i
    · subst hji
      rw [Function.update_self]
      have hplace := h.place _ (C.next_mem j h.mem) hne (Nat.ne_of_gt (by omega))
      rw [show (T (C.next j)).dib - 1 = (T (C.next j)).dib - 1 - 1 + 1 by omega,
        Function.iterate_succ_apply'] at hplace
      exact C.next_inj (C.iterate_mem (hhome _) _) h.mem hplace
    · rw [Function.update_of_ne hji] at hfull ⊢
      exact h.place j hj hji hfull
  step j hj hjn hnext := by
    have hji : j ≠ i := by
      rintro rfl
      exact hnext rfl
    rw [Function.update_of_ne hji]
    by_cases hnext' : C.next j = i
    · rw [hnext', Function.update_self, Bucket.nearer]
      have := h.bridge j hj hnext'
      dsimp only
      omega
    · rw [Function.update_of_ne hnext']
      exact h.step j hj hji hnext'
  bridge j hj hnext := by
    obtain rfl := C.next_inj hj h.mem hnext
    rw [Function.update_self]
    by_cases hnext' : C.next (C.next j) = j
    · rw [hnext', Function.update_self]
      exact Nat.le_add_right _ _
    · rw [Function.update_of_ne hnext', Bucket.nearer]
      have := h.step _ (C.next_mem j h.mem) hne hnext'
      dsimp only
      omega

theorem contentsBut_shift (h : Holed C home T i) (hne : C.next i ≠ i)
    (hfar : 1 < (T (C.next i)).dib) :
    contentsBut C (Function.update T i (T (C.next i)).nearer) (C.next i) = contentsBut C T i := by
  have hnext := C.next_mem i h.mem
  have hi : i ∈ C.pos.erase (C.next i) := Finset.mem_erase.2 ⟨hne.symm, h.mem⟩
  have hni : C.next i ∈ C.pos.erase i := Finset.mem_erase.2 ⟨hne, hnext⟩
  have hfull : ¬ (T (C.next i)).Empty := Nat.ne_of_gt (by omega)
  have hnear : ¬ (T (C.next i)).nearer.Empty := by
    rw [Bucket.Empty, Bucket.nearer]
    dsimp only
    omega
  rw [contentsBut, contentsBut, ← Finset.add_sum_erase _ _ hi, ← Finset.add_sum_erase _ _ hni,
    Finset.erase_right_comm, Function.update_self, Bucket.content_of_full hnear,
    Bucket.content_of_full hfull]
  refine congrArg _ (Finset.sum_congr rfl fun j hj => ?_)
  rw [Function.update_of_ne (Finset.ne_of_mem_erase (Finset.mem_of_mem_erase hj))]

/-- **The hole is closed** before an empty bucket and before an entry at home. -/
theorem Holed.close (h : Holed C home T i) (hnear : (T (C.next i)).dib ≤ 1) :
    Ordered C home (Function.update T i (T i).clear) where
  place j hj hfull := by
    by_cases hji : j = i
    · subst hji
      rw [Function.update_self] at hfull
      exact absurd rfl hfull
    · rw [Function.update_of_ne hji] at hfull ⊢
      exact h.place j hj hji hfull
  step j hj := by
    by_cases hnext : C.next j = i
    · rw [hnext, Function.update_self]
      exact Nat.zero_le _
    · rw [Function.update_of_ne hnext]
      by_cases hji : j = i
      · subst hji
        exact hnear.trans (Nat.le_add_left _ _)
      · rw [Function.update_of_ne hji]
        exact h.step j hj hji hnext

theorem contents_clear (T : ι → Bucket η α) (hi : i ∈ C.pos) :
    contents C (Function.update T i (T i).clear) = contentsBut C T i := by
  rw [contents_eq _ hi, contentsBut_update, Function.update_self, Bucket.clear_content, zero_add]

end RobinHood
