import TagAos.Hashmap.Map

/-!
# The loops of the hash map

Each loop of `hashmap.c` over buckets makes moves of `TagAos.RobinHood.Table` until it comes to an
empty bucket.  There is one, so `nbuckets` rounds are enough, and as long as there are fewer than
`2 ^ 16` entries a `dib` never overflows.

* `placeLoop_spec` — the loop of `resize` puts an entry into the table.
* `setLoop_absent`, `setLoop_present` — the loop of `hashmap_set` does the same if the key is new,
  and otherwise finds the entry of the key before it has moved any other.
* `findLoop_present`, `findLoop_absent` — a search finds what is there.
* `shiftLoop_spec` — a removal takes one entry out.
-/

set_option autoImplicit false

namespace TagAos.Hashmap

open RobinHood

/-- `mask` cuts a number down to the buckets of a table of `n`. -/
structure Masks (n mask : ℕ) : Prop where
  pos : 1 < n
  and_eq : ∀ x, x &&& mask = x % n

theorem masks_two_pow {k : ℕ} (hk : k ≠ 0) : Masks (2 ^ k) (2 ^ k - 1) where
  pos := Nat.one_lt_two_pow hk
  and_eq x := Nat.and_two_pow_sub_one_eq_mod x k

namespace Masks

variable {n mask : ℕ} (hm : Masks n mask)

/-- The buckets of the table. -/
def circle : Circle ℕ := Circle.mod n (Nat.zero_lt_of_lt hm.pos)

/-- Where the search for a hash begins. -/
abbrev home (_ : Masks n mask) (hash : UInt64) : ℕ := first hash mask

theorem card_pos : hm.circle.pos.card = n := Finset.card_range n

theorem home_mem (hash : UInt64) : hm.home hash ∈ hm.circle.pos := by
  rw [home, first, hm.and_eq]
  exact Finset.mem_range.2 (Nat.mod_lt _ (Nat.zero_lt_of_lt hm.pos))

theorem after_eq (i : ℕ) : after i mask = hm.circle.next i := hm.and_eq (i + 1)

theorem next_ne {i : ℕ} (hi : i ∈ hm.circle.pos) : hm.circle.next i ≠ i := by
  have hi : i < n := Finset.mem_range.1 hi
  have hpos := hm.pos
  show (i + 1) % n ≠ i
  rcases Nat.lt_or_ge (i + 1) n with h | h
  · rw [Nat.mod_eq_of_lt h]
    omega
  · rw [show i + 1 = n by omega, Nat.mod_self]
    omega

end Masks

variable {α : Type} {n mask : ℕ} (hm : Masks n mask) {T : ℕ → Bucket UInt64 α}
  {e : Bucket UInt64 α} {i t fuel : ℕ}

theorem moved_eq (h : e.dib + 1 < 2 ^ 16) : moved e = e.further := by
  rw [moved, Nat.mod_eq_of_lt h, Bucket.further]

/-- An entry that takes the bucket of another leaves the number of entries as it is. -/
theorem card_contents_update (hi : i ∈ hm.circle.pos) (hfull : ¬ (T i).Empty) (he : ¬ e.Empty) :
    (contents hm.circle (Function.update T i e)).card = (contents hm.circle T).card := by
  have h := congrArg Multiset.card (contents_update T hi e)
  rw [Multiset.card_add, Multiset.card_add, Bucket.card_content, Bucket.card_content, if_neg hfull,
    if_neg he] at h
  exact Nat.add_right_cancel h

/-- The way to an empty bucket gets shorter, and what is done to the full ones does not matter. -/
theorem empty_ahead (hempty : (T (hm.circle.next^[t] i)).Empty) (hfull : ¬ (T i).Empty)
    (e : Bucket UInt64 α) : ∃ s, t = s + 1 ∧ (T (hm.circle.next^[s] (hm.circle.next i))).Empty ∧
      (Function.update T i e (hm.circle.next^[s] (hm.circle.next i))).Empty := by
  cases t with
  | zero => exact absurd hempty hfull
  | succ s =>
    rw [Function.iterate_succ_apply] at hempty
    refine ⟨s, rfl, hempty, ?_⟩
    rwa [Function.update_of_ne]
    intro heq
    rw [heq] at hempty
    exact hfull hempty

/-! ## Insertion

The loops of `resize` and of `hashmap_set`.  An entry that is further from home than the one in a
bucket takes the bucket, and the loop goes on with the entry that was there. -/

/-- **An entry finds a bucket** before the first empty one has been passed. -/
theorem placeLoop_spec (h : Ordered hm.circle hm.home T) (ha : Arrives hm.circle hm.home T i e)
    (hempty : (T (hm.circle.next^[t] i)).Empty) (ht : t < fuel)
    (hfit : (contents hm.circle T).card + 1 < 2 ^ 16) :
    ∃ T', placeLoop mask fuel T e i = some T' ∧ Ordered hm.circle hm.home T' ∧
      contents hm.circle T' = contents hm.circle T + e.content := by
  induction fuel generalizing T e i t with
  | zero => exact absurd ht (Nat.not_lt_zero t)
  | succ fuel ih =>
    have hupdate := contents_update T ha.mem e
    rw [placeLoop]
    by_cases hzero : (T i).dib = 0
    · have hnone : (T i).content = 0 := Bucket.content_of_empty hzero
      rw [if_pos hzero]
      rw [hnone, add_zero] at hupdate
      exact ⟨_, rfl, h.put ha (hzero.trans_le (Nat.zero_le _)), hupdate⟩
    · have hfull : ¬ (T i).Empty := hzero
      rw [if_neg hzero, hm.after_eq]
      obtain ⟨s, rfl, hs, hs'⟩ := empty_ahead hm hempty hfull e
      have hdib : (T i).dib ≤ (contents hm.circle T).card :=
        h.dib_le (hm.home_mem _) ha.mem ⟨_, hm.circle.iterate_mem (hm.circle.next_mem i ha.mem) s, hs⟩
      by_cases hlt : (T i).dib < e.dib
      · -- the entry takes the bucket, and the one it finds there goes on
        rw [if_pos hlt, moved_eq (by omega)]
        obtain ⟨T', hloop, hord, hcont⟩ := ih (h.put ha hlt.le) (ha.evict h hfull hlt.le) hs'
          (by omega) (by rwa [card_contents_update hm ha.mem hfull ha.full])
        exact ⟨T', hloop, hord, by rw [hcont, Bucket.further_content hfull, hupdate]⟩
      · rw [if_neg hlt, moved_eq (by omega)]
        obtain ⟨T', hloop, hord, hcont⟩ := ih h (ha.pass (not_lt.1 hlt)) hs (by omega) hfit
        exact ⟨T', hloop, hord, by rw [hcont, Bucket.further_content ha.full]⟩

/-- What the caller relies on when it makes a map: items are compared by their keys, and the hash
depends on nothing else. -/
structure Respects {κ : Type} (ops : Ops α) (key : α → κ) : Prop where
  compare_eq : ∀ x y, ops.compare x y = 0 ↔ key x = key y
  hash_eq : ∀ x y seed0 seed1, key x = key y → ops.hash x seed0 seed1 = ops.hash y seed0 seed1

variable {κ : Type} {ops : Ops α} {key : α → κ}

/-- No key is there twice. -/
def Distinct (key : α → κ) (s : Multiset (UInt64 × α)) : Prop := (s.map fun x => key x.2).Nodup

/-- **The loop of `hashmap_set` for a new key** is that of `resize`. -/
theorem setLoop_absent (hops : Respects ops key) (hi : i ∈ hm.circle.pos)
    (hdistinct : Distinct key ({(e.hash, e.item)} + contents hm.circle T)) (fuel : ℕ) :
    setLoop ops mask fuel T e i = (placeLoop mask fuel T e i).map fun T' => (T', none) := by
  induction fuel generalizing T e i with
  | zero => rfl
  | succ fuel ih =>
    rw [setLoop, placeLoop, hm.after_eq]
    by_cases hzero : (T i).dib = 0
    · rw [if_pos hzero, if_pos hzero]
      rfl
    · have hfull : ¬ (T i).Empty := hzero
      have hnext := hm.circle.next_mem i hi
      have hnew : ¬ (e.hash = (T i).hash ∧ ops.compare e.item (T i).item = 0) := by
        rintro ⟨-, hcompare⟩
        rw [Distinct, Multiset.singleton_add, Multiset.map_cons, Multiset.nodup_cons] at hdistinct
        refine hdistinct.1 (Multiset.mem_map.2 ⟨_, mem_contents.2 ⟨i, hi, hfull, rfl⟩, ?_⟩)
        exact ((hops.compare_eq _ _).1 hcompare).symm
      rw [if_neg hzero, if_neg hzero, if_neg hnew]
      by_cases hlt : (T i).dib < e.dib
      · rw [if_pos hlt, if_pos hlt]
        refine ih hnext ?_
        have hcontent : e.content = {(e.hash, e.item)} :=
          Bucket.content_of_full (Nat.ne_of_gt (Nat.zero_lt_of_lt hlt))
        have hupdate := contents_update T hi e
        rw [Bucket.content_of_full hfull, hcontent, add_comm, add_comm _ {(e.hash, e.item)}]
          at hupdate
        rwa [← hupdate] at hdistinct
      · rw [if_neg hlt, if_neg hlt]
        exact ih hnext hdistinct

/-- The entry of a key is where its chain ends. -/
theorem chain_end (h : Ordered hm.circle hm.home T) {j : ℕ} (hj : j ∈ hm.circle.pos)
    (hfull : ¬ (T j).Empty) {s : ℕ} (hs : s < (T j).dib)
    (hne : hm.circle.next^[s] (hm.home (T j).hash) ≠ j) : s + 1 < (T j).dib := by
  by_contra hlt
  refine hne ?_
  rw [show s = (T j).dib - 1 by omega]
  exact h.place j hj hfull

/-- The buckets after the item in one of them has been replaced. -/
def putItem (T : ℕ → Bucket UInt64 α) (j : ℕ) (item : α) : ℕ → Bucket UInt64 α :=
  Function.update T j { T j with item := item }

/-- **The loop of `hashmap_set` for a key that is there** replaces the item: no entry on the way is
nearer to its home than the new one would be, so that none is moved. -/
theorem setLoop_present (hops : Respects ops key) (h : Ordered hm.circle hm.home T)
    (hdistinct : Distinct key (contents hm.circle T)) {j : ℕ} (hj : j ∈ hm.circle.pos)
    (hfull : ¬ (T j).Empty) (hkey : key e.item = key (T j).item) (hhash : e.hash = (T j).hash)
    {s : ℕ} (hs : s < (T j).dib) (he : e.dib = s + 1) (hfuel : (T j).dib ≤ s + fuel)
    (hfit : (T j).dib < 2 ^ 16) :
    setLoop ops mask fuel T e (hm.circle.next^[s] (hm.home (T j).hash)) =
      some (putItem T j e.item, some (T j).item) := by
  induction fuel generalizing e s with
  | zero => omega
  | succ fuel ih =>
    have hmem := hm.circle.iterate_mem (hm.home_mem (T j).hash) s
    have hchain := h.chain (hm.home_mem _) hj hfull hs
    rw [setLoop, hm.after_eq, ← Function.iterate_succ_apply' hm.circle.next]
    generalize hi : hm.circle.next^[s] (hm.home (T j).hash) = i at hmem hchain
    rw [if_neg (by omega)]
    by_cases hmatch : e.hash = (T i).hash ∧ ops.compare e.item (T i).item = 0
    · have hsame : key (T i).item = key (T j).item :=
        ((hops.compare_eq _ _).1 hmatch.2).symm.trans hkey
      obtain rfl := eq_of_key hdistinct hmem hj (Nat.ne_of_gt (by omega)) hfull hsame
      rw [if_pos hmatch, putItem]
    · have hij : i ≠ j := by
        rintro rfl
        exact hmatch ⟨hhash, (hops.compare_eq _ _).2 hkey⟩
      have hs' := chain_end hm h hj hfull hs (hi ▸ hij)
      have hmoved : moved e = e.further := moved_eq (by omega)
      rw [if_neg hmatch, if_neg (by omega), hmoved]
      exact ih (e := e.further) hkey hhash hs' (by rw [Bucket.further, he]) (by omega)

/-! ## Search

By the order of the table: an entry is found before an empty bucket is. -/

/-- **A search finds the bucket of the key.** -/
theorem findLoop_present (hops : Respects ops key) (h : Ordered hm.circle hm.home T)
    (hdistinct : Distinct key (contents hm.circle T)) {j : ℕ} (hj : j ∈ hm.circle.pos)
    (hfull : ¬ (T j).Empty) {x : α} (hkey : key x = key (T j).item) {s : ℕ} (hs : s < (T j).dib)
    (hfuel : (T j).dib ≤ s + fuel) :
    findLoop ops mask T (T j).hash x fuel (hm.circle.next^[s] (hm.home (T j).hash)) =
      some (some j) := by
  induction fuel generalizing s with
  | zero => omega
  | succ fuel ih =>
    have hmem := hm.circle.iterate_mem (hm.home_mem (T j).hash) s
    have hchain := h.chain (hm.home_mem _) hj hfull hs
    rw [findLoop, hm.after_eq, ← Function.iterate_succ_apply' hm.circle.next]
    generalize hi : hm.circle.next^[s] (hm.home (T j).hash) = i at hmem hchain
    rw [if_neg (by omega)]
    by_cases hmatch : (T i).hash = (T j).hash ∧ ops.compare x (T i).item = 0
    · have hsame : key (T i).item = key (T j).item :=
        ((hops.compare_eq _ _).1 hmatch.2).symm.trans hkey
      obtain rfl := eq_of_key hdistinct hmem hj (Nat.ne_of_gt (by omega)) hfull hsame
      rw [if_pos hmatch]
    · have hij : i ≠ j := by
        rintro rfl
        exact hmatch ⟨rfl, (hops.compare_eq _ _).2 hkey⟩
      rw [if_neg hmatch]
      exact ih (chain_end hm h hj hfull hs (hi ▸ hij)) (by omega)

/-- A search for a key that is not there ends at an empty bucket. -/
theorem findLoop_absent (hops : Respects ops key) {hash : UInt64} {x : α}
    (hnew : ∀ y ∈ contents hm.circle T, key x ≠ key y.2) (hi : i ∈ hm.circle.pos)
    (hempty : (T (hm.circle.next^[t] i)).Empty) (ht : t < fuel) :
    findLoop ops mask T hash x fuel i = some none := by
  induction fuel generalizing i t with
  | zero => exact absurd ht (Nat.not_lt_zero t)
  | succ fuel ih =>
    rw [findLoop, hm.after_eq]
    by_cases hzero : (T i).dib = 0
    · rw [if_pos hzero]
    · have hfull : ¬ (T i).Empty := hzero
      have hne : ¬ ((T i).hash = hash ∧ ops.compare x (T i).item = 0) := fun hmatch =>
        hnew _ (mem_contents.2 ⟨i, hi, hfull, rfl⟩) ((hops.compare_eq _ _).1 hmatch.2)
      obtain ⟨s, rfl, hs, -⟩ := empty_ahead hm hempty hfull (T i)
      rw [if_neg hzero, if_neg hne]
      exact ih (hm.circle.next_mem i hi) hs (by omega)

/-! ## Removal

The entries behind a hole move back one by one, until one is at home. -/

/-- **The hole moves on** until it can be closed. -/
theorem shiftLoop_spec (h : Holed hm.circle hm.home T i)
    (hempty : (T (hm.circle.next^[t] (hm.circle.next i))).Empty)
    (hother : hm.circle.next^[t] (hm.circle.next i) ≠ i) (ht : t < fuel) :
    ∃ T', shiftLoop mask fuel T i = some T' ∧ Ordered hm.circle hm.home T' ∧
      contents hm.circle T' = contentsBut hm.circle T i := by
  induction fuel generalizing T i t with
  | zero => exact absurd ht (Nat.not_lt_zero t)
  | succ fuel ih =>
    rw [shiftLoop, hm.after_eq]
    by_cases hnear : (T (hm.circle.next i)).dib ≤ 1
    · rw [if_pos hnear]
      exact ⟨_, rfl, h.close hnear, contents_clear T h.mem⟩
    · have hfar := not_le.1 hnear
      have hne := hm.next_ne h.mem
      have hfull : ¬ (T (hm.circle.next i)).Empty := Nat.ne_of_gt (by omega)
      obtain ⟨s, rfl, hs, -⟩ := empty_ahead hm hempty hfull (T i)
      rw [Function.iterate_succ_apply] at hother
      rw [if_neg hnear]
      obtain ⟨T', hloop, hord, hcont⟩ := ih (h.shift hm.home_mem hne hfar) (t := s)
        (by rwa [Function.update_of_ne hother]) (fun heq => hfull (heq ▸ hs)) (by omega)
      exact ⟨T', hloop, hord, by rw [hcont, contentsBut_shift h hne hfar]⟩

/-! ## Resizing

Every entry of the old table is placed in the new one, which is not full. -/

/-- **A table is moved into another** that has room for it. -/
theorem moveAll_spec (old : ℕ → Bucket UInt64 α) (is : List ℕ)
    (h : Ordered hm.circle hm.home T)
    (hroom : (contents hm.circle T + (is.map fun i => (old i).content).sum).card ≤ n)
    (hfit : (contents hm.circle T + (is.map fun i => (old i).content).sum).card < 2 ^ 16) :
    ∃ T', moveAll mask n old is T = some T' ∧ Ordered hm.circle hm.home T' ∧
      contents hm.circle T' = contents hm.circle T + (is.map fun i => (old i).content).sum := by
  induction is generalizing T with
  | nil => exact ⟨T, rfl, h, (add_zero _).symm⟩
  | cons i is ih =>
    rw [List.map_cons, List.sum_cons] at hroom hfit ⊢
    rw [moveAll]
    by_cases hzero : (old i).dib = 0
    · have hnone : (old i).content = 0 := Bucket.content_of_empty hzero
      rw [hnone, zero_add] at hroom hfit ⊢
      rw [if_pos hzero]
      exact ih h hroom hfit
    · have hcontent : (old i).content = {((old i).hash, (old i).item)} :=
        Bucket.content_of_full hzero
      rw [hcontent, Multiset.card_add, Multiset.card_add, Multiset.card_singleton] at hroom hfit
      obtain ⟨p, hp, hempty⟩ := exists_empty (C := hm.circle) (T := T)
        (by rw [hm.card_pos]; omega)
      obtain ⟨t, ht, rfl⟩ := hm.circle.reach _ (hm.home_mem (old i).hash) p hp
      rw [hm.card_pos] at ht
      obtain ⟨T₁, hloop, hord, hcont⟩ := placeLoop_spec hm h
        (Arrives.start (e := { old i with dib := 1 }) (hm.home_mem _) rfl) hempty ht (by omega)
      have hone : ({ old i with dib := 1 } : Bucket UInt64 α).content = (old i).content :=
        hcontent.symm
      have hcont' : contents hm.circle T₁ = contents hm.circle T + (old i).content := by
        rw [hcont, hone]
      obtain ⟨T', hrest, hord', hcont''⟩ := ih hord
        (by rw [hcont', hcontent, Multiset.card_add, Multiset.card_add, Multiset.card_singleton]
            omega)
        (by rw [hcont', hcontent, Multiset.card_add, Multiset.card_add, Multiset.card_singleton]
            omega)
      rw [if_neg hzero, hloop, Option.bind_some]
      exact ⟨T', hrest, hord', by rw [hcont'', hcont', add_assoc]⟩

end TagAos.Hashmap
