import TagAos.Hashmap.Probing
import Mathlib.Data.Finmap

/-!
# The hash map is a finite map

A client calls the functions of `hashmap.c` one after the other, on a map made by
`hashmap_new_with_allocator`.  Whatever the hash function, and whichever allocations fail, every
call ends, and its result is the one of a finite map from keys to items; only `hashmap_set` may do
nothing but say that it is out of memory.  The one thing the client must see to is that the map
never has `2 ^ 16` items.

* `WF` — the sizes belong together, the table is at most three quarters full, and the buckets are
  in order.
* `Stands` — the finite map that the buckets stand for.
* `serve_refines` — what one call does; `hashmap_refines` is about every sequence of calls.
-/

set_option autoImplicit false

namespace TagAos.Hashmap

open RobinHood

variable {α κ : Type}

/-! ## Sizes

The numbers of buckets are powers of two, so a mask can stand for a remainder. -/

/-- Doubling reaches the least power of two that is at least the capacity, or stays where it began.
-/
theorem double_spec {cap : ℕ} (fuel k : ℕ) (h : cap ≤ 2 ^ k + fuel) :
    ∃ j, k ≤ j ∧ double cap fuel (2 ^ k) = 2 ^ j ∧ cap ≤ 2 ^ j ∧ (j = k ∨ 2 ^ j < 2 * cap) := by
  induction fuel generalizing k with
  | zero => exact ⟨k, le_rfl, rfl, h, .inl rfl⟩
  | succ fuel ih =>
    rw [double]
    have hpos : 0 < 2 ^ k := Nat.two_pow_pos k
    by_cases hlt : 2 ^ k < cap
    · rw [if_pos hlt, ← Nat.pow_succ]
      have hsucc : 2 ^ (k + 1) = 2 * 2 ^ k := Nat.pow_succ'
      obtain ⟨j, hj, heq, hle, hsmall⟩ := ih (k + 1) (by omega)
      refine ⟨j, by omega, heq, hle, .inr ?_⟩
      rcases hsmall with rfl | hsmall
      · omega
      · exact hsmall
    · rw [if_neg hlt]
      exact ⟨k, le_rfl, rfl, not_lt.1 hlt, .inl rfl⟩

/-- A map is made with a power of two of buckets: the next one, from 16 on. -/
theorem roundCap_spec (cap : ℕ) :
    ∃ k, 4 ≤ k ∧ roundCap cap = 2 ^ k ∧ cap ≤ 2 ^ k ∧ (k = 4 ∨ 2 ^ k < 2 * cap) := by
  rw [roundCap]
  by_cases h : cap < 16
  · exact ⟨4, le_rfl, if_pos h, h.le, .inl rfl⟩
  · rw [if_neg h]
    exact double_spec cap 4 (by omega)

theorem roundCap_two_pow {k : ℕ} (hk : 4 ≤ k) : roundCap (2 ^ k) = 2 ^ k := by
  obtain ⟨j, -, heq, hle, hsmall⟩ := roundCap_spec (2 ^ k)
  have hkj : k ≤ j := (Nat.pow_le_pow_iff_right Nat.one_lt_two).1 hle
  rw [heq]
  rcases hsmall with rfl | hsmall
  · rw [le_antisymm hk hkj]
  · rw [← Nat.pow_succ', Nat.pow_lt_pow_iff_right Nat.one_lt_two] at hsmall
    rw [le_antisymm (Nat.lt_succ_iff.1 hsmall) hkj]

/-- The sizes of a map with `2 ^ k` buckets, of which it keeps `2 ^ j` at least. -/
structure Sizes (map : HashMap α) (k j : ℕ) : Prop where
  nbuckets : map.nbuckets = 2 ^ k
  cap : map.cap = 2 ^ j
  mask : map.mask = 2 ^ k - 1
  growat : map.growat = 2 ^ k * 3 / 4
  shrinkat : map.shrinkat = 2 ^ k / 10
  /-- The smallest table has 16 buckets. -/
  least : 4 ≤ j
  cap_le : j ≤ k
  /-- All sizes are an `int`. -/
  most : k ≤ 30

/-! ## Maps in order

The invariant of a map between two calls, and what it stands for. -/

/-- The hashes and the items in the buckets. -/
def HashMap.entries (map : HashMap α) : Multiset (UInt64 × α) :=
  ∑ i ∈ Finset.range map.nbuckets, (map.buckets i).content

variable (ops : Ops α) (key : α → κ)

/-- The map is in order. -/
structure WF (map : HashMap α) : Prop where
  sizes : ∃ k j, Sizes map k j
  count : map.count = map.entries.card
  /-- The table grows before more than three quarters of it are full. -/
  load : map.count ≤ map.growat
  /-- There are few enough items for the 16 bits of `dib`. -/
  fits : map.count < 2 ^ 16
  ordered : ∀ hm : Masks map.nbuckets map.mask, Ordered hm.circle hm.home map.buckets
  hashes : ∀ x ∈ map.entries, x.1 = getHash ops map x.2
  distinct : Distinct key map.entries

/-- The map holds the items of `m`, each under its key. -/
def Stands (map : HashMap α) (m : Finmap fun _ : κ => α) : Prop :=
  map.entries.map (fun x => (⟨key x.2, x.2⟩ : Σ _ : κ, α)) = m.entries

variable {ops} {key} {map : HashMap α} {k j : ℕ}

theorem Sizes.masks (h : Sizes map k j) : Masks map.nbuckets map.mask := by
  rw [h.nbuckets, h.mask]
  exact masks_two_pow (by have := h.least; have := h.cap_le; omega)

theorem WF.masks (h : WF ops key map) : Masks map.nbuckets map.mask := by
  obtain ⟨k, j, hs⟩ := h.sizes
  exact hs.masks

theorem entries_eq (hm : Masks map.nbuckets map.mask) :
    map.entries = contents hm.circle map.buckets := rfl

theorem WF.count_lt (h : WF ops key map) : map.count < map.nbuckets := by
  obtain ⟨k, j, hs⟩ := h.sizes
  have hload := h.load
  have hpos := Nat.two_pow_pos k
  rw [hs.growat] at hload
  rw [hs.nbuckets]
  omega

/-- Some bucket is empty, and every search comes to it within `nbuckets` rounds. -/
theorem WF.empty_ahead (h : WF ops key map) (hm : Masks map.nbuckets map.mask) {i : ℕ}
    (hi : i ∈ hm.circle.pos) :
    ∃ t < map.nbuckets, (map.buckets (hm.circle.next^[t] i)).Empty := by
  obtain ⟨p, hp, hempty⟩ := exists_empty (C := hm.circle) (T := map.buckets)
    (by rw [← entries_eq hm, ← h.count, hm.card_pos]; exact h.count_lt)
  obtain ⟨t, ht, rfl⟩ := hm.circle.reach i hi p hp
  exact ⟨t, hm.card_pos ▸ ht, hempty⟩

/-- An entry is at most as far from home as there are entries. -/
theorem WF.dib_le (h : WF ops key map) (hm : Masks map.nbuckets map.mask) {i : ℕ}
    (hi : i ∈ hm.circle.pos) : (map.buckets i).dib ≤ map.count := by
  obtain ⟨t, -, hempty⟩ := h.empty_ahead hm hi
  rw [h.count]
  exact (h.ordered hm).dib_le (hm.home_mem _) hi ⟨_, hm.circle.iterate_mem hi t, hempty⟩

/-- The bucket of an entry. -/
theorem WF.bucket_of_mem (h : WF ops key map) (hm : Masks map.nbuckets map.mask)
    {x : UInt64 × α} (hx : x ∈ map.entries) :
    ∃ i ∈ hm.circle.pos, ¬ (map.buckets i).Empty ∧ (map.buckets i).item = x.2 ∧
      (map.buckets i).hash = getHash ops map x.2 := by
  obtain ⟨i, hi, hfull, rfl⟩ := mem_contents.1 ((entries_eq hm) ▸ hx)
  exact ⟨i, hi, hfull, rfl, h.hashes _ hx⟩

/-! ## What the client sees

`hashmap_scan` calls a function of the client on the items.  What that function has done in the end
is part of the answer. -/

/-- Call `iter` on items until it returns false. -/
def visit {σ : Type} (iter : σ → α → σ × Bool) : List α → σ → σ × Bool
  | [], x => (x, true)
  | a :: as, x => if (iter x a).2 then visit iter as (iter x a).1 else ((iter x a).1, false)

/-! ## Finite maps

The number of entries of a finite map after an insertion and after a removal. -/

section Finmap

variable {m : Finmap fun _ : κ => α} {x : κ} {y z : α}

theorem Stands.card (h : Stands key map m) : m.entries.card = map.entries.card := by
  rw [← h, Multiset.card_map]

theorem Stands.distinct (h : Stands key map m) : Distinct key map.entries := by
  have hkeys := Multiset.nodup_keys.2 m.nodupKeys
  rw [← h, Multiset.keys, Multiset.map_map] at hkeys
  exact hkeys

variable [DecidableEq κ]

theorem entries_erase (h : m.lookup x = some y) :
    (⟨x, y⟩ : Σ _ : κ, α) ::ₘ (m.erase x).entries = m.entries := by
  rw [← Finmap.entries_insert_of_notMem Finmap.notMem_erase_self]
  congr 1
  refine Finmap.ext_lookup fun x' => ?_
  by_cases hx : x' = x
  · subst hx
    rw [Finmap.lookup_insert, h]
  · rw [Finmap.lookup_insert_of_ne _ hx, Finmap.lookup_erase_ne hx]

theorem entries_insert (m : Finmap fun _ : κ => α) (x : κ) (z : α) :
    (m.insert x z).entries = ⟨x, z⟩ ::ₘ (m.erase x).entries := by
  rw [← Finmap.entries_insert_of_notMem Finmap.notMem_erase_self]
  congr 1
  refine Finmap.ext_lookup fun x' => ?_
  by_cases hx : x' = x
  · subst hx
    rw [Finmap.lookup_insert, Finmap.lookup_insert]
  · rw [Finmap.lookup_insert_of_ne _ hx, Finmap.lookup_insert_of_ne _ hx,
      Finmap.lookup_erase_ne hx]

theorem entries_erase_of_none (h : m.lookup x = none) : (m.erase x).entries = m.entries := by
  congr 1
  refine Finmap.ext_lookup fun x' => ?_
  by_cases hx : x' = x
  · subst hx
    rw [Finmap.lookup_erase, h]
  · rw [Finmap.lookup_erase_ne hx]

theorem card_erase_le (m : Finmap fun _ : κ => α) (x : κ) :
    (m.erase x).entries.card ≤ m.entries.card := by
  cases h : m.lookup x with
  | none => rw [entries_erase_of_none h]
  | some y =>
    rw [← entries_erase h, Multiset.card_cons]
    exact Nat.le_succ _

theorem Stands.lookup (h : Stands key map m) :
    m.lookup x = some y ↔ ∃ hash, (hash, y) ∈ map.entries ∧ key y = x := by
  rw [Finmap.lookup_eq_some_iff, ← h, Multiset.mem_map]
  constructor
  · rintro ⟨⟨hash, y'⟩, hmem, heq⟩
    cases heq
    exact ⟨hash, hmem, rfl⟩
  · rintro ⟨hash, hmem, rfl⟩
    exact ⟨_, hmem, rfl⟩

theorem Stands.lookup_none (h : Stands key map m) (hx : m.lookup x = none) :
    ∀ y ∈ map.entries, x ≠ key y.2 := by
  rintro ⟨hash, y⟩ hmem rfl
  rw [h.lookup.2 ⟨hash, hmem, rfl⟩] at hx
  cases hx

end Finmap

/-! ## Making a map

From zeroed memory. -/

section New

variable [Inhabited α]

theorem contents_zeroed {n mask : ℕ} (hm : Masks n mask) :
    contents hm.circle (zeroed (α := α)) = 0 :=
  Finset.sum_eq_zero fun _ _ => Bucket.content_of_empty rfl

theorem ordered_zeroed {n mask : ℕ} (hm : Masks n mask) :
    Ordered hm.circle hm.home (zeroed (α := α)) :=
  ordered_of_empty fun _ _ => rfl

/-- A map whose buckets have been filled with zeros. -/
theorem wf_zeroed (hs : Sizes map k j) (hcount : map.count = 0) (hzero : map.buckets = zeroed) :
    WF ops key map ∧ map.entries = 0 := by
  have hnone : map.entries = 0 := by
    rw [entries_eq hs.masks, hzero, contents_zeroed]
  refine ⟨⟨⟨k, j, hs⟩, ?_, ?_, ?_, fun hm => ?_, ?_, ?_⟩, hnone⟩
  · rw [hcount, hnone, Multiset.card_zero]
  · rw [hcount]
    exact Nat.zero_le _
  · rw [hcount]
    exact Nat.two_pow_pos 16
  · rw [hzero]
    exact ordered_zeroed hm
  · rw [hnone]
    exact fun x hx => absurd hx (Multiset.notMem_zero x)
  · rw [hnone]
    exact Multiset.nodup_zero

/-- A new map is in order, and empty. -/
theorem hashmapNew_wf {cap : ℕ} (hcap : cap ≤ 2 ^ 30) {seed0 seed1 : UInt64} {ok : Bool × Bool}
    (h : hashmapNew ok cap seed0 seed1 = some map) : WF ops key map ∧ map.entries = 0 := by
  obtain ⟨k, hk, heq, hle, hsmall⟩ := roundCap_spec cap
  have hmost : k ≤ 30 := by
    by_contra hlt
    have h31 : 2 ^ 31 ≤ 2 ^ k := Nat.pow_le_pow_right Nat.two_pos (by omega)
    omega
  rw [hashmapNew] at h
  split at h
  · cases h
    rw [heq]
    exact wf_zeroed (k := k) (j := k) ⟨rfl, rfl, rfl, rfl, rfl, hk, le_rfl, hmost⟩ rfl rfl
  · cases h

/-! ## Resizing

A resize keeps the entries and changes nothing but the number of buckets and the thresholds that go
with it. -/

/-- **Resizing keeps the entries.** -/
theorem resize_spec (hwf : WF ops key map) (hs : Sizes map k j) {n : ℕ} (hj : j ≤ n)
    (hmost : n ≤ 30) (hroom : map.count ≤ 2 ^ n * 3 / 4) (ok : Bool × Bool) :
    (resize ok map (2 ^ n) = some (map, false) ∧ ok ≠ (true, true)) ∨
      ∃ map', resize ok map (2 ^ n) = some (map', true) ∧ WF ops key map' ∧ Sizes map' n j ∧
        map'.count = map.count ∧ map'.entries = map.entries ∧ map'.oom = map.oom := by
  have hround := roundCap_two_pow (le_trans hs.least hj)
  rw [resize, hashmapNew, hround]
  by_cases hok : ok = (true, true)
  · refine .inr ?_
    rw [hok]
    have hm' : Masks (2 ^ n) (2 ^ n - 1) :=
      masks_two_pow (by have := hs.least; omega)
    have hsum : ((List.range map.nbuckets).map fun i => (map.buckets i).content).sum =
        map.entries := rfl
    have hcard := hwf.count
    have hpos := Nat.two_pow_pos n
    obtain ⟨T, hmove, hord, hcont⟩ := moveAll_spec hm' map.buckets (List.range map.nbuckets)
      (ordered_zeroed hm')
      (by rw [hsum, contents_zeroed, zero_add, ← hcard]; omega)
      (by rw [hsum, contents_zeroed, zero_add, ← hcard]; exact hwf.fits)
    rw [hsum, contents_zeroed, zero_add] at hcont
    refine ⟨{ map with buckets := T, nbuckets := 2 ^ n, mask := 2 ^ n - 1,
                        growat := 2 ^ n * 3 / 4, shrinkat := 2 ^ n / 10 },
      by simp only [Bool.and_self, if_true, hmove, Option.map_some], ?_, ?_, rfl, hcont,
      rfl⟩
    · exact {
        sizes := ⟨n, j, rfl, hs.cap, rfl, rfl, rfl, hs.least, hj, hmost⟩
        count := hcard.trans (congrArg _ hcont.symm)
        load := hroom
        fits := hwf.fits
        ordered := fun _ => hord
        hashes := fun x hx => hwf.hashes x (hcont ▸ hx)
        distinct := by
          have hdistinct := hwf.distinct
          rwa [← hcont] at hdistinct }
    · exact ⟨rfl, hs.cap, rfl, rfl, rfl, hs.least, hj, hmost⟩
  · refine .inl ⟨?_, hok⟩
    have hfail : (ok.1 && ok.2) = false := by
      obtain ⟨ok1, ok2⟩ := ok
      cases ok1 <;> cases ok2 <;> first | rfl | exact absurd rfl hok
    rw [hfail]
    rfl

/-! ## What the functions do

One lemma for each function: what it answers, and what the map stands for afterwards. -/

variable {m : Finmap fun _ : κ => α} [DecidableEq κ]

omit [Inhabited α] [DecidableEq κ] in
/-- Items with the same key have the same hash. -/
theorem getHash_congr (hops : Respects ops key) {x y : α} (h : key x = key y) :
    getHash ops map x = getHash ops map y := by
  rw [getHash, getHash, hops.hash_eq x y _ _ h]

omit [Inhabited α] [DecidableEq κ] in
/-- The sizes do not depend on the entries. -/
theorem Sizes.with (h : Sizes map k j) (buckets : ℕ → Bucket UInt64 α) (count : ℕ) (oom : Bool) :
    Sizes { map with buckets := buckets, count := count, oom := oom } k j :=
  ⟨h.nbuckets, h.cap, h.mask, h.growat, h.shrinkat, h.least, h.cap_le, h.most⟩

omit [Inhabited α] in
/-- The insertion of a new key. -/
theorem insertItem_absent (hops : Respects ops key) (hwf : WF ops key map)
    (hm : Stands key map m) (hload : map.count < map.growat) (hfits : map.count + 1 < 2 ^ 16)
    {item : α} (hl : m.lookup (key item) = none) :
    ∃ map', insertItem ops map item = some (map', none) ∧ WF ops key map' ∧
      Stands key map' (m.insert (key item) item) ∧ map'.oom = map.oom := by
  obtain ⟨k, j, hs⟩ := hwf.sizes
  have hmask := hs.masks
  have hdistinct : Distinct key ({(getHash ops map item, item)} + map.entries) := by
    rw [Distinct, Multiset.singleton_add, Multiset.map_cons, Multiset.nodup_cons]
    refine ⟨fun hmem => ?_, hwf.distinct⟩
    obtain ⟨y, hy, heq⟩ := Multiset.mem_map.1 hmem
    exact hm.lookup_none hl y hy heq.symm
  obtain ⟨t, ht, hempty⟩ := hwf.empty_ahead hmask (hmask.home_mem (getHash ops map item))
  obtain ⟨T, hloop, hord, hcont⟩ := placeLoop_spec hmask (hwf.ordered hmask)
    (Arrives.start (e := ⟨getHash ops map item, 1, item⟩) (hmask.home_mem _) rfl) hempty ht
    (by rw [← entries_eq hmask, ← hwf.count]; exact hfits)
  have hcont : contents hmask.circle T = {(getHash ops map item, item)} + map.entries := by
    rw [hcont, add_comm]
    rfl
  rw [insertItem, setLoop_absent hmask hops (hmask.home_mem _) hdistinct, hloop]
  refine ⟨_, rfl, ?_, ?_, rfl⟩
  · exact {
      sizes := ⟨k, j, hs.with T _ _⟩
      count := by
        show map.count + 1 = (contents hmask.circle T).card
        rw [hcont, Multiset.card_add, Multiset.card_singleton, ← hwf.count, add_comm]
      load := hload
      fits := hfits
      ordered := fun _ => hord
      hashes := fun x hx => by
        have hx : x ∈ contents hmask.circle T := hx
        rw [hcont, Multiset.mem_add, Multiset.mem_singleton] at hx
        rcases hx with rfl | hx
        · rfl
        · exact hwf.hashes x hx
      distinct := by
        show Distinct key (contents hmask.circle T)
        rwa [hcont] }
  · show (contents hmask.circle T).map _ = _
    rw [hcont, Multiset.singleton_add, Multiset.map_cons, entries_insert,
      entries_erase_of_none hl, ← hm]

omit [Inhabited α] in
/-- The insertion of a key that is there. -/
theorem insertItem_present (hops : Respects ops key) (hwf : WF ops key map)
    (hm : Stands key map m) {item old : α} (hl : m.lookup (key item) = some old) :
    ∃ map', insertItem ops map item = some (map', some old) ∧ WF ops key map' ∧
      Stands key map' (m.insert (key item) item) ∧ map'.oom = map.oom := by
  obtain ⟨k, j, hs⟩ := hwf.sizes
  have hmask := hs.masks
  have hord := hwf.ordered hmask
  obtain ⟨hash, hmem, hkey⟩ := hm.lookup.1 hl
  obtain ⟨i, hi, hfull, hitem, hhash⟩ := hwf.bucket_of_mem hmask hmem
  have hitem : (map.buckets i).item = old := hitem
  have hdib := hwf.dib_le hmask hi
  have hgo : getHash ops map item = (map.buckets i).hash := by
    rw [hhash]
    exact getHash_congr hops hkey.symm
  have hfuel : (map.buckets i).dib ≤ 0 + map.nbuckets := by
    have := hwf.count_lt
    omega
  have hloop := setLoop_present hmask hops hord hwf.distinct hi hfull
    (e := ⟨getHash ops map item, 1, item⟩) (by rw [hitem]; exact hkey.symm) hgo (s := 0)
    (Nat.pos_of_ne_zero hfull) rfl hfuel (by have := hwf.fits; omega)
  rw [Function.iterate_zero_apply, ← hgo] at hloop
  have hcont : contents hmask.circle (putItem map.buckets i item) + _ = _ :=
    contents_update map.buckets hi _
  have hone : ({ map.buckets i with item := item } : Bucket UInt64 α).content =
      {((map.buckets i).hash, item)} := Bucket.content_of_full hfull
  rw [Bucket.content_of_full hfull, hone, ← entries_eq hmask, hitem] at hcont
  have hstands : (contents hmask.circle (putItem map.buckets i item)).map
      (fun x => (⟨key x.2, x.2⟩ : Σ _ : κ, α)) = (m.insert (key item) item).entries := by
    have h := congrArg (Multiset.map fun x => (⟨key x.2, x.2⟩ : Σ _ : κ, α)) hcont
    rw [Multiset.map_add, Multiset.map_add, hm, ← entries_erase hl, Multiset.map_singleton,
      Multiset.map_singleton, ← Multiset.singleton_add, add_comm {_} _, add_right_comm,
      hkey] at h
    rw [entries_insert, ← Multiset.singleton_add, add_comm]
    exact add_right_cancel h
  rw [insertItem, hloop, hitem]
  refine ⟨{ map with buckets := putItem map.buckets i item }, rfl, ?_, hstands, rfl⟩
  exact {
    sizes := ⟨k, j, hs.with _ _ _⟩
    count := by
      have h := congrArg Multiset.card hcont
      rw [Multiset.card_add, Multiset.card_add, Multiset.card_singleton,
        Multiset.card_singleton, ← hwf.count] at h
      exact (Nat.add_right_cancel h).symm
    load := hwf.load
    fits := hwf.fits
    ordered := fun _ => hord.congr
      (fun b => by by_cases hb : b = i <;> simp [putItem, hb])
      (fun b => by by_cases hb : b = i <;> simp [putItem, hb])
    hashes := fun x hx => by
      have hx : x ∈ contents hmask.circle (putItem map.buckets i item) := hx
      have hx := hcont ▸ Multiset.mem_add.2 (.inl hx)
      rw [Multiset.mem_add, Multiset.mem_singleton] at hx
      rcases hx with hx | rfl
      · exact hwf.hashes x hx
      · exact hgo.symm
    distinct := Stands.distinct (m := m.insert (key item) item) hstands }

omit [Inhabited α] in
/-- **An insertion into the table is an insertion into the map.** It returns what the map had under
the key.  The bound on the count keeps `dib` within its 16 bits. -/
theorem insertItem_spec (hops : Respects ops key) (hwf : WF ops key map) (hm : Stands key map m)
    (hload : map.count < map.growat) {item : α}
    (hfits : m.lookup (key item) = none → map.count + 1 < 2 ^ 16) :
    ∃ map', insertItem ops map item = some (map', m.lookup (key item)) ∧ WF ops key map' ∧
      Stands key map' (m.insert (key item) item) ∧ map'.oom = map.oom := by
  cases hl : m.lookup (key item) with
  | none => exact insertItem_absent hops hwf hm hload (hfits hl) hl
  | some old => exact insertItem_present hops hwf hm hl

omit [Inhabited α] [DecidableEq κ] in
/-- Forgetting that an allocation failed changes nothing else. -/
theorem WF.with_oom (h : WF ops key map) (oom : Bool) : WF ops key { map with oom := oom } := by
  obtain ⟨k, j, hs⟩ := h.sizes
  exact ⟨⟨k, j, hs.with _ _ _⟩, h.count, h.load, h.fits, h.ordered, h.hashes, h.distinct⟩

/-- **`hashmap_set`** puts the item in, or is out of memory and leaves the map as it is. -/
theorem hashmapSet_spec (hops : Respects ops key) (hwf : WF ops key map) (hm : Stands key map m)
    {item : α} (hfits : m.lookup (key item) = none → map.count + 1 < 2 ^ 16) (ok : Bool × Bool) :
    ∃ map' r, hashmapSet ops ok map item = some (map', r) ∧ WF ops key map' ∧
      (r = m.lookup (key item) ∧ map'.oom = false ∧ Stands key map' (m.insert (key item) item) ∨
        r = none ∧ map'.oom = true ∧ ok ≠ (true, true) ∧ Stands key map' m) := by
  obtain ⟨k, j, hs⟩ := hwf.sizes
  have hpos := Nat.two_pow_pos k
  have hgrowat := hs.growat
  have hwf' := hwf.with_oom false
  rw [hashmapSet]
  by_cases hgrow : map.count = map.growat
  · -- the table doubles
    have hk : k < 17 := by
      have hbound := hwf.fits
      by_contra hlt
      have h17 : 2 ^ 17 ≤ 2 ^ k := Nat.pow_le_pow_right Nat.two_pos (by omega)
      omega
    have hdouble : map.nbuckets * 2 = 2 ^ (k + 1) := by rw [hs.nbuckets, Nat.pow_succ]
    have hsucc : 2 ^ (k + 1) = 2 * 2 ^ k := Nat.pow_succ'
    rw [if_pos hgrow, hdouble]
    rcases resize_spec hwf' (hs.with _ _ false) (n := k + 1)
      (by have := hs.cap_le; omega) (by omega)
      (by show map.count ≤ _; rw [hsucc]; omega) ok with ⟨hr, hok⟩ | ⟨map', hr, h, hs', hc, he, hoom⟩
    · rw [hr]
      exact ⟨_, none, rfl, hwf'.with_oom true, .inr ⟨rfl, rfl, hok, hm⟩⟩
    · have hm' : Stands key map' m := by
        rw [Stands, he]
        exact hm
      obtain ⟨map'', hi, hwf'', hm'', hoom'⟩ := insertItem_spec hops h hm'
        (by rw [hc, hs'.growat, hsucc]; show map.count < _; omega) (by rw [hc]; exact hfits)
      rw [hr]
      exact ⟨map'', _, hi, hwf'', .inl ⟨rfl, hoom'.trans hoom, hm''⟩⟩
  · obtain ⟨map', hi, hwf'', hm', hoom⟩ := insertItem_spec hops hwf' hm
      (lt_of_le_of_ne hwf.load hgrow) hfits
    rw [if_neg hgrow]
    exact ⟨map', _, hi, hwf'', .inl ⟨rfl, hoom, hm'⟩⟩

omit [Inhabited α] in
/-- **The search** ends at the bucket of the key, if it has one. -/
theorem find_spec (hops : Respects ops key) (hwf : WF ops key map) (hm : Stands key map m)
    (x : α) :
    find ops map x = some none ∧ m.lookup (key x) = none ∨
      ∃ i ∈ Finset.range map.nbuckets, find ops map x = some (some i) ∧
        ¬ (map.buckets i).Empty ∧ m.lookup (key x) = some (map.buckets i).item := by
  have hmask := hwf.masks
  rw [find]
  cases hl : m.lookup (key x) with
  | none =>
    obtain ⟨t, ht, hempty⟩ := hwf.empty_ahead hmask (hmask.home_mem (getHash ops map x))
    exact .inl ⟨findLoop_absent hmask hops (hm.lookup_none hl) (hmask.home_mem _) hempty ht, rfl⟩
  | some y =>
    obtain ⟨hash, hmem, hkey⟩ := hm.lookup.1 hl
    obtain ⟨i, hi, hfull, hitem, hhash⟩ := hwf.bucket_of_mem hmask hmem
    have hdib := hwf.dib_le hmask hi
    have hfuel : (map.buckets i).dib ≤ 0 + map.nbuckets := by
      have := hwf.count_lt
      omega
    have hloop := findLoop_present hmask hops (hwf.ordered hmask)
      hwf.distinct hi hfull (x := x) (by rw [hitem]; exact hkey.symm) (s := 0)
      (Nat.pos_of_ne_zero hfull) hfuel
    rw [Function.iterate_zero_apply, hhash, getHash_congr hops hkey] at hloop
    exact .inr ⟨i, hi, hloop, hfull, by rw [hitem]⟩

omit [Inhabited α] in
/-- **`hashmap_get`** finds what the finite map has. -/
theorem hashmapGet_spec (hops : Respects ops key) (hwf : WF ops key map) (hm : Stands key map m)
    (x : α) : hashmapGet ops map x = some (m.lookup (key x)) := by
  rw [hashmapGet]
  rcases find_spec hops hwf hm x with ⟨hf, hl⟩ | ⟨i, -, hf, -, hl⟩
  · rw [hf, hl]
    rfl
  · rw [hf, hl]
    rfl

omit [DecidableEq κ] in
/-- **Removal** takes one entry out, whether or not the table can be made smaller. -/
theorem removeAt_spec (hwf : WF ops key map) {i : ℕ} (hi : i ∈ Finset.range map.nbuckets)
    (hfull : ¬ (map.buckets i).Empty) (ok : Bool × Bool) :
    ∃ map', removeAt ok map i = some map' ∧ WF ops key map' ∧
      map.entries = {((map.buckets i).hash, (map.buckets i).item)} + map'.entries := by
  obtain ⟨k, j, hs⟩ := hwf.sizes
  have hmask := hs.masks
  have hi : i ∈ hmask.circle.pos := hi
  have hne := hmask.next_ne hi
  obtain ⟨t, ht, hempty⟩ := hwf.empty_ahead hmask (hmask.circle.next_mem i hi)
  have hother : hmask.circle.next^[t] (hmask.circle.next i) ≠ i := by
    intro heq
    rw [heq] at hempty
    exact hfull hempty
  obtain ⟨T, hloop, hord, hcont⟩ := shiftLoop_spec hmask
    (((hwf.ordered hmask).hole hi).congr hne (map.buckets i).clear) (t := t)
    (by rwa [Function.update_of_ne hother]) hother ht
  have hentries : map.entries =
      {((map.buckets i).hash, (map.buckets i).item)} + contents hmask.circle T := by
    rw [hcont, contentsBut_update, ← Bucket.content_of_full hfull]
    exact contents_eq map.buckets hi
  have hcard := hwf.count
  rw [hentries, Multiset.card_add, Multiset.card_singleton] at hcard
  have hload := hwf.load
  have hfits := hwf.fits
  have hwf' : WF ops key { map with buckets := T, count := map.count - 1 } := by
    exact {
      sizes := ⟨k, j, hs.with _ _ _⟩
      count := by
        show map.count - 1 = (contents hmask.circle T).card
        omega
      load := by
        show map.count - 1 ≤ map.growat
        omega
      fits := by
        show map.count - 1 < 2 ^ 16
        omega
      ordered := fun _ => hord
      hashes := fun x hx => hwf.hashes x (hentries ▸ Multiset.mem_add.2 (.inr hx))
      distinct := by
        have hdistinct := hwf.distinct
        rw [hentries, Distinct, Multiset.map_add] at hdistinct
        exact (Multiset.nodup_add.1 hdistinct).2.1 }
  rw [removeAt, hloop, Option.bind_some]
  dsimp only
  by_cases hshrink : map.cap < map.nbuckets ∧ map.count - 1 ≤ map.shrinkat
  · -- the table halves, if it can
    have hjk : j < k := by
      rw [hs.cap, hs.nbuckets] at hshrink
      exact (Nat.pow_lt_pow_iff_right Nat.one_lt_two).1 hshrink.1
    have hsplit : 2 ^ k = 2 * 2 ^ (k - 1) := by
      rw [← Nat.pow_succ', show (k - 1).succ = k by omega]
    have hhalf : map.nbuckets / 2 = 2 ^ (k - 1) := by
      rw [hs.nbuckets]
      omega
    have hshrinkat := hs.shrinkat
    have hmost := hs.most
    rw [if_pos hshrink, hhalf]
    rcases resize_spec hwf' (hs.with _ _ _) (n := k - 1) (by omega) (by omega)
      (by show map.count - 1 ≤ _; omega) ok with ⟨hr, -⟩ | ⟨map', hr, h, -, -, he, -⟩
    · rw [hr]
      exact ⟨_, rfl, hwf', hentries⟩
    · rw [hr]
      exact ⟨map', rfl, h, by rw [he]; exact hentries⟩
  · rw [if_neg hshrink]
    exact ⟨_, rfl, hwf', hentries⟩

/-- **`hashmap_delete`** takes the key out. -/
theorem hashmapDelete_spec (hops : Respects ops key) (hwf : WF ops key map)
    (hm : Stands key map m) (ok : Bool × Bool) (x : α) :
    ∃ map', hashmapDelete ops ok map x = some (map', m.lookup (key x)) ∧ WF ops key map' ∧
      Stands key map' (m.erase (key x)) := by
  have hwf' := hwf.with_oom false
  rw [hashmapDelete]
  rcases find_spec hops hwf' hm x with ⟨hf, hl⟩ | ⟨i, hi, hf, hfull, hl⟩
  · rw [hf, hl]
    refine ⟨_, rfl, hwf', ?_⟩
    rw [Stands, entries_erase_of_none hl]
    exact hm
  · obtain ⟨map', hr, h, hentries⟩ := removeAt_spec hwf' hi hfull ok
    rw [hf, hl, Option.bind_some]
    dsimp only
    rw [hr]
    refine ⟨map', rfl, h, ?_⟩
    obtain ⟨hash, hmem, hkey⟩ := hm.lookup.1 hl
    have hm : map.entries.map _ = m.entries := hm
    rw [← entries_erase hl, show map.entries = _ from hentries, Multiset.map_add,
      Multiset.map_singleton, ← Multiset.singleton_add] at hm
    have hkey : key (map.buckets i).item = key x := hkey
    rw [Stands]
    refine add_left_cancel (hm.trans ?_)
    rw [hkey]

/-! ## Scanning

The order in which `hashmap_scan` visits the items is not specified; that it visits each of them
once is. -/

omit [Inhabited α] [DecidableEq κ] in
/-- `hashmap_scan` is `iter` called on the items one after the other. -/
theorem scanLoop_eq {σ : Type} (iter : σ → α → σ × Bool) (buckets : ℕ → Bucket UInt64 α)
    (is : List ℕ) (x : σ) :
    scanLoop iter buckets is x =
      visit iter ((is.filter fun i => ¬ (buckets i).Empty).map fun i => (buckets i).item) x := by
  induction is generalizing x with
  | nil => rfl
  | cons i is ih =>
    rw [scanLoop]
    by_cases hzero : (buckets i).dib = 0
    · have hempty : (buckets i).Empty := hzero
      rw [if_pos hzero, ih, List.filter_cons_of_neg (by simpa using hempty)]
    · have hfull : ¬ (buckets i).Empty := hzero
      rw [if_neg hzero, List.filter_cons_of_pos (by simpa using hfull), List.map_cons, visit]
      dsimp only
      rw [ih]

omit [Inhabited α] [DecidableEq κ] in
/-- The items of the full buckets among some. -/
theorem map_content_sum (buckets : ℕ → Bucket UInt64 α) (is : List ℕ) :
    ((is.map fun i => (buckets i).content).sum).map Prod.snd =
      ((is.filter fun i => ¬ (buckets i).Empty).map fun i => (buckets i).item : List α) := by
  induction is with
  | nil => rfl
  | cons i is ih =>
    rw [List.map_cons, List.sum_cons, Multiset.map_add, ih]
    by_cases hempty : (buckets i).Empty
    · rw [Bucket.content_of_empty hempty, List.filter_cons_of_neg (by simpa using hempty)]
      exact zero_add _
    · rw [Bucket.content_of_full hempty, List.filter_cons_of_pos (by simpa using hempty)]
      rfl

/-! ## Calls that resize nothing

How the sizes go on, for a client who knows that the thresholds are not reached. -/

omit [Inhabited α] in
theorem insertItem_sizes {map' : HashMap α} {item : α} {r : Option α}
    (h : insertItem ops map item = some (map', r)) :
    map'.nbuckets = map.nbuckets ∧ map'.cap = map.cap ∧ map'.oom = map.oom := by
  rw [insertItem, Option.map_eq_some_iff] at h
  obtain ⟨⟨buckets, r'⟩, -, h⟩ := h
  cases r' <;> cases h <;> exact ⟨rfl, rfl, rfl⟩

/-- With room for one more, `hashmap_set` is not out of memory. -/
theorem hashmapSet_sizes {map' : HashMap α} {item : α} {r : Option α} {ok : Bool × Bool}
    (h : hashmapSet ops ok map item = some (map', r)) (hroom : map.count ≠ map.growat) :
    map'.nbuckets = map.nbuckets ∧ map'.cap = map.cap ∧ map'.oom = false := by
  rw [hashmapSet] at h
  exact insertItem_sizes ((if_neg hroom).symm.trans h)

/-- A table that has not grown does not shrink. -/
theorem hashmapDelete_sizes {map' : HashMap α} {x : α} {r : Option α} {ok : Bool × Bool}
    (h : hashmapDelete ops ok map x = some (map', r)) (hcap : map.nbuckets ≤ map.cap) :
    map'.nbuckets = map.nbuckets ∧ map'.cap = map.cap := by
  rw [hashmapDelete] at h
  obtain ⟨found, -, h⟩ := Option.bind_eq_some_iff.1 h
  cases found with
  | none => cases h; exact ⟨rfl, rfl⟩
  | some i =>
    obtain ⟨map₁, hremove, heq⟩ := Option.map_eq_some_iff.1 h
    cases heq
    rw [removeAt] at hremove
    obtain ⟨buckets, -, hresize⟩ := Option.bind_eq_some_iff.1 hremove
    cases (if_neg fun hshrink => absurd hshrink.1 (not_lt.2 hcap)).symm.trans hresize
    exact ⟨rfl, rfl⟩

omit [Inhabited α] [DecidableEq κ] in
/-- **`hashmap_scan`** calls `iter` on each item once, until it returns false. -/
theorem hashmapScan_spec {σ : Type} (hm : Stands key map m) (iter : σ → α → σ × Bool) (x : σ) :
    ∃ l : List α, (l : Multiset α).map (fun y => (⟨key y, y⟩ : Σ _ : κ, α)) = m.entries ∧
      hashmapScan iter map x = visit iter l x := by
  refine ⟨_, ?_, scanLoop_eq iter map.buckets (List.range map.nbuckets) x⟩
  rw [← map_content_sum, Multiset.map_map, ← hm]
  rfl

/-! ## Every call

One request of the client, with the answer of the map and that of the finite map. -/

/-- A call of a client. -/
inductive Request (α σ : Type)
  | set (ok : Bool × Bool) (item : α)
  | get (key : α)
  | delete (ok : Bool × Bool) (key : α)
  | count
  | clear (updateCap : Bool)
  | probe (position : ℕ)
  | scan (iter : σ → α → σ × Bool) (x : σ)

/-- What it learns: an item or `NULL`, and for `hashmap_set` what `hashmap_oom` says then. -/
inductive Reply (α σ : Type)
  | stored (replaced : Option α) (oom : Bool)
  | item (x : Option α)
  | number (n : ℕ)
  | scanned (x : σ) (whole : Bool)
  | done

/-- The map and the reply after a call. -/
def serve {σ : Type} (ops : Ops α) (map : HashMap α) :
    Request α σ → Option (HashMap α × Reply α σ)
  | .set ok item => (hashmapSet ops ok map item).map fun r => (r.1, .stored r.2 r.1.oom)
  | .get key => (hashmapGet ops map key).map fun x => (map, .item x)
  | .delete ok key => (hashmapDelete ops ok map key).map fun r => (r.1, .item r.2)
  | .count => some (map, .number (hashmapCount map))
  | .clear updateCap => some (hashmapClear updateCap map, .done)
  | .probe position => some (map, .item (hashmapProbe map position))
  | .scan iter x =>
    let r := hashmapScan iter map x
    some (map, .scanned r.1 r.2)

/-- The reply that a finite map gives, and the finite map that is left. -/
inductive Answers {σ : Type} (key : α → κ) (m : Finmap fun _ : κ => α) :
    Request α σ → Reply α σ → (Finmap fun _ : κ => α) → Prop
  | set (ok : Bool × Bool) (item : α) :
      Answers key m (.set ok item) (.stored (m.lookup (key item)) false) (m.insert (key item) item)
  /-- Where an allocation fails, nothing need happen. -/
  | outOfMemory (ok : Bool × Bool) (item : α) (h : ok ≠ (true, true)) :
      Answers key m (.set ok item) (.stored none true) m
  | get (x : α) : Answers key m (.get x) (.item (m.lookup (key x))) m
  | delete (ok : Bool × Bool) (x : α) :
      Answers key m (.delete ok x) (.item (m.lookup (key x))) (m.erase (key x))
  | count : Answers key m .count (.number m.entries.card) m
  | clear (updateCap : Bool) : Answers key m (.clear updateCap) .done ∅
  /-- Which item is at a position is not said, but that it is one of the map. -/
  | probe (position : ℕ) (x : Option α) (h : ∀ y, x = some y → m.lookup (key y) = some y) :
      Answers key m (.probe position) (.item x) m
  /-- Each item is visited once, in some order. -/
  | scan (iter : σ → α → σ × Bool) (x : σ) (l : List α)
      (h : (l : Multiset α).map (fun y => (⟨key y, y⟩ : Σ _ : κ, α)) = m.entries) :
      Answers key m (.scan iter x) (.scanned (visit iter l x).1 (visit iter l x).2) m

omit [Inhabited α] in
/-- Whatever stands in a bucket is in the map. -/
theorem hashmapProbe_spec (hwf : WF ops key map) (hm : Stands key map m) (position : ℕ) {y : α}
    (h : hashmapProbe map position = some y) : m.lookup (key y) = some y := by
  have hmask := hwf.masks
  rw [hashmapProbe] at h
  split at h
  · cases h
  next hfull =>
    cases h
    have hi : position &&& map.mask ∈ hmask.circle.pos := by
      rw [hmask.and_eq]
      exact Finset.mem_range.2 (Nat.mod_lt _ (Nat.zero_lt_of_lt hmask.pos))
    exact hm.lookup.2 ⟨_, mem_contents.2 ⟨_, hi, hfull, rfl⟩, rfl⟩

omit [DecidableEq κ] in
/-- A cleared table stands for the empty map. -/
theorem hashmapClear_spec (hwf : WF ops key map) (updateCap : Bool) :
    WF ops key (hashmapClear updateCap map) ∧ Stands key (hashmapClear updateCap map) ∅ := by
  obtain ⟨k, j, hs⟩ := hwf.sizes
  obtain ⟨i, hi⟩ : ∃ i, Sizes (hashmapClear updateCap map) i i := by
    cases updateCap with
    | true =>
      refine ⟨k, ?_⟩
      rw [hashmapClear, if_pos rfl, hs.nbuckets]
      exact ⟨rfl, rfl, rfl, rfl, rfl, le_trans hs.least hs.cap_le, le_rfl, hs.most⟩
    | false =>
      refine ⟨j, ?_⟩
      rw [hashmapClear, if_neg Bool.false_ne_true, hs.cap]
      exact ⟨rfl, rfl, rfl, rfl, rfl, hs.least, le_rfl, le_trans hs.cap_le hs.most⟩
  have h : WF ops key _ ∧ _ := wf_zeroed hi rfl rfl
  refine ⟨h.1, ?_⟩
  rw [Stands, h.2]
  rfl

/-- **One call**: it ends, and it does what a finite map does. -/
theorem serve_refines {σ : Type} (hops : Respects ops key) (hwf : WF ops key map)
    (hm : Stands key map m) (req : Request α σ)
    (hfits : ∀ rep m', Answers key m req rep m' → m'.entries.card < 2 ^ 16) :
    ∃ map' rep m', serve ops map req = some (map', rep) ∧ Answers key m req rep m' ∧
      WF ops key map' ∧ Stands key map' m' := by
  cases req with
  | set ok item =>
    have hfits' : m.lookup (key item) = none → map.count + 1 < 2 ^ 16 := by
      intro hl
      have h := hfits _ _ (.set ok item)
      rwa [entries_insert, entries_erase_of_none hl, Multiset.card_cons, hm.card, ← hwf.count] at h
    obtain ⟨map', r, hr, h, ⟨rfl, hoom, hm'⟩ | ⟨rfl, hoom, hok, hm'⟩⟩ :=
      hashmapSet_spec hops hwf hm hfits' ok
    · exact ⟨map', _, _, by rw [serve, hr, Option.map_some, hoom], .set ok item, h, hm'⟩
    · exact ⟨map', _, _, by rw [serve, hr, Option.map_some, hoom], .outOfMemory ok item hok, h,
        hm'⟩
  | get x =>
    exact ⟨map, _, _, by rw [serve, hashmapGet_spec hops hwf hm]; rfl, .get x, hwf, hm⟩
  | delete ok x =>
    obtain ⟨map', hr, h, hm'⟩ := hashmapDelete_spec hops hwf hm ok x
    exact ⟨map', _, _, by rw [serve, hr]; rfl, .delete ok x, h, hm'⟩
  | count =>
    refine ⟨map, _, m, rfl, ?_, hwf, hm⟩
    rw [hashmapCount, hwf.count, ← hm.card]
    exact .count
  | clear updateCap =>
    obtain ⟨h, hm'⟩ := hashmapClear_spec hwf updateCap
    exact ⟨_, _, _, rfl, .clear updateCap, h, hm'⟩
  | probe position =>
    exact ⟨map, _, m, rfl, .probe position _ fun y hy => hashmapProbe_spec hwf hm position hy,
      hwf, hm⟩
  | scan iter x =>
    obtain ⟨l, hl, hscan⟩ := hashmapScan_spec hm iter x
    refine ⟨map, _, m, rfl, ?_, hwf, hm⟩
    rw [hscan]
    exact .scan iter x l hl

/-! ## Every sequence of calls

By induction on the requests.  The bound on the number of entries is kept because a request adds at
most one. -/

/-- The map and the replies after a sequence of calls. -/
def serveAll {σ : Type} (ops : Ops α) :
    HashMap α → List (Request α σ) → Option (HashMap α × List (Reply α σ))
  | map, [] => some (map, [])
  | map, req :: reqs =>
    (serve ops map req).bind fun r =>
      (serveAll ops r.1 reqs).map fun rs => (rs.1, r.2 :: rs.2)

/-- The replies of a finite map to a sequence of calls, and the finite map that is left. -/
inductive AnswersAll {σ : Type} (key : α → κ) :
    (Finmap fun _ : κ => α) → List (Request α σ) → List (Reply α σ) → (Finmap fun _ : κ => α) →
      Prop
  | nil (m : Finmap fun _ : κ => α) : AnswersAll key m [] [] m
  | cons {m m' m'' : Finmap fun _ : κ => α} {req : Request α σ} {rep : Reply α σ}
      {reqs : List (Request α σ)} {reps : List (Reply α σ)} (h : Answers key m req rep m')
      (rest : AnswersAll key m' reqs reps m'') : AnswersAll key m (req :: reqs) (rep :: reps) m''

/-- Whichever allocations fail, there are never `2 ^ 16` items. -/
def Small {σ : Type} (key : α → κ) (m : Finmap fun _ : κ => α) (reqs : List (Request α σ)) :
    Prop :=
  ∀ pre reps m', pre <+: reqs → AnswersAll key m pre reps m' → m'.entries.card < 2 ^ 16

/-- **Any sequence of requests is served as by the map**, by induction on the sequence.  Each
request keeps the invariant and the map it stands for, and answers as the map would. -/
theorem serveAll_refines {σ : Type} (hops : Respects ops key) (hwf : WF ops key map)
    (hm : Stands key map m) (reqs : List (Request α σ)) (hsmall : Small key m reqs) :
    ∃ map' reps m', serveAll ops map reqs = some (map', reps) ∧ AnswersAll key m reqs reps m' ∧
      WF ops key map' ∧ Stands key map' m' := by
  induction reqs generalizing map m with
  | nil => exact ⟨map, [], m, rfl, .nil m, hwf, hm⟩
  | cons req reqs ih =>
    obtain ⟨map', rep, m', hserve, hanswer, hwf', hm'⟩ := serve_refines hops hwf hm req
      fun rep m' h => hsmall [req] [rep] m' ⟨reqs, rfl⟩ (.cons h (.nil m'))
    obtain ⟨map'', reps, m'', hrest, hanswers, hwf'', hm''⟩ := ih hwf' hm'
      fun pre reps m'' hpre h => hsmall (req :: pre) (rep :: reps) m''
        ((List.prefix_cons_inj req).2 hpre) (.cons hanswer h)
    refine ⟨map'', rep :: reps, m'', ?_, .cons hanswer hanswers, hwf'', hm''⟩
    rw [serveAll, hserve, Option.bind_some, hrest, Option.map_some]

omit [Inhabited α] in
/-- A call adds one item at most. -/
theorem Answers.card_le {σ : Type} {req : Request α σ} {rep : Reply α σ}
    {m' : Finmap fun _ : κ => α} (h : Answers key m req rep m') :
    m'.entries.card ≤ m.entries.card + 1 := by
  cases h with
  | set ok item =>
    rw [entries_insert, Multiset.card_cons]
    exact Nat.succ_le_succ (card_erase_le m _)
  | delete ok x => exact Nat.le_succ_of_le (card_erase_le m _)
  | clear updateCap => exact Nat.zero_le _
  | outOfMemory | get | count | probe | scan => exact Nat.le_succ _

omit [Inhabited α] in
/-- A request adds one key at most. -/
theorem AnswersAll.card_le {σ : Type} {reqs : List (Request α σ)} {reps : List (Reply α σ)}
    {m' : Finmap fun _ : κ => α} (h : AnswersAll key m reqs reps m') :
    m'.entries.card ≤ m.entries.card + reqs.length := by
  induction h with
  | nil m => exact le_rfl
  | cons h rest ih =>
    have hstep := h.card_le
    rw [List.length_cons]
    omega

omit [Inhabited α] in
/-- Fewer than `2 ^ 16` calls cannot bring `2 ^ 16` items. -/
theorem small_of_length {σ : Type} {reqs : List (Request α σ)}
    (h : m.entries.card + reqs.length < 2 ^ 16) : Small key m reqs := by
  intro pre reps m' hpre hanswers
  have hcard := hanswers.card_le
  have hlength := hpre.length_le
  omega

/-- **The hash map is a finite map.**  On a new map, whatever its capacity, its seeds and its hash
function, every sequence of calls that never has `2 ^ 16` items in it comes to its end, and the
replies are those of a finite map that is empty at first. -/
theorem hashmap_refines {σ : Type} (hops : Respects ops key) {ok : Bool × Bool} {cap : ℕ}
    (hcap : cap ≤ 2 ^ 30) {seed0 seed1 : UInt64} (hnew : hashmapNew ok cap seed0 seed1 = some map)
    {reqs : List (Request α σ)} (hsmall : Small key ∅ reqs) :
    ∃ map' reps m', serveAll ops map reqs = some (map', reps) ∧ AnswersAll key ∅ reqs reps m' ∧
      Stands key map' m' := by
  obtain ⟨hwf, hnone⟩ : WF ops key map ∧ map.entries = 0 := hashmapNew_wf hcap hnew
  have hempty : Stands key map ∅ := by
    rw [Stands, hnone]
    rfl
  obtain ⟨map', reps, m', hserve, hanswers, -, hm'⟩ := serveAll_refines hops hwf hempty reqs hsmall
  exact ⟨map', reps, m', hserve, hanswers, hm'⟩

end New

/-- Pairs of a key and a value, all with one hash. -/
def pairOps : Ops (ℕ × ℕ) where
  hash _ seed0 _ := seed0
  compare x y := (x.1 : ℤ) - y.1

theorem pairOps_respects : Respects pairOps Prod.fst :=
  ⟨fun x y => by rw [pairOps, sub_eq_zero, Int.natCast_inj], fun _ _ _ _ _ => rfl⟩

/-- All keys collide, and the table answers as the map does. -/
theorem hashmap_refines_oneHash :
    ∃ map' reps m',
      ((hashmapNew (true, true) 20 7 9).bind fun map => serveAll pairOps map
        [.set (true, true) (1, 10), .set (true, true) (2, 20), .set (true, true) (1, 30),
          .delete (true, true) (1, 0), .get (1, 0), .scan (fun n x => (n + x.2, true)) 0]) =
        some (map', reps) ∧
      AnswersAll Prod.fst ∅
        [.set (true, true) (1, 10), .set (true, true) (2, 20), .set (true, true) (1, 30),
          .delete (true, true) (1, 0), .get (1, 0), .scan (fun n x => (n + x.2, true)) 0] reps m' ∧
      Stands Prod.fst map' m' :=
  hashmap_refines pairOps_respects (show 20 ≤ 2 ^ 30 by decide)
    (show hashmapNew (true, true) 20 7 9 = some _ from rfl) (small_of_length (by decide))

end TagAos.Hashmap
