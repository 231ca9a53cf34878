import TagAos.Syscall.Discovery

/-!
# What the scan reads

`syscall_table_pattern` reads the words of a table at every byte of a page.  Where the last word
begins on the next page it looks whether that page is mapped; the seven places at which the last
word begins on the page and ends on the next one it reads without looking.

* `tableReads` — the words that the scan of a page reads, up to its end or to a fault;
  `tablePattern_isSome_iff` ties it to the scan.
* `Pattern` — the words at a place look like those of the table; `patternAt_eq_some_iff` and
  `patternAt_eq_none_iff` say in words of the memory what the tests at one place come to.
* `Exposed` — the scan gets to one of the seven places, its first tests succeed there, and the next
  page is not mapped.
* `scan_reads_mapped_iff` — the scan reads from mapped pages only, unless it is exposed.
-/

set_option autoImplicit false

namespace TagAos.Syscall

open Bytes

variable (p : Paging)

/-! ## The words that are read

The reads of the scan as a list of addresses, in their order.  The list is computed next to the scan
and is about nothing but the addresses. -/

/-- The words at the indices `ks`, up to the first that faults. -/
def readWords (offs : ℕ) : List ℕ → List ℕ
  | [] => []
  | k :: ks =>
    word offs k :: if Mapped (translate p) (word offs k) then readWords offs ks else []

/-- The test of the first entry. -/
def Passes (firstNi : Word) : Prop :=
  firstNi &&& 0x3 = 0 ∧ firstNi ≠ 0 ∧ startAddr < firstNi.toNat

instance (w : Word) : Decidable (Passes w) := inferInstanceAs (Decidable (_ ∧ _))

/-- The words that `patternAt` reads. -/
def patternReads (m : Memory) (offs : ℕ) : List ℕ :=
  word offs niFirst ::
    match load (translate p) m (word offs niFirst) with
    | none => []
    | some firstNi =>
      if Passes firstNi then
        readWords p offs niOthers ++
          match niOthers.mapM fun k => load (translate p) m (word offs k) with
          | none => []
          | some entries =>
            if entries.any (· ≠ firstNi) then [] else readWords p offs (List.range' 1 (niFirst - 1))
      else []

/-- The last word is on the next page, and that page is not mapped. -/
def Guarded (offs : ℕ) : Prop :=
  (offs &&& pageBitmask) + pageSize = word offs niLast &&& pageBitmask ∧
    getPhysFrame p (word offs niLast) = noFrame

instance (offs : ℕ) : Decidable (Guarded p offs) := inferInstanceAs (Decidable (_ ∧ _))

/-- The words that `tablePattern` reads. -/
def tableReads (m : Memory) : ℕ → ℕ → List ℕ
  | 0, _ => []
  | n + 1, offs =>
    if Guarded p offs then []
    else
      patternReads p m offs ++
        match patternAt p m offs with
        | some none => tableReads m n (offs + 1)
        | _ => []

variable {p} {m : Memory} {offs : ℕ}

/-! ### They are the words that may fault

So the list is the right one: the scan faults if and only if one of its words is not mapped. -/

theorem load_isSome_iff {a : ℕ} :
    (load (translate p) m a).isSome ↔ Mapped (translate p) a := by
  rw [load]
  split_ifs with h <;> simp [h]

theorem mapM_isSome_iff {ks : List ℕ} :
    (ks.mapM fun k => load (translate p) m (word offs k)).isSome ↔
      ∀ k ∈ ks, Mapped (translate p) (word offs k) := by
  induction ks with
  | nil => exact iff_of_true rfl (List.forall_mem_nil _)
  | cons k ks ih =>
    rw [List.mapM_cons, List.forall_mem_cons, ← ih, ← load_isSome_iff (m := m)]
    cases load (translate p) m (word offs k) with
    | none => exact iff_of_false nofun fun h => nomatch h.1
    | some w =>
      cases ks.mapM fun k => load (translate p) m (word offs k) with
      | none => exact iff_of_false nofun fun h => nomatch h.2
      | some ws => exact iff_of_true rfl ⟨rfl, rfl⟩

theorem readWords_mapped_iff {ks : List ℕ} :
    (∀ a ∈ readWords p offs ks, Mapped (translate p) a) ↔
      ∀ k ∈ ks, Mapped (translate p) (word offs k) := by
  induction ks with
  | nil => exact iff_of_true (List.forall_mem_nil _) (List.forall_mem_nil _)
  | cons k ks ih =>
    rw [readWords, List.forall_mem_cons, List.forall_mem_cons]
    refine and_congr_right fun hk => ?_
    rw [if_pos hk, ih]

theorem patternAt_isSome_iff :
    (patternAt p m offs).isSome ↔ ∀ a ∈ patternReads p m offs, Mapped (translate p) a := by
  rw [patternReads, List.forall_mem_cons, patternAt, ← load_isSome_iff (m := m)]
  cases load (translate p) m (word offs niFirst) with
  | none => exact iff_of_false Bool.false_ne_true fun h => Bool.false_ne_true h.1
  | some firstNi =>
    simp only [Option.bind_eq_bind, Option.bind_some, Option.isSome_some, true_and]
    by_cases hpass : firstNi &&& 0x3 = 0 ∧ firstNi ≠ 0 ∧ startAddr < firstNi.toNat
    · rw [if_pos hpass, if_pos (show Passes firstNi from hpass), List.forall_mem_append,
        readWords_mapped_iff, ← mapM_isSome_iff (m := m)]
      cases niOthers.mapM fun k => load (translate p) m (word offs k) with
      | none => exact iff_of_false Bool.false_ne_true fun h => Bool.false_ne_true h.1
      | some entries =>
        simp only [Option.bind_some, Option.isSome_some, true_and]
        by_cases hany : entries.any (· ≠ firstNi)
        · rw [if_pos hany, if_pos hany]
          exact iff_of_true rfl (List.forall_mem_nil _)
        · rw [if_neg hany, if_neg hany, readWords_mapped_iff, ← mapM_isSome_iff (m := m)]
          cases (List.range' 1 (niFirst - 1)).mapM fun k => load (translate p) m (word offs k) with
          | none => exact iff_of_false Bool.false_ne_true Bool.false_ne_true
          | some before =>
            simp only [Option.bind_some]
            refine iff_of_true ?_ rfl
            split_ifs <;> rfl
    · rw [if_neg hpass, if_neg (show ¬ Passes firstNi from hpass)]
      exact iff_of_true rfl (List.forall_mem_nil _)

/-- **The scan ends without a fault if and only if the words that it reads are mapped.** -/
theorem tablePattern_isSome_iff {n : ℕ} :
    (tablePattern p m n offs).isSome ↔ ∀ a ∈ tableReads p m n offs, Mapped (translate p) a := by
  induction n generalizing offs with
  | zero => exact iff_of_true rfl (List.forall_mem_nil _)
  | succ n ih =>
    rw [tablePattern, tableReads]
    by_cases hguard : (offs &&& pageBitmask) + pageSize = word offs niLast &&& pageBitmask ∧
        getPhysFrame p (word offs niLast) = noFrame
    · rw [if_pos hguard, if_pos (show Guarded p offs from hguard)]
      exact iff_of_true rfl (List.forall_mem_nil _)
    · rw [if_neg hguard, if_neg (show ¬ Guarded p offs from hguard), List.forall_mem_append,
        ← patternAt_isSome_iff]
      cases patternAt p m offs with
      | none => exact iff_of_false Bool.false_ne_true fun h => Bool.false_ne_true h.1
      | some r =>
        cases r with
        | some t => exact iff_of_true rfl ⟨rfl, List.forall_mem_nil _⟩
        | none => exact ih.trans (and_iff_right rfl).symm

/-! ### Which words they are

The words of the places that the scan gets to, as far as the tests there go. -/

/-- The scan of a page gets to its place `j`. -/
structure Reached (p : Paging) (m : Memory) (offs j : ℕ) : Prop where
  unguarded : ∀ i ≤ j, ¬ Guarded p (offs + i)
  failed : ∀ i < j, patternAt p m (offs + i) = some none

theorem mem_tableReads {n a : ℕ} :
    a ∈ tableReads p m n offs ↔
      ∃ j < n, Reached p m offs j ∧ a ∈ patternReads p m (offs + j) := by
  induction n generalizing offs with
  | zero => exact iff_of_false List.not_mem_nil fun ⟨j, hj, _⟩ => absurd hj j.not_lt_zero
  | succ n ih =>
    rw [tableReads]
    by_cases hguard : Guarded p offs
    · rw [if_pos hguard]
      exact iff_of_false List.not_mem_nil fun ⟨j, _, hj, _⟩ => hj.unguarded 0 j.zero_le hguard
    rw [if_neg hguard, List.mem_append]
    constructor
    · rintro (ha | ha)
      · refine ⟨0, n.succ_pos, ⟨fun i hi => ?_, fun i hi => absurd hi i.not_lt_zero⟩, ha⟩
        rwa [Nat.le_zero.1 hi]
      · split at ha
        · rename_i hat
          obtain ⟨j, hj, hreached, ha⟩ := ih.1 ha
          have hshift : ∀ i, offs + 1 + i = offs + (i + 1) := fun i => by omega
          refine ⟨j + 1, by omega, ⟨fun i hi => ?_, fun i hi => ?_⟩, hshift j ▸ ha⟩
          · cases i with
            | zero => exact hguard
            | succ i => exact hshift i ▸ hreached.unguarded i (by omega)
          · cases i with
            | zero => exact hat
            | succ i => exact hshift i ▸ hreached.failed i (by omega)
        · cases ha
    · rintro ⟨j, hj, hreached, ha⟩
      cases j with
      | zero => exact .inl ha
      | succ j =>
        have hshift : ∀ i, offs + 1 + i = offs + (i + 1) := fun i => by omega
        have hat : patternAt p m offs = some none := hreached.failed 0 j.succ_pos
        rw [hat]
        refine .inr (ih.2 ⟨j, by omega, ⟨fun i hi => ?_, fun i hi => ?_⟩, hshift j ▸ ha⟩)
        · rw [hshift]
          exact hreached.unguarded (i + 1) (by omega)
        · rw [hshift]
          exact hreached.failed (i + 1) (by omega)

theorem mem_readWords {ks : List ℕ} {a : ℕ} (h : a ∈ readWords p offs ks) :
    ∃ k ∈ ks, a = word offs k := by
  induction ks with
  | nil => cases h
  | cons k ks ih =>
    rcases List.mem_cons.1 h with rfl | h
    · exact ⟨k, List.mem_cons_self, rfl⟩
    · split_ifs at h
      · obtain ⟨k', hk', heq⟩ := ih h
        exact ⟨k', List.mem_cons_of_mem _ hk', heq⟩
      · cases h

/-- No word past the last entry is read. -/
theorem mem_patternReads {a : ℕ} (h : a ∈ patternReads p m offs) :
    ∃ k ≤ niLast, a = word offs k := by
  have hothers : ∀ k ∈ niOthers, k ≤ niLast := by decide
  rcases List.mem_cons.1 h with rfl | h
  · exact ⟨niFirst, by decide, rfl⟩
  split at h
  · cases h
  split_ifs at h with hpass
  · rcases List.mem_append.1 h with h | h
    · obtain ⟨k, hk, heq⟩ := mem_readWords h
      exact ⟨k, hothers k hk, heq⟩
    · split at h
      · cases h
      · split_ifs at h
        · cases h
        · obtain ⟨k, hk, heq⟩ := mem_readWords h
          rw [List.mem_range'_1] at hk
          exact ⟨k, (Nat.le_of_lt hk.2).trans (by decide), heq⟩
  · cases h

theorem word_inj {j k : ℕ} : word offs j = word offs k ↔ j = k := by
  rw [word, word]
  omega

/-- A word is read if those before it are mapped. -/
theorem last_mem_readWords {ks : List ℕ} {k : ℕ} (hk : k ∉ ks) :
    word offs k ∈ readWords p offs (ks ++ [k]) ↔ ∀ k' ∈ ks, Mapped (translate p) (word offs k') := by
  induction ks with
  | nil => exact iff_of_true List.mem_cons_self (List.forall_mem_nil _)
  | cons k' ks ih =>
    rw [List.mem_cons, not_or] at hk
    have hne : word offs k ≠ word offs k' := fun h => hk.1 (word_inj.1 h)
    rw [List.cons_append, readWords, List.mem_cons, or_iff_right hne, List.forall_mem_cons]
    by_cases hmapped : Mapped (translate p) (word offs k')
    · rw [if_pos hmapped, and_iff_right hmapped]
      exact ih hk.2
    · rw [if_neg hmapped]
      exact iff_of_false List.not_mem_nil fun h => hmapped h.1

/-- The entries between the first and the last. -/
def niMiddle : List ℕ := [174, 182, 183, 214, 215]

/-- The last entry is read if the first one passes its test. -/
theorem last_mem_patternReads :
    word offs niLast ∈ patternReads p m offs ↔
      (∃ w, load (translate p) m (word offs niFirst) = some w ∧ Passes w) ∧
        ∀ k ∈ niMiddle, Mapped (translate p) (word offs k) := by
  have hfirst : word offs niLast ≠ word offs niFirst := fun h => absurd (word_inj.1 h) (by decide)
  have hlast : word offs niLast ∈ readWords p offs niOthers ↔
      ∀ k ∈ niMiddle, Mapped (translate p) (word offs k) :=
    last_mem_readWords (show niLast ∉ niMiddle by decide)
  rw [patternReads, List.mem_cons, or_iff_right hfirst]
  cases hload : load (translate p) m (word offs niFirst) with
  | none => exact iff_of_false List.not_mem_nil fun ⟨⟨w, hw, _⟩, _⟩ => nomatch hw
  | some firstNi =>
    dsimp only
    by_cases hpass : Passes firstNi
    · rw [if_pos hpass, List.mem_append, hlast, and_iff_right ⟨firstNi, rfl, hpass⟩]
      refine or_iff_left_of_imp fun h => ?_
      -- the words before the first entry are others
      exfalso
      split at h
      · cases h
      · split_ifs at h
        · cases h
        · obtain ⟨k, hk, heq⟩ := mem_readWords h
          rw [List.mem_range'_1, ← word_inj.1 heq] at hk
          exact absurd hk.2 (by decide)
    · rw [if_neg hpass]
      refine iff_of_false List.not_mem_nil ?_
      rintro ⟨⟨w, hw, hpass'⟩, -⟩
      exact hpass (Option.some.inj hw ▸ hpass')

/-! ## One place

The tests at one place, in words of the memory: they come to nothing, or to a table. -/

variable {t : Table}

/-- The words at an address look like those of the table. -/
structure Pattern (p : Paging) (m : Memory) (t : Table) : Prop where
  passes : Passes t.sysNi
  entry : ∀ k ∈ niSyscall, load (translate p) m (word t.addr k) = some t.sysNi
  /-- No other entry before the free ones is free. -/
  before : ∀ j ∈ List.range' 1 (niFirst - 1),
    ∃ w, load (translate p) m (word t.addr j) = some w ∧ w ≠ t.sysNi

theorem mapM_eq_some_iff {α β : Type} {f : α → Option β} {l : List α} {r : List β} :
    l.mapM f = some r ↔ List.Forall₂ (fun x y => f x = some y) l r := by
  induction l generalizing r with
  | nil =>
    rw [List.forall₂_nil_left_iff]
    exact ⟨fun h => (Option.some.inj h).symm, fun h => h ▸ rfl⟩
  | cons x l ih =>
    rw [List.mapM_cons, List.forall₂_cons_left_iff]
    constructor
    · intro h
      obtain ⟨y, hy, h⟩ := Option.bind_eq_some_iff.1 h
      obtain ⟨ys, hys, h⟩ := Option.bind_eq_some_iff.1 h
      exact ⟨y, ys, hy, ih.1 hys, (Option.some.inj h).symm⟩
    · rintro ⟨y, ys, hy, hys, rfl⟩
      rw [hy, ih.2 hys]
      rfl

theorem exists_mapM {α β : Type} {f : α → Option β} {l : List α} (h : ∀ x ∈ l, ∃ y, f x = some y) :
    ∃ r, l.mapM f = some r := by
  induction l with
  | nil => exact ⟨[], rfl⟩
  | cons x l ih =>
    obtain ⟨y, hy⟩ := h x List.mem_cons_self
    obtain ⟨r, hr⟩ := ih fun x hx => h x (List.mem_cons_of_mem _ hx)
    exact ⟨y :: r, by rw [List.mapM_cons, hy, hr]; rfl⟩

/-- What the test of all results of a `mapM` is about. -/
theorem forall_mapM {α β : Type} {f : α → Option β} {l : List α} {r : List β}
    (h : l.mapM f = some r) (q : β → Prop) :
    (∀ y ∈ r, q y) ↔ ∀ x ∈ l, ∃ y, f x = some y ∧ q y := by
  have h := mapM_eq_some_iff.1 h
  induction h with
  | nil => exact iff_of_true (List.forall_mem_nil _) (List.forall_mem_nil _)
  | @cons x y l r hxy _ ih =>
    rw [List.forall_mem_cons, List.forall_mem_cons]
    refine and_congr ⟨fun hq => ⟨y, hxy, hq⟩, ?_⟩ (ih (mapM_eq_some_iff.2 ‹_›))
    rintro ⟨y', hy', hq⟩
    rwa [Option.some.inj (hxy.symm.trans hy')]

/-- **The tests at one address.** -/
theorem patternAt_eq_some_iff :
    patternAt p m offs = some (some t) ↔ t.addr = offs ∧ Pattern p m t := by
  constructor
  · intro h
    rw [patternAt] at h
    obtain ⟨first, hfirst, h⟩ := Option.bind_eq_some_iff.1 h
    split_ifs at h with hpass
    · obtain ⟨entries, hentries, h⟩ := Option.bind_eq_some_iff.1 h
      split_ifs at h with hany
      · cases h
      · obtain ⟨before, hbefore, h⟩ := Option.bind_eq_some_iff.1 h
        split_ifs at h with hbad
        · cases h
        · obtain rfl := Option.some.inj (Option.some.inj h)
          refine ⟨rfl, hpass, ?_, (forall_mapM hbefore (· ≠ first)).1 fun y hy heq => hbad ?_⟩
          · have hall : ∀ x ∈ entries, x = first := by
              simpa only [List.any_eq_true, decide_eq_true_eq, not_exists, not_and, not_not]
                using hany
            exact List.forall_mem_cons.2 ⟨hfirst, mapM_load hentries hall⟩
          · exact List.any_eq_true.2 ⟨y, hy, decide_eq_true heq⟩
    · cases h
  · rintro ⟨rfl, h⟩
    obtain ⟨hfirst, hothers⟩ := List.forall_mem_cons.1 h.entry
    obtain ⟨entries, hentries⟩ := exists_mapM fun k hk => ⟨_, hothers k hk⟩
    obtain ⟨before, hbefore⟩ := exists_mapM fun j hj => (h.before j hj).imp fun _ hw => hw.1
    have hany : ¬ entries.any (· ≠ t.sysNi) = true := by
      have hall := (forall_mapM hentries (· = t.sysNi)).2 fun k hk => ⟨_, hothers k hk, rfl⟩
      simpa only [List.any_eq_true, decide_eq_true_eq, not_exists, not_and, not_not] using hall
    have hbad : ¬ before.any (· = t.sysNi) = true := by
      have hall := (forall_mapM hbefore (· ≠ t.sysNi)).2 h.before
      simpa only [List.any_eq_true, decide_eq_true_eq, not_exists, not_and] using hall
    have hpass : t.sysNi &&& 0x3 = 0 ∧ t.sysNi ≠ 0 ∧ startAddr < t.sysNi.toNat := h.passes
    simp only [patternAt, hfirst, Option.bind_eq_bind, Option.bind_some]
    rw [if_pos hpass, hentries, Option.bind_some, if_neg hany, hbefore, Option.bind_some,
      if_neg hbad]
    rfl

theorem Pattern.ext {t' : Table} (h : Pattern p m t) (h' : Pattern p m t')
    (haddr : t.addr = t'.addr) : t = t' := by
  have hload := h.entry niFirst List.mem_cons_self
  rw [haddr, h'.entry niFirst List.mem_cons_self] at hload
  cases t
  cases t'
  cases haddr
  cases hload
  rfl

/-- The words that are read at the address are mapped, and they do not look like those of the
table. -/
def Differs (p : Paging) (m : Memory) (offs : ℕ) : Prop :=
  (∀ a ∈ patternReads p m offs, Mapped (translate p) a) ∧ ∀ t, Pattern p m t → t.addr ≠ offs

theorem patternAt_eq_none_iff : patternAt p m offs = some none ↔ Differs p m offs := by
  rw [Differs, ← patternAt_isSome_iff]
  constructor
  · intro h
    refine ⟨h ▸ rfl, fun t ht heq => ?_⟩
    rw [patternAt_eq_some_iff.2 ⟨heq, ht⟩] at h
    cases h
  · rintro ⟨hread, hno⟩
    obtain ⟨r, hr⟩ := Option.isSome_iff_exists.1 hread
    cases r with
    | none => exact hr
    | some t =>
      obtain ⟨heq, ht⟩ := patternAt_eq_some_iff.1 hr
      exact absurd heq (hno t ht)

/-! ## Which pages they are on

The last word of a place begins 1888 bytes after it.  From place 2208 of a page on it begins on the
next page, which is looked at first; at the seven places before that it only ends there. -/

/-- The frame is the same for all addresses of a page. -/
theorem getPhysFrame_congr {x y : ℕ} (h : x / 4096 = y / 4096) :
    getPhysFrame p x = getPhysFrame p y := by
  have hshift : ∀ n, 12 ≤ n → x >>> n = y >>> n := fun n hn => by
    obtain ⟨k, rfl⟩ := Nat.exists_eq_add_of_le hn
    rw [Nat.shiftRight_add, Nat.shiftRight_add, Nat.shiftRight_eq_div_pow x 12,
      Nat.shiftRight_eq_div_pow y 12, h]
  rw [getPhysFrame, getPhysFrame, pml4, pml4, pdp, pdp, pde, pde, pte, pte,
    hshift 39 (by omega), hshift 30 (by omega), hshift 21 (by omega), hshift 12 (by omega)]

theorem and_pageBitmask {x : ℕ} (h : x < 2 ^ 64) : x &&& pageBitmask = x / 4096 * 4096 := by
  have hmask : x &&& pageBitmask = x / 4096 % 2 ^ 52 * 4096 := and_mask x 12 52
  rw [hmask, Nat.mod_eq_of_lt (by omega)]

section Page

variable {addr : ℕ} (haddr : addr % 4096 = 0) (hend : addr < endAddr)

include haddr hend in
/-- The look at the next page is taken from place 2208 on. -/
theorem guarded_iff {j : ℕ} (hj : j < 4096) :
    Guarded p (addr + j) ↔ 2208 ≤ j ∧ getPhysFrame p (addr + 4096) = noFrame := by
  rw [endAddr] at hend
  have hnext : word (addr + j) niLast = addr + j + 1888 := rfl
  rw [Guarded, hnext, and_pageBitmask (by omega), and_pageBitmask (by omega), pageSize]
  by_cases h : 2208 ≤ j
  · rw [getPhysFrame_congr (x := addr + j + 1888) (y := addr + 4096) (by omega)]
    exact and_congr_left fun _ => iff_of_true (by omega) h
  · exact iff_of_false (fun h' => by omega) fun h' => h h'.1

/-- The page after the one at `addr` is not mapped, and at one of the seven places whose last entry
begins on the page and ends on the next one the last entry is read: the words at every place before
it are mapped and differ from those of the table, the first entry passes its test, and the entries
in between are mapped. -/
def Exposed (p : Paging) (m : Memory) (addr : ℕ) : Prop :=
  getPhysFrame p (addr + 4096) = noFrame ∧
    ∃ j, 2201 ≤ j ∧ j ≤ 2207 ∧ (∀ i < j, Differs p m (addr + i)) ∧
      (∃ w, load (translate p) m (word (addr + j) niFirst) = some w ∧ Passes w) ∧
      ∀ k ∈ niMiddle, Mapped (translate p) (word (addr + j) k)

include haddr in
/-- A byte that is read is on the page, on the next one before which the scan looks, or on the next
one at one of the seven places. -/
theorem byte_page {j k i : ℕ} (hj : j < 4096) (hk : k ≤ niLast) (hi : i < 8) :
    (word (addr + j) k + i) / 4096 = addr / 4096 ∨
      (word (addr + j) k + i) / 4096 = (addr + 4096) / 4096 ∧
        (2208 ≤ j ∨ 2201 ≤ j ∧ k = niLast) := by
  rw [niLast] at hk ⊢
  rw [word]
  omega

include haddr hend in
/-- **When the scan of a mapped page reads mapped pages only.** -/
theorem reads_mapped_iff (hmapped : getPhysFrame p addr ≠ noFrame) :
    (∀ a ∈ tableReads p m pageSize addr, ∀ i < 8, getPhysFrame p (a + i) ≠ noFrame) ↔
      ¬ Exposed p m addr := by
  constructor
  · rintro hsafe ⟨hnext, j, h1, h2, hdiffers, hpass, hmiddle⟩
    have hreached : Reached p m addr j :=
      ⟨fun i hi hguard => by have := ((guarded_iff haddr hend (by omega)).1 hguard).1; omega,
        fun i hi => patternAt_eq_none_iff.2 (hdiffers i hi)⟩
    have hread : word (addr + j) niLast ∈ tableReads p m pageSize addr :=
      mem_tableReads.2 ⟨j, by rw [pageSize]; omega, hreached,
        last_mem_patternReads.2 ⟨hpass, hmiddle⟩⟩
    -- the last byte of the last entry
    have hbyte : (word (addr + j) niLast + 7) / 4096 = (addr + 4096) / 4096 := by
      rw [word, niLast]
      omega
    exact hsafe _ hread 7 (by omega) ((getPhysFrame_congr hbyte).trans hnext)
  · intro hexposed a ha i hi hnone
    obtain ⟨j, hj, hreached, ha⟩ := mem_tableReads.1 ha
    obtain ⟨k, hk, rfl⟩ := mem_patternReads ha
    rw [pageSize] at hj
    rcases byte_page haddr hj hk hi with hpage | ⟨hpage, hplace⟩
    · exact hmapped ((getPhysFrame_congr hpage).symm.trans hnone)
    have hnext : getPhysFrame p (addr + 4096) = noFrame :=
      (getPhysFrame_congr hpage).symm.trans hnone
    by_cases hlate : 2208 ≤ j
    · exact hreached.unguarded j le_rfl ((guarded_iff haddr hend hj).2 ⟨hlate, hnext⟩)
    · obtain ⟨h1, rfl⟩ := hplace.resolve_left hlate
      obtain ⟨hpass, hmiddle⟩ := last_mem_patternReads.1 ha
      exact hexposed ⟨hnext, j, h1, by omega,
        fun i hi => patternAt_eq_none_iff.1 (hreached.failed i hi), hpass, hmiddle⟩

end Page

/-- **When the scan reads from mapped pages only.**  In the scan of any page of the kernel's
addresses that is mapped, every byte of every word that is read is on a mapped page, if and only if
the scan is not exposed. -/
theorem scan_reads_mapped_iff (p : Paging) (m : Memory) (addr : ℕ) (haddr : addr % 4096 = 0)
    (hend : addr < endAddr) (hmapped : getPhysFrame p addr ≠ noFrame) :
    (∀ a ∈ tableReads p m pageSize addr, ∀ i < 8, getPhysFrame p (a + i) ≠ noFrame) ↔
      ¬ Exposed p m addr :=
  reads_mapped_iff haddr hend hmapped

theorem scan_reads_mapped_iff_tableFrame :
    (∀ a ∈ tableReads oneFrame tableFrame pageSize startAddr, ∀ i < 8,
        getPhysFrame oneFrame (a + i) ≠ noFrame) ↔ ¬ Exposed oneFrame tableFrame startAddr :=
  scan_reads_mapped_iff oneFrame tableFrame startAddr (by decide) (by decide) (by decide)

/-- Every page but the second of its table is the first frame. -/
def holePaging : Paging := ⟨0, fun _ i => if i = 1 then 0 else presentBit⟩

/-- A frame with an address of the kernel where place 2201 has its first entry. -/
def holeFrame : Memory := fun x =>
  if 3273 ≤ x ∧ x < 3281 then byteOf someSysNi (x - 3273) else 0

theorem translate_holePaging {x : ℕ} (hx : x < 4096) :
    translate holePaging (startAddr + x) = some x := by
  have hshift : ∀ n, (startAddr + x) >>> n &&& 0x1ff = (startAddr + x) / 2 ^ n % 512 := fun n => by
    rw [Nat.shiftRight_eq_div_pow]
    exact Nat.and_two_pow_sub_one_eq_mod _ 9
  have h4 : pml4 (startAddr + x) = 511 := by rw [pml4, hshift, startAddr]; omega
  have h3 : pdp (startAddr + x) = 508 := by rw [pdp, hshift, startAddr]; omega
  have h2 : pde (startAddr + x) = 0 := by rw [pde, hshift, startAddr]; omega
  have h1 : pte (startAddr + x) = 0 := by rw [pte, hshift, startAddr]; omega
  have hplace : inPage 12 presentBit (startAddr + x) = x := by
    rw [inPage, show presentBit &&& frameMask = 0 from rfl, startAddr]
    omega
  have hread : ∀ i, i ≠ 1 → holePaging.entry 0 i = presentBit := fun i hi => if_neg hi
  rw [translate, h4, h3, h2, h1]
  exact (congrArg some hplace : _)

/-- Before place 2194 the first entry is empty. -/
theorem patternAt_holeFrame {j : ℕ} (hj : j < 2194) :
    patternAt holePaging holeFrame (startAddr + j) = some none := by
  have htr : ∀ i < 8, translate holePaging (word (startAddr + j) niFirst + i) = some (j + 1072 + i) :=
    fun i hi => by
      have := translate_holePaging (x := j + 1072 + i) (by omega)
      rw [word, niFirst, ← this]
      congr 1
      omega
  have hload : load (translate holePaging) holeFrame (word (startAddr + j) niFirst) = some 0 := by
    refine load_eq_some.2 ⟨fun i hi => by rw [htr i hi]; rfl, fun i hi => ?_⟩
    have hzero : ∀ i < 8, byteOf 0 i = 0 := by decide
    rw [cell, htr i hi, Option.getD_some, hzero i hi]
    exact if_neg (by omega)
  rw [patternAt, hload]
  rfl

/-- At place 2201 the last entry is read, and its last byte is on a page that is not mapped. -/
theorem scan_reads_hole :
    getPhysFrame holePaging startAddr ≠ noFrame ∧
      word (startAddr + 2201) niLast ∈ tableReads holePaging holeFrame pageSize startAddr ∧
      getPhysFrame holePaging (word (startAddr + 2201) niLast + 7) = noFrame := by
  refine ⟨by decide, mem_tableReads.2 ⟨2201, by decide, ⟨fun i hi hguard => ?_, fun i hi => ?_⟩,
    last_mem_patternReads.2 ⟨⟨someSysNi, by decide, by decide⟩, by decide⟩⟩, by decide⟩
  · have := ((guarded_iff (by decide) (by decide) (by omega)).1 hguard).1
    omega
  · rcases Nat.lt_or_ge i 2194 with hlt | hge
    · exact patternAt_holeFrame hlt
    · -- the places at which a part of the address is in the first entry
      have hrest : ∀ k < 7, patternAt holePaging holeFrame (startAddr + (2194 + k)) = some none := by
        decide +kernel
      obtain ⟨k, rfl⟩ := Nat.exists_eq_add_of_le hge
      exact hrest k (by omega)

end TagAos.Syscall
