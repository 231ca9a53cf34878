import TagAos.Syscall.Paging

/-!
# Finding and changing the system call table

`find_syscall_table` scans the kernel's addresses, page by page and byte by byte, for a place whose
seven words at the indices `ni_syscall` hold one address, which it takes for `sys_ni_syscall`.
`syscall_insert` writes a handler in the first of these words that still holds that address, and
`syscall_clean` writes the address back in all of them.

* `findSyscallTable`, `syscallInsert`, `syscallClean` — the functions.  An access that is not mapped
  faults; the outer `Option` is that outcome.
* `findSyscallTable_spec` — at the place that is found, all seven words hold `sys_ni_address`.
* `Kept` — the invariant of the insertions: outside the seven words the memory is as it was.
* `insert_restore` — the result.
-/

set_option autoImplicit false

namespace TagAos.Syscall

open Bytes

/-! ## Constants

From the headers of the discovery, and its list of indices. -/

/-- `START_ADDR`. -/
def startAddr : ℕ := 0xffffffff00000000

/-- `END_ADDR`. -/
def endAddr : ℕ := 0xfffffffffff00000

/-- `PAGE_SIZE_DEF`. -/
def pageSize : ℕ := 4096

/-- `PAGE_BITMASK`. -/
def pageBitmask : ℕ := 0xfffffffffffff000

/-- `ni_syscall`, the first index and the others. -/
def niFirst : ℕ := 134

def niOthers : List ℕ := [174, 182, 183, 214, 215, 236]

def niSyscall : List ℕ := niFirst :: niOthers

/-- `TABLE_ENTRIES`. -/
def tableEntries : ℕ := 256

/-- `ni_syscall[FREE_ENTRIES - 1]`. -/
def niLast : ℕ := 236

/-! ## Discovery

A read of memory that is not mapped is `none`, and so is everything that comes after it.  A
discovery that finds nothing is something else: it ends, with no table. -/

/-- `syscall_table_addr` and `sys_ni_address`. -/
structure Table where
  addr : ℕ
  sysNi : Word
  deriving DecidableEq

/-- The table before it is found. -/
def Table.unknown : Table := ⟨0, 0⟩

/-- The address of word `k` of a table at `a`. -/
def word (a k : ℕ) : ℕ := a + 8 * k

variable (p : Paging)

/-- The tests of `syscall_table_pattern` at one address. -/
def patternAt (m : Memory) (offs : ℕ) : Option (Option Table) := do
  let firstNi ← load (translate p) m (word offs niFirst)
  if firstNi &&& 0x3 = 0 ∧ firstNi ≠ 0 ∧ startAddr < firstNi.toNat then
    let entries ← niOthers.mapM fun k => load (translate p) m (word offs k)
    if entries.any (· ≠ firstNi) then return none
    let before ← (List.range' 1 (niFirst - 1)).mapM fun j => load (translate p) m (word offs j)
    if before.any (· = firstNi) then return none
    return some ⟨offs, firstNi⟩
  else return none

/-- `syscall_table_pattern`, with `n` addresses of the page left. -/
def tablePattern (m : Memory) : ℕ → ℕ → Option (Option Table)
  | 0, _ => some none
  | n + 1, offs =>
    let nextPage := word offs niLast
    -- the last word is on the next page, and that page is not mapped
    if (offs &&& pageBitmask) + pageSize = nextPage &&& pageBitmask ∧
        getPhysFrame p nextPage = noFrame then some none
    else
      match patternAt p m offs with
      | none => none
      | some (some t) => some (some t)
      | some none => tablePattern m n (offs + 1)

/-- The loop of `find_syscall_table`, with `n` pages left. -/
def findTable (m : Memory) : ℕ → ℕ → Option Table
  | 0, _ => some .unknown
  | n + 1, page =>
    if getPhysFrame p page ≠ noFrame then
      match tablePattern p m pageSize page with
      | none => none
      | some (some t) => some t
      | some none => findTable m n (page + pageSize)
    else findTable m n (page + pageSize)

/-- `find_syscall_table`. -/
def findSyscallTable (m : Memory) : Option Table :=
  findTable p m ((endAddr - startAddr) / pageSize) startAddr

/-! ## Insertion and restoration

The writes go to the table that was found, through the addresses of its words. -/

/-- The first of the indices whose word holds `sys_ni_address`. -/
def freeEntry (t : Table) (m : Memory) : List ℕ → Option (Option ℕ)
  | [] => some none
  | k :: ks =>
    (load (translate p) m (word t.addr k)).bind fun w =>
      if w = t.sysNi then some (some k) else freeEntry t m ks

/-- `syscall_insert`: the memory, and what is returned. -/
def syscallInsert (t : Table) (m : Memory) (handler : Word) : Option (Memory × ℕ) :=
  if t.addr = 0 ∨ t.sysNi = 0 then some (m, 0)
  else
    match freeEntry p t m niSyscall with
    | none => none
    | some none => some (m, 0)
    | some (some k) => (store (translate p) m (word t.addr k) handler).map (·, k)

/-- The loop of `syscall_clean`. -/
def cleanEntries (t : Table) (m : Memory) : List ℕ → Option Memory
  | [] => some m
  | k :: ks =>
    (store (translate p) m (word t.addr k) t.sysNi).bind fun m => cleanEntries t m ks

/-- `syscall_clean`. -/
def syscallClean (t : Table) (m : Memory) : Option Memory :=
  if t.addr = 0 ∨ t.sysNi = 0 then some m else cleanEntries p t m niSyscall

/-- A sequence of insertions: the memory, and what they return. -/
def syscallInserts (t : Table) (m : Memory) : List Word → Option (Memory × List ℕ)
  | [] => some (m, [])
  | h :: hs =>
    match syscallInsert p t m h with
    | none => none
    | some (m, r) => (syscallInserts t m hs).map fun x => (x.1, r :: x.2)

/-! ## What is found

A place that has passed the tests holds the same address at all the indices of the free entries. -/

variable {p} {t : Table} {m m₀ m' : Memory}

/-- A table at whose free entries the words hold `sys_ni_address`. -/
structure Found (p : Paging) (m : Memory) (t : Table) : Prop where
  addr_ne : t.addr ≠ 0
  sysNi_ne : t.sysNi ≠ 0
  entry : ∀ k ∈ niSyscall, load (translate p) m (word t.addr k) = some t.sysNi

/-- The words at the free entries of a table can be accessed. -/
structure Accessible (p : Paging) (t : Table) : Prop where
  addr_ne : t.addr ≠ 0
  sysNi_ne : t.sysNi ≠ 0
  mapped : ∀ k ∈ niSyscall, Mapped (translate p) (word t.addr k)

theorem Found.accessible (h : Found p m t) : Accessible p t :=
  ⟨h.addr_ne, h.sysNi_ne, fun k hk => (load_eq_some.1 (h.entry k hk)).1⟩

theorem mapM_load {offs : ℕ} {ks : List ℕ} {ws : List Word}
    (h : ks.mapM (fun k => load (translate p) m (word offs k)) = some ws) {w : Word}
    (hall : ∀ x ∈ ws, x = w) : ∀ k ∈ ks, load (translate p) m (word offs k) = some w := by
  induction ks generalizing ws with
  | nil => exact fun k hk => absurd hk List.not_mem_nil
  | cons k ks ih =>
    rw [List.mapM_cons] at h
    obtain ⟨x, hx, h⟩ := Option.bind_eq_some_iff.1 h
    obtain ⟨xs, hxs, h⟩ := Option.bind_eq_some_iff.1 h
    obtain rfl := Option.some.inj h
    intro k' hk'
    rcases List.mem_cons.1 hk' with rfl | hk'
    · rw [hx, hall x List.mem_cons_self]
    · exact ih hxs (fun y hy => hall y (List.mem_cons_of_mem _ hy)) k' hk'

theorem patternAt_spec {offs : ℕ} (h : patternAt p m offs = some (some t)) (hpos : offs ≠ 0) :
    Found p m t := by
  rw [patternAt] at h
  obtain ⟨first, hfirst, h⟩ := Option.bind_eq_some_iff.1 h
  split_ifs at h with htest
  · obtain ⟨entries, hentries, h⟩ := Option.bind_eq_some_iff.1 h
    split_ifs at h with hany
    · cases h
    · obtain ⟨before, -, h⟩ := Option.bind_eq_some_iff.1 h
      split_ifs at h with hbefore
      · cases h
      · obtain rfl := Option.some.inj (Option.some.inj h)
        have hall : ∀ x ∈ entries, x = first := by
          simpa only [List.any_eq_true, decide_eq_true_eq, not_exists, not_and, not_not] using hany
        refine ⟨hpos, htest.2.1, fun k hk => ?_⟩
        rcases List.mem_cons.1 hk with rfl | hk
        · exact hfirst
        · exact mapM_load hentries hall k hk
  · cases h

theorem tablePattern_spec {n offs : ℕ} (h : tablePattern p m n offs = some (some t))
    (hpos : offs ≠ 0) : Found p m t := by
  induction n generalizing offs with
  | zero => cases h
  | succ n ih =>
    rw [tablePattern] at h
    split_ifs at h
    · cases h
    · split at h
      · cases h
      · rename_i hat
        rw [h] at hat
        exact patternAt_spec hat hpos
      · exact ih h (Nat.succ_ne_zero offs)

theorem findTable_spec {n page : ℕ} (h : findTable p m n page = some t) (hpos : page ≠ 0) :
    t = .unknown ∨ Found p m t := by
  induction n generalizing page with
  | zero => exact .inl (Option.some.inj h).symm
  | succ n ih =>
    have hnext : page + pageSize ≠ 0 := by omega
    rw [findTable] at h
    split_ifs at h
    · split at h
      · cases h
      · rename_i hpat
        obtain rfl := Option.some.inj h
        exact .inr (tablePattern_spec hpat hpos)
      · exact ih h hnext
    · exact ih h hnext

/-- **At the place that is found all free entries hold `sys_ni_address`.** -/
theorem findSyscallTable_spec (h : findSyscallTable p m = some t) :
    t = .unknown ∨ Found p m t :=
  findTable_spec h (by decide)

/-! ## One insertion

The first free entry that still holds `sys_ni_address` is taken.  Words at different indices do not
overlap in memory, so nothing else is touched. -/

/-- The words at two indices are apart, and so are the bytes of one word. -/
theorem Accessible.cell_inj (h : Accessible p t) {k k' i j : ℕ} (hk : k ∈ niSyscall)
    (hk' : k' ∈ niSyscall) (hi : i < 8) (hj : j < 8)
    (heq : cell (translate p) (word t.addr k) i = cell (translate p) (word t.addr k') j) :
    k = k' ∧ i = j := by
  have hspan : ∀ k ∈ niSyscall, ∀ k' ∈ niSyscall, 8 * k + 8 ≤ 8 * k' + 4096 := by decide
  have h1 := hspan k hk k' hk'
  have h2 := hspan k' hk' k hk
  have hm := h.mapped k hk
  have hm' := h.mapped k' hk'
  rw [word] at hm hm' heq
  rw [word] at heq
  have hsum : t.addr + 8 * k + i = t.addr + 8 * k' + j := by
    rcases Nat.le_total (t.addr + 8 * k + i) (t.addr + 8 * k' + j) with hle | hle
    · exact Syscall.cell_inj hm hm' hi hj hle (by omega) heq
    · exact (Syscall.cell_inj hm' hm hj hi hle (by omega) heq.symm).symm
  omega

/-- What an insertion of `handler` does to the memory, and what it returns. -/
inductive Inserted (p : Paging) (t : Table) (m : Memory) (handler : Word) : Memory → ℕ → Prop
  /-- A word that held `sys_ni_address` holds the handler, and no other byte changes. -/
  | installed {k : ℕ} {m' : Memory} (htable : t ≠ .unknown) (hk : k ∈ niSyscall)
      (hfree : load (translate p) m (word t.addr k) = some t.sysNi)
      (hnow : load (translate p) m' (word t.addr k) = some handler)
      (hframe : ∀ x, (∀ i < 8, cell (translate p) (word t.addr k) i ≠ x) → m' x = m x) :
      Inserted p t m handler m' k
  /-- There is no table, or no free entry is left. -/
  | refused (hnone : t = .unknown ∨
      ∀ k ∈ niSyscall, load (translate p) m (word t.addr k) ≠ some t.sysNi) :
      Inserted p t m handler m 0

theorem freeEntry_spec {ks : List ℕ} (h : ∀ k ∈ ks, Mapped (translate p) (word t.addr k)) :
    freeEntry p t m ks = some none ∧
        (∀ k ∈ ks, load (translate p) m (word t.addr k) ≠ some t.sysNi) ∨
      ∃ k ∈ ks, freeEntry p t m ks = some (some k) ∧
        load (translate p) m (word t.addr k) = some t.sysNi := by
  induction ks with
  | nil => exact .inl ⟨rfl, fun k hk => absurd hk List.not_mem_nil⟩
  | cons k ks ih =>
    have hload : ∃ w, load (translate p) m (word t.addr k) = some w :=
      ⟨_, if_pos (h k List.mem_cons_self)⟩
    obtain ⟨w, hw⟩ := hload
    rw [freeEntry, hw, Option.bind_some]
    split_ifs with heq
    · exact .inr ⟨k, List.mem_cons_self, rfl, by rw [hw, heq]⟩
    · rcases ih fun k hk => h k (List.mem_cons_of_mem _ hk) with ⟨hnone, hall⟩ | ⟨k', hk', hsome⟩
      · refine .inl ⟨hnone, fun k' hk' => ?_⟩
        rcases List.mem_cons.1 hk' with rfl | hk'
        · exact fun hbad => heq (Option.some.inj (hw.symm.trans hbad))
        · exact hall k' hk'
      · exact .inr ⟨k', List.mem_cons_of_mem _ hk', hsome⟩

/-- **One insertion.** -/
theorem syscallInsert_spec (h : t = .unknown ∨ Accessible p t) (m : Memory) (handler : Word) :
    ∃ m' r, syscallInsert p t m handler = some (m', r) ∧ Inserted p t m handler m' r := by
  rcases h with rfl | h
  · exact ⟨m, 0, rfl, .refused (.inl rfl)⟩
  · rw [syscallInsert, if_neg (not_or.2 ⟨h.addr_ne, h.sysNi_ne⟩)]
    rcases freeEntry_spec h.mapped with ⟨hnone, hall⟩ | ⟨k, hk, hsome, hfree⟩
    · exact ⟨m, 0, by rw [hnone], .refused (.inr hall)⟩
    · have htable : t ≠ .unknown := fun heq => h.addr_ne (heq ▸ rfl)
      obtain ⟨m', hstore⟩ := store_isSome (m := m) (w := handler) (h.mapped k hk)
      refine ⟨m', k, by rw [hsome]; dsimp only; rw [hstore]; rfl, .installed htable hk hfree ?_ ?_⟩
      · exact load_store (fun i hi j hj heq => (h.cell_inj hk hk hi hj heq).2) hstore
      · intro x hx
        rcases store_byte hstore x with ⟨heq, -⟩ | ⟨i, hi, hcell, -⟩
        · exact heq
        · exact absurd hcell (hx i hi)

/-- An entry that does not hold `sys_ni_address` is not used, and stays as it is. -/
theorem Inserted.taken {handler : Word} {r k : ℕ} (h : Inserted p t m handler m' r)
    (ha : Accessible p t) (hk : k ∈ niSyscall)
    (htaken : load (translate p) m (word t.addr k) ≠ some t.sysNi) :
    r ≠ k ∧ load (translate p) m' (word t.addr k) ≠ some t.sysNi := by
  cases h with
  | refused =>
    have hzero : 0 ∉ niSyscall := by decide
    exact ⟨fun heq => hzero (heq ▸ hk), htaken⟩
  | installed htable hk' hfree hnow hframe =>
    have hne : r ≠ k := fun heq => htaken (heq ▸ hfree)
    refine ⟨hne, ?_⟩
    rw [load_congr fun j hj => hframe _ fun i hi heq => hne (ha.cell_inj hk' hk hi hj heq).1]
    exact htaken

/-! ## A sequence of insertions

Each insertion finds one free entry less. -/

/-- Insertions one after the other, each with its handler and what it returns. -/
inductive Insertions (p : Paging) (t : Table) : Memory → List (Word × ℕ) → Memory → Prop
  | nil (m : Memory) : Insertions p t m [] m
  | cons {m m₁ m' : Memory} {handler : Word} {r : ℕ} {l : List (Word × ℕ)}
      (hrun : syscallInsert p t m handler = some (m₁, r)) (hdone : Inserted p t m handler m₁ r)
      (hrest : Insertions p t m₁ l m') : Insertions p t m ((handler, r) :: l) m'

theorem syscallInserts_spec (h : t = .unknown ∨ Accessible p t) (m : Memory) (hs : List Word) :
    ∃ m' rs, syscallInserts p t m hs = some (m', rs) ∧ rs.length = hs.length ∧
      Insertions p t m (hs.zip rs) m' := by
  induction hs generalizing m with
  | nil => exact ⟨m, [], rfl, rfl, .nil m⟩
  | cons handler hs ih =>
    obtain ⟨m₁, r, hrun, hdone⟩ := syscallInsert_spec h m handler
    obtain ⟨m', rs, hrest, hlen, hall⟩ := ih m₁
    refine ⟨m', r :: rs, ?_, by simp [hlen], .cons hrun hdone hall⟩
    rw [syscallInserts, hrun]
    dsimp only
    rw [hrest]
    rfl

/-- An entry that is taken is not used again, and stays as it is. -/
theorem Insertions.taken {l : List (Word × ℕ)} (h : Insertions p t m l m') (ha : Accessible p t)
    {k : ℕ} (hk : k ∈ niSyscall)
    (htaken : load (translate p) m (word t.addr k) ≠ some t.sysNi) :
    (∀ x ∈ l, x.2 ≠ k) ∧ load (translate p) m' (word t.addr k) ≠ some t.sysNi := by
  induction h with
  | nil => exact ⟨fun x hx => absurd hx List.not_mem_nil, htaken⟩
  | cons hrun hdone hrest ih =>
    obtain ⟨hne, hstill⟩ := hdone.taken ha hk htaken
    refine ⟨fun x hx => ?_, (ih hstill).2⟩
    rcases List.mem_cons.1 hx with rfl | hx
    · exact hne
    · exact (ih hstill).1 x hx

/-- Two insertions of handlers do not use the same entry. -/
theorem Insertions.pairwise {l : List (Word × ℕ)} (h : Insertions p t m l m')
    (ha : t = .unknown ∨ Accessible p t) :
    l.Pairwise fun x y => x.1 ≠ t.sysNi → x.2 ≠ 0 → x.2 ≠ y.2 := by
  induction h with
  | nil => exact .nil
  | cons hrun hdone hrest ih =>
    refine .cons (fun y hy hhandler hr => ?_) ih
    cases hdone with
    | refused => exact absurd rfl hr
    | installed htable hk hfree hnow hframe =>
      rcases ha with rfl | ha
      · cases hrun
        exact absurd rfl hr
      · have htaken := hrest.taken ha hk fun hbad =>
          hhandler (Option.some.inj (hnow.symm.trans hbad))
        exact (htaken.1 y hy).symm

/-! ## Restoration

`syscall_clean` writes the same address to all the free entries, whether they were taken or not.  By
the tests of the discovery that is what they held. -/

/-- Outside the words at the indices `ks` the memory is as it was. -/
def Kept (p : Paging) (t : Table) (ks : List ℕ) (m₀ m : Memory) : Prop :=
  ∀ x, m x = m₀ x ∨ ∃ k ∈ ks, ∃ i < 8, cell (translate p) (word t.addr k) i = x

theorem Inserted.kept {handler : Word} {r : ℕ} (h : Inserted p t m handler m' r)
    (hm : Kept p t niSyscall m₀ m) : Kept p t niSyscall m₀ m' := by
  cases h with
  | refused => exact hm
  | installed htable hk hfree hnow hframe =>
    intro x
    by_cases hx : ∃ i < 8, cell (translate p) (word t.addr r) i = x
    · exact .inr ⟨r, hk, hx⟩
    · rw [hframe x fun i hi heq => hx ⟨i, hi, heq⟩]
      exact hm x

theorem Insertions.kept {l : List (Word × ℕ)} (h : Insertions p t m l m')
    (hm : Kept p t niSyscall m₀ m) : Kept p t niSyscall m₀ m' := by
  induction h with
  | nil => exact hm
  | cons hrun hdone hrest ih => exact ih (hdone.kept hm)

/-- Writing `sys_ni_address` in the words at the indices `ks` restores the memory. -/
theorem cleanEntries_spec (hf : Found p m₀ t) {ks : List ℕ} (hks : ∀ k ∈ ks, k ∈ niSyscall)
    (hm : Kept p t ks m₀ m) : cleanEntries p t m ks = some m₀ := by
  induction ks generalizing m with
  | nil =>
    refine congrArg some (funext fun x => ?_)
    rcases hm x with heq | ⟨k, hk, -⟩
    · exact heq
    · exact absurd hk List.not_mem_nil
  | cons k ks ih =>
    have hk := hks k List.mem_cons_self
    obtain ⟨m₁, hstore⟩ := store_isSome (m := m) (w := t.sysNi) (hf.accessible.mapped k hk)
    rw [cleanEntries, hstore, Option.bind_some]
    refine ih (fun k' hk' => hks k' (List.mem_cons_of_mem _ hk')) fun x => ?_
    rcases store_byte hstore x with ⟨heq, hne⟩ | ⟨i, hi, hcell, heq⟩
    · rw [heq]
      rcases hm x with hx | ⟨k', hk', i, hi, hcell⟩
      · exact .inl hx
      · rcases List.mem_cons.1 hk' with rfl | hk'
        · exact absurd hcell (hne i hi)
        · exact .inr ⟨k', hk', i, hi, hcell⟩
    · -- a byte of the word was a byte of `sys_ni_address` from the beginning
      refine .inl ?_
      rw [heq, ← hcell]
      exact ((load_eq_some.1 (hf.entry k hk)).2 i hi).symm

/-- Without a table, or without a free entry, nothing is written. -/
theorem Insertions.refused {l : List (Word × ℕ)} (h : Insertions p t m l m')
    (hnone : t = .unknown ∨
      ∀ k ∈ niSyscall, load (translate p) m (word t.addr k) ≠ some t.sysNi) : m' = m := by
  induction h with
  | nil => rfl
  | cons hrun hdone hrest ih =>
    cases hdone with
    | refused => exact ih hnone
    | installed htable hk hfree hnow hframe => exact absurd hfree (hnone.resolve_left htable _ hk)

/-- **Installing and restoring system calls is an identity on memory.**  After a discovery every
sequence of insertions runs; each of them overwrites one free entry or nothing; no entry is used
twice for handlers; and the restoration gives the memory back. -/
theorem insert_restore (p : Paging) (m : Memory) (t : Table)
    (hfind : findSyscallTable p m = some t) (hs : List Word) :
    ∃ m' rs, syscallInserts p t m hs = some (m', rs) ∧ rs.length = hs.length ∧
      Insertions p t m (hs.zip rs) m' ∧
      ((hs.zip rs).Pairwise fun x y => x.1 ≠ t.sysNi → x.2 ≠ 0 → x.2 ≠ y.2) ∧
      syscallClean p t m' = some m := by
  have hfound := findSyscallTable_spec hfind
  have ha : t = .unknown ∨ Accessible p t := hfound.imp_right Found.accessible
  obtain ⟨m', rs, hrun, hlen, hall⟩ := syscallInserts_spec ha m hs
  refine ⟨m', rs, hrun, hlen, hall, hall.pairwise ha, ?_⟩
  rcases hfound with rfl | hf
  · exact congrArg some (hall.refused (.inl rfl))
  · rw [syscallClean, if_neg (not_or.2 ⟨hf.addr_ne, hf.sysNi_ne⟩)]
    exact cleanEntries_spec hf (fun k hk => hk) (hall.kept fun x => .inl rfl)

/-- Every page is the first frame. -/
def oneFrame : Paging := ⟨0, fun _ _ => presentBit⟩

/-- An address of the kernel. -/
def someSysNi : Word := 0xffffffff81000000

/-- A frame with a table at its beginning. -/
def tableFrame : Memory := fun x => if x / 8 ∈ niSyscall then byteOf someSysNi (x % 8) else 0

theorem insert_restore_tableFrame :
    ∃ m' rs, syscallInserts oneFrame ⟨startAddr, someSysNi⟩ tableFrame [1, 2] = some (m', rs) ∧
      rs.length = 2 ∧
      Insertions oneFrame ⟨startAddr, someSysNi⟩ tableFrame ([1, 2].zip rs) m' ∧
      (([1, 2].zip rs).Pairwise fun x y => x.1 ≠ someSysNi → x.2 ≠ 0 → x.2 ≠ y.2) ∧
      syscallClean oneFrame ⟨startAddr, someSysNi⟩ m' = some tableFrame :=
  insert_restore oneFrame tableFrame ⟨startAddr, someSysNi⟩ (by decide +kernel) [1, 2]

end TagAos.Syscall
