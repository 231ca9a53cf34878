import TagAos.Syscall.Discovery

/-!
# Loading and unloading the module

`init_module` allocates the module's structures and installs the four system calls;
`cleanup_module` frees the structures.  Neither takes an installed entry back: `syscall_clean`
belongs to the other module, which stays loaded.

* `initModule`, `cleanupModule` — the functions.
* `lifetime` — the memory once the module is gone: `init_module` has failed, or `cleanup_module`
  has run.
* `restored_iff` — the memory is as it was before if and only if no insertion took place.
-/

set_option autoImplicit false

namespace TagAos.Syscall

open Bytes

/-! ## The functions

As far as they allocate, free, or write to the system call table. -/

/-- The outcomes of the allocations of `initialize`. -/
structure Allocs where
  tagTable : Bool
  tagBitmask : Bool
  tags : Bool

/-- The module's pointers, whether they are set, and the numbers of its system calls. -/
structure Globals where
  tagTable : Bool
  tagBitmask : Bool
  tags : Bool
  tagGetNr : ℤ
  tagSendNr : ℤ
  tagReceiveNr : ℤ
  tagCtlNr : ℤ

/-- Every allocation succeeds. -/
def Allocs.Succeed (al : Allocs) : Prop :=
  al.tagTable = true ∧ al.tagBitmask = true ∧ al.tags = true

/-- The globals of a module that is being loaded. -/
def Globals.initial : Globals := ⟨false, false, false, 0, 0, 0, 0⟩

/-- The addresses of the four system calls. -/
structure Handlers where
  sysTagGet : Word
  sysTagSend : Word
  sysTagReceive : Word
  sysTagCtl : Word

/-- The handlers in the order of their installation. -/
def Handlers.toList (h : Handlers) : List Word :=
  [h.sysTagGet, h.sysTagSend, h.sysTagReceive, h.sysTagCtl]

/-- `initialize`. -/
def initializeStructs (al : Allocs) (g : Globals) : Globals × ℤ :=
  if al.tagTable = false then ({ g with tagTable := false }, -1)
  else if al.tagBitmask = false then ({ g with tagTable := false, tagBitmask := false }, -1)
  else if al.tags = false then
    ({ g with tagTable := false, tagBitmask := false, tags := false }, -1)
  else ({ g with tagTable := true, tagBitmask := true, tags := true }, 0)

/-- `install_syscalls`. -/
def installSyscalls (p : Paging) (t : Table) (m : Memory) (h : Handlers) (g : Globals) :
    Option (Memory × Globals × ℤ) := do
  let (m, tagGetNr) ← syscallInsert p t m h.sysTagGet
  let (m, tagSendNr) ← syscallInsert p t m h.sysTagSend
  let (m, tagReceiveNr) ← syscallInsert p t m h.sysTagReceive
  let (m, tagCtlNr) ← syscallInsert p t m h.sysTagCtl
  let g := { g with
    tagGetNr := tagGetNr, tagSendNr := tagSendNr, tagReceiveNr := tagReceiveNr,
    tagCtlNr := tagCtlNr }
  return (m, g, toInt (toInt (toInt (tagGetNr * tagSendNr) * tagReceiveNr) * tagCtlNr))

/-- `init_module`. -/
def initModule (p : Paging) (t : Table) (al : Allocs) (h : Handlers) (m : Memory) :
    Option (Memory × Globals × ℤ) :=
  let (g, ret) := initializeStructs al .initial
  if ret ≠ 0 then some (m, g, -1)
  else
    (installSyscalls p t m h g).map fun
    | (m, g, ret) =>
      if ret = 0 then (m, { g with tags := false, tagTable := false, tagBitmask := false }, -1)
      else (m, g, 0)

/-- `cleanup_module`: what is allocated is freed. -/
def cleanupModule (m : Memory) (g : Globals) : Memory × Globals :=
  (m, { g with tagBitmask := false, tagTable := false, tags := false })

/-- The memory once the module is gone. -/
def lifetime (p : Paging) (t : Table) (al : Allocs) (h : Handlers) (m : Memory) : Option Memory :=
  (initModule p t al h m).map fun
  | (m, g, ret) => if ret ≠ 0 then m else (cleanupModule m g).1

/-! ## What is left in the table

`init_module` stops at the first entry it cannot have and gives none back, and `cleanup_module`
frees the structures only.  So the table is restored only if nothing has been written to it. -/

/-- No entry of the table holds a handler. -/
def Free (p : Paging) (t : Table) (h : Handlers) (m : Memory) : Prop :=
  ∀ k < tableEntries, ∀ w ∈ h.toList, load (translate p) m (word t.addr k) ≠ some w

/-- The structures are allocated, and there is a table with a free entry. -/
def Installs (p : Paging) (t : Table) (al : Allocs) (m : Memory) : Prop :=
  al.Succeed ∧ t ≠ .unknown ∧
    ∃ k ∈ niSyscall, load (translate p) m (word t.addr k) = some t.sysNi

variable {p : Paging} {t : Table} {al : Allocs} {h : Handlers} {m m' : Memory}

/-- The four system calls are installed one after the other. -/
theorem installSyscalls_spec (ha : t = .unknown ∨ Accessible p t) (m : Memory) (h : Handlers)
    (g : Globals) :
    ∃ m' g' ret l, installSyscalls p t m h g = some (m', g', ret) ∧
      Insertions p t m l m' ∧ l.map Prod.fst = h.toList := by
  obtain ⟨m₁, r₁, h₁, hd₁⟩ := syscallInsert_spec ha m h.sysTagGet
  obtain ⟨m₂, r₂, h₂, hd₂⟩ := syscallInsert_spec ha m₁ h.sysTagSend
  obtain ⟨m₃, r₃, h₃, hd₃⟩ := syscallInsert_spec ha m₂ h.sysTagReceive
  obtain ⟨m', r₄, h₄, hd₄⟩ := syscallInsert_spec ha m₃ h.sysTagCtl
  have hins : Insertions p t m
      [(h.sysTagGet, r₁), (h.sysTagSend, r₂), (h.sysTagReceive, r₃), (h.sysTagCtl, r₄)] m' :=
    .cons h₁ hd₁ (.cons h₂ hd₂ (.cons h₃ hd₃ (.cons h₄ hd₄ (.nil m'))))
  refine ⟨m', { g with tagGetNr := r₁, tagSendNr := r₂, tagReceiveNr := r₃, tagCtlNr := r₄ },
    toInt (toInt (toInt (r₁ * r₂) * r₃) * r₄), _, ?_, hins, rfl⟩
  simp only [installSyscalls, h₁, h₂, h₃, h₄, Option.bind_eq_bind, Option.bind_some]
  rfl

theorem initializeStructs_eq_zero {al : Allocs} {g : Globals} :
    (initializeStructs al g).2 = 0 ↔ al.Succeed := by
  obtain ⟨tagTable, tagBitmask, tags⟩ := al
  cases tagTable <;> cases tagBitmask <;> cases tags <;> simp [initializeStructs, Allocs.Succeed]

/-- When an allocation fails nothing is written. -/
theorem lifetime_of_failed (hfail : ¬ al.Succeed) : lifetime p t al h m = some m := by
  have hret := mt (initializeStructs_eq_zero (g := .initial)).1 hfail
  rw [lifetime, initModule]
  dsimp only
  rw [if_pos hret]
  rfl

/-- Otherwise the memory is as the insertions leave it. -/
theorem lifetime_of_succeed (ha : t = .unknown ∨ Accessible p t) (hok : al.Succeed) :
    ∃ m' l, lifetime p t al h m = some m' ∧ Insertions p t m l m' ∧
      l.map Prod.fst = h.toList := by
  have hret := (initializeStructs_eq_zero (g := .initial)).2 hok
  obtain ⟨m', g', ret, l, hrun, hins, hl⟩ :=
    installSyscalls_spec ha m h (initializeStructs al .initial).1
  refine ⟨m', l, ?_, hins, hl⟩
  rw [lifetime, initModule]
  dsimp only
  rw [if_neg (not_not.2 hret), hrun, Option.map_some, Option.map_some]
  dsimp only
  split_ifs <;> rfl

/-- **When the table is as it was before.**  Once the module is gone, because `init_module` has
failed or `cleanup_module` has run, the memory is as it was before and no entry of the table holds
one of the handlers, if and only if no entry held one before, and an allocation fails, no table is
known, or no entry was free. -/
theorem restored_iff (p : Paging) (m₀ : Memory) (t : Table)
    (hfind : findSyscallTable p m₀ = some t) (al : Allocs) (h : Handlers) (m : Memory) :
    ∃ m', lifetime p t al h m = some m' ∧
      (m' = m ∧ Free p t h m' ↔ ¬ Installs p t al m ∧ Free p t h m) := by
  have ha : t = .unknown ∨ Accessible p t :=
    (findSyscallTable_spec hfind).imp_right Found.accessible
  by_cases hok : al.Succeed
  · obtain ⟨m', l, hlife, hins, hl⟩ := lifetime_of_succeed (h := h) (m := m) ha hok
    refine ⟨m', hlife, ⟨?_, ?_⟩⟩
    · rintro ⟨rfl, hfree⟩
      refine ⟨?_, hfree⟩
      rintro ⟨-, htable, k₀, hk₀, hentry⟩
      -- the first insertion takes an entry, and it stays taken
      cases hins with
      | nil => cases hl
      | @cons _ m₁ _ handler r l hrun hdone hrest =>
        have hhandler : handler ∈ h.toList := by
          rw [← hl]
          exact List.mem_cons_self
        cases hdone with
        | refused hnone => exact hnone.resolve_left htable k₀ hk₀ hentry
        | installed _ hk hfirst hnow hframe =>
          have hsmall : ∀ k ∈ niSyscall, k < tableEntries := by decide
          have hne := hfree _ (hsmall _ hk) _ hhandler
          have htaken := hrest.taken (ha.resolve_left htable) hk fun hbad =>
            hne (hfirst.trans (hbad.symm.trans hnow))
          exact htaken.2 hfirst
    · rintro ⟨hno, hfree⟩
      have hsame : m' = m := by
        refine hins.refused (or_iff_not_imp_left.2 fun htable k hk hentry => ?_)
        exact hno ⟨hok, htable, k, hk, hentry⟩
      exact ⟨hsame, hsame ▸ hfree⟩
  · exact ⟨m, lifetime_of_failed hok, fun h => ⟨fun hins => hok hins.1, h.2⟩,
      fun h => ⟨rfl, h.2⟩⟩

/-! ## Two tables

One in which all seven entries are free, and one in which three are. -/

/-- Four functions of a module. -/
def someHandlers : Handlers :=
  ⟨0xffffffffc0000000, 0xffffffffc0001000, 0xffffffffc0002000, 0xffffffffc0003000⟩

/-- A table whose last four free entries have been taken. -/
def crowdedFrame : Memory := fun x =>
  if x / 8 ∈ [134, 174, 182] then byteOf someSysNi (x % 8)
  else if x / 8 ∈ [183, 214, 215, 236] then byteOf 2 (x % 8) else 0

/-- The allocation of `tags` fails; or all of them succeed, and the entries
that are free do not suffice. -/
theorem restored_iff_tableFrame :
    (∃ m', lifetime oneFrame ⟨startAddr, someSysNi⟩ ⟨true, true, false⟩ someHandlers tableFrame =
        some m' ∧
      (m' = tableFrame ∧ Free oneFrame ⟨startAddr, someSysNi⟩ someHandlers m' ↔
        ¬ Installs oneFrame ⟨startAddr, someSysNi⟩ ⟨true, true, false⟩ tableFrame ∧
          Free oneFrame ⟨startAddr, someSysNi⟩ someHandlers tableFrame)) ∧
    ∃ m', lifetime oneFrame ⟨startAddr, someSysNi⟩ ⟨true, true, true⟩ someHandlers crowdedFrame =
        some m' ∧
      (m' = crowdedFrame ∧ Free oneFrame ⟨startAddr, someSysNi⟩ someHandlers m' ↔
        ¬ Installs oneFrame ⟨startAddr, someSysNi⟩ ⟨true, true, true⟩ crowdedFrame ∧
          Free oneFrame ⟨startAddr, someSysNi⟩ someHandlers crowdedFrame) := by
  have hfind : findSyscallTable oneFrame tableFrame = some ⟨startAddr, someSysNi⟩ := by
    decide +kernel
  exact ⟨restored_iff oneFrame tableFrame _ hfind _ someHandlers tableFrame,
    restored_iff oneFrame tableFrame _ hfind _ someHandlers crowdedFrame⟩

/-- The handlers agree in a byte, so entries without that byte do not hold them. -/
theorem free_of_byte
    (hbyte : ∀ k < tableEntries, m (cell (translate p) (word t.addr k) 3) ≠ 0xc0) :
    Free p t someHandlers m := by
  intro k hk w hw hload
  have hhandler : ∀ w ∈ someHandlers.toList, byteOf w 3 = 0xc0 := by
    intro w hw
    simp only [Handlers.toList, List.mem_cons, List.not_mem_nil, or_false] at hw
    rcases hw with rfl | rfl | rfl | rfl <;> rfl
  have hread := (load_eq_some.1 hload).2 3 (by omega)
  exact hbyte k hk (hread.trans (hhandler w hw))

/-- `init_module` fails for want of a fourth entry, and an entry holds a handler; with enough
entries it succeeds, and the entry holds it after `cleanup_module`. -/
theorem handlers_left :
    Free oneFrame ⟨startAddr, someSysNi⟩ someHandlers crowdedFrame ∧
    (initModule oneFrame ⟨startAddr, someSysNi⟩ ⟨true, true, true⟩ someHandlers crowdedFrame).map
        (fun x => (x.2.2, load (translate oneFrame) x.1 (word startAddr 134))) =
      some (-1, some someHandlers.sysTagGet) ∧
    Free oneFrame ⟨startAddr, someSysNi⟩ someHandlers tableFrame ∧
    (initModule oneFrame ⟨startAddr, someSysNi⟩ ⟨true, true, true⟩ someHandlers tableFrame).map
        (fun x => (x.2.2, load (translate oneFrame) (cleanupModule x.1 x.2.1).1
          (word startAddr 134))) =
      some (0, some someHandlers.sysTagGet) := by
  refine ⟨free_of_byte ?_, ?_, free_of_byte ?_, ?_⟩ <;> decide +kernel

end TagAos.Syscall
