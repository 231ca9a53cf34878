import TagAos.Syscall.Paging

/-!
# The walk of the page tables

`get_phys_frame` differs from the processor's walk in these places: `PT_ADDRESS_MASK` keeps the
bits 52 to 62 of an entry, which are not part of an address; a page of 1 GiB is reported as not
mapped; for a page of 2 MiB the bits 12 to 20 of the frame come from the entry and not from the
address; and the frame number goes through an `int`.

* `physFrame` — the function, where a table can only be read at a physical address.
* `Agrees` — the entries for which none of this matters.
* `physFrame_right_iff` — the result is right exactly then.
-/

set_option autoImplicit false

namespace TagAos.Syscall

/-! ## The function

With the accesses to the page tables: each may fault, which `get_phys_frame` of
`TagAos.Syscall.Paging` does not show. -/

/-- Entry `i` of a table, read through `__va`.  A physical address has 52 bits; what `__va` makes of
a larger one is not the address of anything, and the access faults. -/
def readEntry (p : Paging) (table i : ℕ) : Option ℕ :=
  if table < 2 ^ 52 then some (p.entry table i) else none

/-- `get_phys_frame`, when a table is only read at a physical address.  `CR3` holds one. -/
def physFrame (p : Paging) (addr : ℕ) : Option ℕ :=
  let pml4e := p.entry p.root (pml4 addr)
  if pml4e &&& presentBit = 0 then some noFrame
  else
    (readEntry p (pml4e &&& ptAddressMask) (pdp addr)).bind fun pdpe =>
      if pdpe &&& presentBit = 0 then some noFrame
      else if pdpe &&& hPages ≠ 0 then some noFrame
      else
        (readEntry p (pdpe &&& ptAddressMask) (pde addr)).bind fun pdee =>
          if pdee &&& presentBit = 0 then some noFrame
          else if pdee &&& hPages ≠ 0 then
            some (ofInt (toInt ((pdee &&& ptAddressMask) >>> 12 : ℕ)))
          else
            (readEntry p (pdee &&& ptAddressMask) (pte addr)).bind fun ptee =>
              if ptee &&& presentBit = 0 then some noFrame
              else some (ofInt (toInt ((ptee &&& ptAddressMask) >>> 12 : ℕ)))

theorem readEntry_eq_some {p : Paging} {table i e : ℕ} (h : readEntry p table i = some e) :
    e = p.entry table i := by
  rw [readEntry] at h
  split_ifs at h
  exact (Option.some.inj h).symm

/-- Where nothing faults it is the function of the scan. -/
theorem getPhysFrame_of_physFrame {p : Paging} {addr frame : ℕ}
    (h : physFrame p addr = some frame) : getPhysFrame p addr = frame := by
  rw [physFrame] at h
  rw [getPhysFrame]
  dsimp only at h ⊢
  by_cases h4 : p.entry p.root (pml4 addr) &&& presentBit = 0
  · rw [if_pos h4] at h ⊢
    exact Option.some.inj h
  rw [if_neg h4] at h ⊢
  obtain ⟨pdpe, hpdpe, h⟩ := Option.bind_eq_some_iff.1 h
  rw [← readEntry_eq_some hpdpe]
  by_cases h3 : pdpe &&& presentBit = 0
  · rw [if_pos h3] at h ⊢
    exact Option.some.inj h
  by_cases h3' : pdpe &&& hPages ≠ 0
  · rw [if_neg h3, if_pos h3'] at h ⊢
    exact Option.some.inj h
  rw [if_neg h3, if_neg h3'] at h ⊢
  obtain ⟨pdee, hpdee, h⟩ := Option.bind_eq_some_iff.1 h
  rw [← readEntry_eq_some hpdee]
  by_cases h2 : pdee &&& presentBit = 0
  · rw [if_pos h2] at h ⊢
    exact Option.some.inj h
  by_cases h2' : pdee &&& hPages ≠ 0
  · rw [if_neg h2, if_pos h2'] at h ⊢
    exact Option.some.inj h
  rw [if_neg h2, if_neg h2'] at h ⊢
  obtain ⟨ptee, hptee, h⟩ := Option.bind_eq_some_iff.1 h
  rw [← readEntry_eq_some hptee]
  by_cases h1 : ptee &&& presentBit = 0
  · rw [if_pos h1] at h ⊢
    exact Option.some.inj h
  · rw [if_neg h1] at h ⊢
    exact Option.some.inj h

/-! ## The masks

The code and the processor cut different bits out of an entry. -/

theorem and_ptAddressMask (e : ℕ) : e &&& ptAddressMask = e / 4096 % 2 ^ 51 * 4096 :=
  and_mask e 12 51

theorem and_frameMask (e : ℕ) : e &&& frameMask = e / 4096 % 2 ^ 40 * 4096 := and_mask e 12 40

/-- An entry none of whose bits 52 to 62 is set: `PT_ADDRESS_MASK` leaves its address. -/
def Clean (e : ℕ) : Prop := e &&& ptAddressMask = e &&& frameMask

theorem clean_iff {e : ℕ} : Clean e ↔ e &&& ptAddressMask < 2 ^ 52 := by
  rw [Clean, and_ptAddressMask, and_frameMask]
  omega

/-- Where a clean entry points to, the processor's table is read. -/
theorem readEntry_of_clean {p : Paging} {e i : ℕ} (h : Clean e) :
    readEntry p (e &&& ptAddressMask) i = some (p.entry (e &&& frameMask) i) := by
  rw [readEntry, if_pos (clean_iff.1 h), h]

theorem readEntry_of_not_clean {p : Paging} {e i : ℕ} (h : ¬ Clean e) :
    readEntry p (e &&& ptAddressMask) i = none := if_neg (mt clean_iff.2 h)

/-! ## The frame

What of a frame number gets through the `int` that the function returns. -/

/-- What an `int` keeps of a frame number. -/
theorem ofInt_toInt (v : ℕ) :
    ofInt (toInt v) = if v % 2 ^ 32 < 2 ^ 31 then v % 2 ^ 32 else v % 2 ^ 32 + (2 ^ 64 - 2 ^ 32) := by
  rw [ofInt, toInt, Int.bmod]
  split_ifs <;> omega

/-- The frame number of a leaf entry is right if the frame is below `2 ^ 31`. -/
theorem leaf_right_iff (e addr : ℕ) :
    ofInt (toInt ((e &&& ptAddressMask) >>> 12 : ℕ)) = inPage 12 e addr / 4096 ↔
      inPage 12 e addr / 4096 < 2 ^ 31 := by
  rw [ofInt_toInt, inPage, and_ptAddressMask, and_frameMask, Nat.shiftRight_eq_div_pow]
  split_ifs <;> omega

/-- For a page of 2 MiB its low bits must also be those of the address. -/
theorem large_right_iff (e addr : ℕ) :
    ofInt (toInt ((e &&& ptAddressMask) >>> 12 : ℕ)) = inPage 21 e addr / 4096 ↔
      inPage 21 e addr / 4096 < 2 ^ 31 ∧ e / 4096 % 512 = addr / 4096 % 512 := by
  rw [ofInt_toInt, inPage, and_ptAddressMask, and_frameMask, Nat.shiftRight_eq_div_pow]
  split_ifs <;> omega

theorem inPage_ne_noFrame {bits : ℕ} (h : bits ≤ 30) (e addr : ℕ) :
    noFrame ≠ inPage bits e addr / 4096 := by
  have hdiv := Nat.div_mul_le_self (e &&& frameMask) (2 ^ bits)
  have hmod : addr % 2 ^ bits < 2 ^ bits := Nat.mod_lt _ (Nat.two_pow_pos bits)
  have hpow : 2 ^ bits ≤ 2 ^ 30 := Nat.pow_le_pow_right (by omega) h
  have hmask := and_frameMask e
  rw [noFrame, inPage]
  omega

/-! ## When the result is right

The condition follows the walk level by level: each entry on it is clean, and the walk ends where
both agree. -/

/-- The frame that backs an address, or -1. -/
def frameOf (p : Paging) (addr : ℕ) : ℕ :=
  match translate p addr with
  | none => noFrame
  | some x => x / 4096

/-- The processor's walk ends at an entry that is not present, or at a page whose frame has the
number that the function computes; and it is led there by clean entries. -/
def Agrees (p : Paging) (addr : ℕ) : Prop :=
  let pml4e := p.entry p.root (pml4 addr)
  pml4e &&& presentBit = 0 ∨ Clean pml4e ∧
    let pdpe := p.entry (pml4e &&& frameMask) (pdp addr)
    pdpe &&& presentBit = 0 ∨ pdpe &&& hPages = 0 ∧ Clean pdpe ∧
      let pdee := p.entry (pdpe &&& frameMask) (pde addr)
      pdee &&& presentBit = 0 ∨
        (pdee &&& hPages ≠ 0 ∧ inPage 21 pdee addr / 4096 < 2 ^ 31 ∧
          pdee / 4096 % 512 = addr / 4096 % 512) ∨
        (pdee &&& hPages = 0 ∧ Clean pdee ∧
          let ptee := p.entry (pdee &&& frameMask) (pte addr)
          ptee &&& presentBit = 0 ∨ inPage 12 ptee addr / 4096 < 2 ^ 31)

/-- **When the walk agrees with the processor's.**  The function returns -1 for an address that is
not mapped and the number of its frame otherwise, if and only if the entries are such that none of
its shortcuts matters. -/
theorem physFrame_right_iff (p : Paging) (addr : ℕ) :
    physFrame p addr = some (frameOf p addr) ↔ Agrees p addr := by
  rw [physFrame, frameOf, translate, Agrees]
  dsimp only
  by_cases h4 : p.entry p.root (pml4 addr) &&& presentBit = 0
  · rw [if_pos h4, if_pos h4]
    exact iff_of_true rfl (.inl h4)
  rw [if_neg h4, if_neg h4, or_iff_right h4]
  by_cases hc4 : Clean (p.entry p.root (pml4 addr))
  swap
  · rw [readEntry_of_not_clean hc4]
    exact iff_of_false nofun fun h => hc4 h.1
  rw [readEntry_of_clean hc4, Option.bind_some, and_iff_right hc4]
  generalize p.entry (p.entry p.root (pml4 addr) &&& frameMask) (pdp addr) = pdpe
  by_cases h3 : pdpe &&& presentBit = 0
  · rw [if_pos h3, if_pos h3]
    exact iff_of_true rfl (.inl h3)
  rw [if_neg h3, if_neg h3, or_iff_right h3]
  by_cases h3' : pdpe &&& hPages ≠ 0
  · rw [if_pos h3', if_pos h3']
    -- a page of 1 GiB
    exact iff_of_false (fun h => inPage_ne_noFrame (by decide) _ _ (Option.some.inj h))
      fun h => h3' h.1
  rw [if_neg h3', if_neg h3', and_iff_right (not_not.1 h3')]
  by_cases hc3 : Clean pdpe
  swap
  · rw [readEntry_of_not_clean hc3]
    exact iff_of_false nofun fun h => hc3 h.1
  rw [readEntry_of_clean hc3, Option.bind_some, and_iff_right hc3]
  generalize p.entry (pdpe &&& frameMask) (pde addr) = pdee
  by_cases h2 : pdee &&& presentBit = 0
  · rw [if_pos h2, if_pos h2]
    exact iff_of_true rfl (.inl h2)
  rw [if_neg h2, if_neg h2, or_iff_right h2]
  by_cases h2' : pdee &&& hPages ≠ 0
  · -- a page of 2 MiB
    rw [if_pos h2', if_pos h2', or_iff_left fun h => h2' h.1, and_iff_right h2']
    exact Option.some_inj.trans (large_right_iff pdee addr)
  rw [if_neg h2', if_neg h2', or_iff_right fun h => h2' h.1, and_iff_right (not_not.1 h2')]
  by_cases hc2 : Clean pdee
  swap
  · rw [readEntry_of_not_clean hc2]
    exact iff_of_false nofun fun h => hc2 h.1
  rw [readEntry_of_clean hc2, Option.bind_some, and_iff_right hc2]
  generalize p.entry (pdee &&& frameMask) (pte addr) = ptee
  by_cases h1 : ptee &&& presentBit = 0
  · rw [if_pos h1, if_pos h1]
    exact iff_of_true rfl (.inl h1)
  · rw [if_neg h1, if_neg h1, or_iff_right h1]
    exact Option.some_inj.trans (leaf_right_iff ptee addr)

/-- One page of 2 MiB, at the beginning of the memory. -/
def largePage : Paging := ⟨0, fun table _ => if table = 0 then 0x1001
  else if table = 0x1000 then 0x2001 else 0x83⟩

/-- The second 4 KiB of a page of 2 MiB get the number of the first. -/
theorem physFrame_largePage :
    physFrame largePage 0x1000 = some 0 ∧ frameOf largePage 0x1000 = 1 ∧
      ¬ physFrame largePage 0x1000 = some (frameOf largePage 0x1000) := by
  have hphys : physFrame largePage 0x1000 = some 0 := by decide
  have hframe : frameOf largePage 0x1000 = 1 := by decide
  exact ⟨hphys, hframe, by rw [hphys, hframe]; decide⟩

end TagAos.Syscall
