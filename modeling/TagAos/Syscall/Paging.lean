import TagAos.Tag.Instr
import TagAos.Bytes.Word

/-!
# Page tables

`get_phys_frame` walks the page tables of the machine to tell whether an address is mapped.  The
processor's own walk is `translate`.  Where the two differ is the subject of
`TagAos.Syscall.PageWalk`.

All that is used of the translation is that it keeps the offset in a page of 4 KiB
(`translate_mod`): bytes less than a page apart never have the same image, whatever the tables
say.
-/

set_option autoImplicit false

namespace TagAos.Syscall

open Bytes

/-! ## Page tables

The macros, and the walk of the code.  A page table is whatever is at its address, so an entry is a
function of an address and an index. -/

/-- The page tables: the address of the top-level table, and the entries of the table at an
address. -/
structure Paging where
  root : ℕ
  entry : ℕ → ℕ → ℕ

/-- `PML4(addr)`. -/
def pml4 (addr : ℕ) : ℕ := (addr >>> 39) &&& 0x1ff

/-- `PDP(addr)`. -/
def pdp (addr : ℕ) : ℕ := (addr >>> 30) &&& 0x1ff

/-- `PDE(addr)`. -/
def pde (addr : ℕ) : ℕ := (addr >>> 21) &&& 0x1ff

/-- `PTE(addr)`. -/
def pte (addr : ℕ) : ℕ := (addr >>> 12) &&& 0x1ff

/-- `PRESENT_BIT`. -/
def presentBit : ℕ := 0x1

/-- `PT_ADDRESS_MASK`. -/
def ptAddressMask : ℕ := 0x7ffffffffffff000

/-- `H_PAGES`. -/
def hPages : ℕ := 0x80

/-- `-1` as an `unsigned long long`. -/
def noFrame : ℕ := 2 ^ 64 - 1

/-- The value of an `int` as an `unsigned long long`. -/
def ofInt (x : ℤ) : ℕ := (x % 2 ^ 64).toNat

/-- `get_phys_frame`.  The page tables are read through the direct mapping of the kernel:
`Paging.entry` gives an entry for every address that the masks leave, as though each could be read.
-/
def getPhysFrame (p : Paging) (addr : ℕ) : ℕ :=
  let pml4e := p.entry p.root (pml4 addr)
  if pml4e &&& presentBit = 0 then noFrame
  else
    let pdpe := p.entry (pml4e &&& ptAddressMask) (pdp addr)
    if pdpe &&& presentBit = 0 then noFrame
    else if pdpe &&& hPages ≠ 0 then noFrame
    else
      let pdee := p.entry (pdpe &&& ptAddressMask) (pde addr)
      if pdee &&& presentBit = 0 then noFrame
      else if pdee &&& hPages ≠ 0 then ofInt (toInt ((pdee &&& ptAddressMask) >>> 12 : ℕ))
      else
        let ptee := p.entry (pdee &&& ptAddressMask) (pte addr)
        if ptee &&& presentBit = 0 then noFrame
        else ofInt (toInt ((ptee &&& ptAddressMask) >>> 12 : ℕ))

/-- A mask of `k` bits from bit `n` on. -/
theorem and_mask (e n k : ℕ) : e &&& (2 ^ k - 1) * 2 ^ n = e / 2 ^ n % 2 ^ k * 2 ^ n := by
  apply Nat.eq_of_testBit_eq
  intro i
  rw [Nat.testBit_and, Nat.testBit_mul_two_pow, Nat.testBit_mul_two_pow, Nat.testBit_two_pow_sub_one,
    Nat.testBit_mod_two_pow, Nat.testBit_div_two_pow]
  by_cases hi : n ≤ i
  · simp [hi, Nat.sub_add_cancel hi, Bool.and_comm]
  · simp [hi]

/-! ## Translation

The walk of the processor, for pages of all three sizes.  It is what a memory access goes by. -/

/-- The bits of an entry that the processor takes for an address: a physical address has 52. -/
def frameMask : ℕ := 0x000ffffffffff000

/-- The place of an address in the page of `2 ^ bits` bytes that an entry points to. -/
def inPage (bits e addr : ℕ) : ℕ := (e &&& frameMask) / 2 ^ bits * 2 ^ bits + addr % 2 ^ bits

/-- The physical address of `addr`, if it is mapped. -/
def translate (p : Paging) (addr : ℕ) : Option ℕ :=
  let pml4e := p.entry p.root (pml4 addr)
  if pml4e &&& presentBit = 0 then none
  else
    let pdpe := p.entry (pml4e &&& frameMask) (pdp addr)
    if pdpe &&& presentBit = 0 then none
    else if pdpe &&& hPages ≠ 0 then some (inPage 30 pdpe addr)
    else
      let pdee := p.entry (pdpe &&& frameMask) (pde addr)
      if pdee &&& presentBit = 0 then none
      else if pdee &&& hPages ≠ 0 then some (inPage 21 pdee addr)
      else
        let ptee := p.entry (pdee &&& frameMask) (pte addr)
        if ptee &&& presentBit = 0 then none else some (inPage 12 ptee addr)

theorem inPage_mod {bits : ℕ} (h : 12 ≤ bits) (e addr : ℕ) :
    inPage bits e addr % 4096 = addr % 4096 := by
  have hdvd : 4096 ∣ 2 ^ bits := Nat.pow_dvd_pow 2 h
  rw [inPage, Nat.add_mod, Nat.mod_eq_zero_of_dvd (Nat.dvd_mul_left_of_dvd hdvd _), Nat.zero_add,
    Nat.mod_mod,
    Nat.mod_mod_of_dvd _ hdvd]

/-- **The translation keeps the offset in a page.** -/
theorem translate_mod {p : Paging} {addr x : ℕ} (h : translate p addr = some x) :
    x % 4096 = addr % 4096 := by
  unfold translate at h
  dsimp only at h
  split_ifs at h
  all_goals
    obtain rfl := Option.some.inj h
    exact inPage_mod (by decide) _ _

/-- Bytes of two words that start less than a page apart have different images. -/
theorem cell_inj {p : Paging} {a b i j : ℕ} (ha : Mapped (translate p) a)
    (hb : Mapped (translate p) b) (hi : i < 8) (hj : j < 8)
    (hle : a + i ≤ b + j) (hlt : b + j < a + i + 4096)
    (h : cell (translate p) a i = cell (translate p) b j) : a + i = b + j := by
  obtain ⟨x, hx⟩ := Option.isSome_iff_exists.1 (ha i hi)
  obtain ⟨y, hy⟩ := Option.isSome_iff_exists.1 (hb j hj)
  have hxm := translate_mod hx
  have hym := translate_mod hy
  rw [cell, cell, hx, hy, Option.getD_some, Option.getD_some] at h
  omega

end TagAos.Syscall
