import Mathlib.Data.Int.Order.Basic
import Mathlib.Data.Nat.Basic

/-!
# The bitmask of descriptors

`bitmask.c`: numbers below `n_bits` are handed out by `get_avail_number` and given back by
`clear_number`.  The mask is a list of 64-bit slots, lowest numbers first.

`Bitmask.bit` is the set that the mask stands for.  `getAvailNumber_spec` and `clearNumber_spec`
say what the two operations do to it; nothing outside this file looks at slots.
-/

set_option autoImplicit false

namespace TagAos.Registry

/-! ## One slot

The three macros, and the search for a clear bit. -/

/-- `CHECK_BIT`. -/
def checkBit (mask : BitVec 64) (pos : ℕ) : BitVec 64 := mask &&& (1#64 <<< pos)

/-- `SET_BIT`. -/
def setBit (mask : BitVec 64) (pos : ℕ) : BitVec 64 := mask ||| (1#64 <<< pos)

/-- `CLEAR_BIT`. -/
def clearBit (mask : BitVec 64) (pos : ℕ) : BitVec 64 := mask &&& ~~~(1#64 <<< pos)

/-- `get_free_bit`; `none` is the result -1. -/
def getFreeBit (mask : BitVec 64) : Option ℕ :=
  (List.range 64).find? fun bit => checkBit mask bit = 0

theorem getLsbD_bit {pos k : ℕ} (hk : k < 64) :
    (1#64 <<< pos).getLsbD k = decide (k = pos) := by
  rw [BitVec.getLsbD_shiftLeft, BitVec.getLsbD_one]
  rcases lt_trichotomy k pos with h | rfl | h
  · simp [h, ne_of_lt h]
  · simp [hk]
  · simp [hk, ne_of_gt h, not_lt.2 (le_of_lt h), Nat.sub_ne_zero_of_lt h]

theorem checkBit_eq_zero {mask : BitVec 64} {pos : ℕ} (h : pos < 64) :
    checkBit mask pos = 0 ↔ mask.getLsbD pos = false := by
  constructor
  · intro h0
    have := congrArg (fun m => m.getLsbD pos) h0
    simpa [checkBit, getLsbD_bit h] using this
  · intro h0
    refine BitVec.eq_of_getLsbD_eq fun k hk => ?_
    rw [checkBit, BitVec.getLsbD_and, getLsbD_bit hk]
    by_cases hkp : k = pos
    · subst hkp; simp [h0]
    · simp [hkp]

theorem getLsbD_setBit {mask : BitVec 64} {pos k : ℕ} (hk : k < 64) :
    (setBit mask pos).getLsbD k = (decide (k = pos) || mask.getLsbD k) := by
  rw [setBit, BitVec.getLsbD_or, getLsbD_bit hk, Bool.or_comm]

theorem getLsbD_clearBit {mask : BitVec 64} {pos k : ℕ} (hk : k < 64) :
    (clearBit mask pos).getLsbD k = (!decide (k = pos) && mask.getLsbD k) := by
  rw [clearBit, BitVec.getLsbD_and, BitVec.getLsbD_not, getLsbD_bit hk, Bool.and_comm]
  simp [hk]

theorem getFreeBit_spec {mask : BitVec 64} {bit : ℕ} (h : getFreeBit mask = some bit) :
    bit < 64 ∧ mask.getLsbD bit = false := by
  have hlt : bit < 64 := List.mem_range.1 (List.mem_of_find?_eq_some h)
  have hfree := List.find?_some h
  simp only [decide_eq_true_eq] at hfree
  exact ⟨hlt, (checkBit_eq_zero hlt).1 hfree⟩

/-- The lowest clear bit is found first. -/
theorem getFreeBit_least {mask : BitVec 64} {bit : ℕ} (h : getFreeBit mask = some bit) {k : ℕ}
    (hk : k < bit) : mask.getLsbD k = true := by
  have hlt : k < 64 := lt_trans hk (getFreeBit_spec h).1
  rw [getFreeBit, List.find?_range_eq_some] at h
  have hset := h.2.2 k hk
  rw [Bool.not_eq_true', decide_eq_false_iff_not, checkBit_eq_zero hlt] at hset
  simpa using hset

theorem getFreeBit_none {mask : BitVec 64} (h : getFreeBit mask = none) {k : ℕ} (hk : k < 64) :
    mask.getLsbD k = true := by
  rw [getFreeBit, List.find?_eq_none] at h
  have hset := h k (List.mem_range.2 hk)
  rw [decide_eq_true_eq, checkBit_eq_zero hk] at hset
  simpa using hset

/-! ## A list of slots

The loop over the slots stops at the first one with a clear bit, which is the lowest clear bit of
all if the slots before it are full. -/

/-- Bit `k` of the slots `ws`. -/
def bitAt (ws : List (BitVec 64)) (k : ℕ) : Bool := (ws.getD (k / 64) 0).getLsbD (k % 64)

theorem bitAt_cons (w : BitVec 64) (ws : List (BitVec 64)) (k : ℕ) :
    bitAt (w :: ws) k = if k < 64 then w.getLsbD k else bitAt ws (k - 64) := by
  by_cases hk : k < 64
  · simp [bitAt, hk, Nat.div_eq_of_lt hk, Nat.mod_eq_of_lt hk]
  · obtain ⟨j, rfl⟩ := Nat.exists_eq_add_of_le (not_lt.1 hk)
    have h1 : (64 + j) / 64 = j / 64 + 1 := by omega
    have h2 : (64 + j) % 64 = j % 64 := by omega
    simp [bitAt, h1, h2]

theorem bitAt_set {ws : List (BitVec 64)} {i : ℕ} (hi : i < ws.length) (w : BitVec 64) (k : ℕ) :
    bitAt (ws.set i w) k = if k / 64 = i then w.getLsbD (k % 64) else bitAt ws k := by
  by_cases hk : k / 64 = i
  · subst hk; simp [bitAt, hi]
  · simp [bitAt, hk, List.getElem?_set_ne (Ne.symm hk)]

/-- The loop of `get_avail_number` from slot `i` on: the number it finds, and the slots with the
bit of that number set. -/
def availFrom (nBits i : ℕ) : List (BitVec 64) → Option (ℕ × List (BitVec 64))
  | [] => none
  | slotMask :: rest =>
    -- mask is full
    if slotMask = BitVec.allOnes 64 then
      (availFrom nBits (i + 1) rest).map fun r => (r.1, slotMask :: r.2)
    else
      match getFreeBit slotMask with
      | none => (availFrom nBits (i + 1) rest).map fun r => (r.1, slotMask :: r.2)
      | some freeBit =>
        let number := freeBit + i * 64
        if nBits ≤ number then none else some (number, setBit slotMask freeBit :: rest)

/-- What the loop finds: position `j` of the slots it was given. -/
structure Found (nBits i : ℕ) (ws : List (BitVec 64)) (number : ℕ) (ws' : List (BitVec 64))
    (j : ℕ) : Prop where
  number_eq : number = j + i * 64
  lt : number < nBits
  clear : bitAt ws j = false
  bits : ∀ k, bitAt ws' k = (decide (k = j) || bitAt ws k)
  length : ws'.length = ws.length

theorem Found.cons {nBits i number j : ℕ} {w : BitVec 64} {ws ws' : List (BitVec 64)}
    (h : Found nBits (i + 1) ws number ws' j) :
    Found nBits i (w :: ws) number (w :: ws') (j + 64) where
  number_eq := by rw [h.number_eq]; omega
  lt := h.lt
  clear := by
    rw [bitAt_cons, if_neg (by omega), Nat.add_sub_cancel]
    exact h.clear
  bits k := by
    rw [bitAt_cons, bitAt_cons]
    by_cases hk : k < 64
    · simp [hk, show k ≠ j + 64 by omega]
    · simp [hk, h.bits, show k - 64 = j ↔ k = j + 64 by omega]
  length := by simp [h.length]

theorem availFrom_found {nBits i : ℕ} {ws : List (BitVec 64)} {number : ℕ}
    {ws' : List (BitVec 64)} (h : availFrom nBits i ws = some (number, ws')) :
    ∃ j, Found nBits i ws number ws' j := by
  induction ws generalizing i number ws' with
  | nil => cases h
  | cons w ws ih =>
    have hrest : ∀ {r : Option (ℕ × List (BitVec 64))}, r = availFrom nBits (i + 1) ws →
        r.map (fun r => (r.1, w :: r.2)) = some (number, ws') →
        ∃ j, Found nBits i (w :: ws) number ws' j := by
      rintro r rfl hr
      simp only [Option.map_eq_some_iff, Prod.mk.injEq] at hr
      obtain ⟨⟨n, vs⟩, hr, rfl, rfl⟩ := hr
      obtain ⟨j, hj⟩ := ih hr
      exact ⟨j + 64, hj.cons⟩
    rw [availFrom] at h
    split at h
    · exact hrest rfl h
    · split at h
      · exact hrest rfl h
      · rename_i bit hbit
        obtain ⟨hlt, hclear⟩ := getFreeBit_spec hbit
        simp only [Option.ite_none_left_eq_some, Option.some.injEq, Prod.mk.injEq] at h
        obtain ⟨hn, rfl, rfl⟩ := h
        refine ⟨bit, rfl, not_le.1 hn, by rw [bitAt_cons, if_pos hlt, hclear], fun k => ?_, by simp⟩
        rw [bitAt_cons, bitAt_cons]
        by_cases hk : k < 64
        · rw [if_pos hk, if_pos hk, getLsbD_setBit hk]
        · simp [hk, show k ≠ bit by omega]

/-- A slot that the loop passes over has no clear bit. -/
theorem bitAt_of_passed {w : BitVec 64} {ws : List (BitVec 64)} {k n : ℕ}
    (hw : w = BitVec.allOnes 64 ∨ getFreeBit w = none)
    (hrest : ∀ j, 64 + j < n → bitAt ws j = true) (hk : k < n) : bitAt (w :: ws) k = true := by
  rw [bitAt_cons]
  split
  · rename_i h64
    rcases hw with rfl | hw
    · rw [BitVec.getLsbD_allOnes, decide_eq_true h64]
    · exact getFreeBit_none hw h64
  · rename_i h64
    exact hrest (k - 64) (by omega)

/-- Below the number that the loop finds every bit is set. -/
theorem availFrom_least {nBits i : ℕ} {ws : List (BitVec 64)} {number : ℕ}
    {ws' : List (BitVec 64)} (h : availFrom nBits i ws = some (number, ws')) {k : ℕ}
    (hk : k + i * 64 < number) : bitAt ws k = true := by
  induction ws generalizing i number ws' k with
  | nil => cases h
  | cons w ws ih =>
    have hpass : (w = BitVec.allOnes 64 ∨ getFreeBit w = none) →
        ∀ {r}, availFrom nBits (i + 1) ws = some r → r.1 = number →
          bitAt (w :: ws) k = true := by
      rintro hw ⟨n, vs⟩ hr rfl
      exact bitAt_of_passed (n := n - i * 64) hw (fun j hj => ih hr (by omega)) (by omega)
    rw [availFrom] at h
    split at h
    · rename_i hfull
      obtain ⟨r, hr, heq⟩ := Option.map_eq_some_iff.1 h
      exact hpass (.inl hfull) hr (congrArg Prod.fst heq)
    · split at h
      · rename_i hnone
        obtain ⟨r, hr, heq⟩ := Option.map_eq_some_iff.1 h
        exact hpass (.inr hnone) hr (congrArg Prod.fst heq)
      · rename_i bit hbit
        simp only [Option.ite_none_left_eq_some, Option.some.injEq, Prod.mk.injEq] at h
        obtain ⟨-, rfl, -⟩ := h
        have hkb : k < bit := by omega
        rw [bitAt_cons, if_pos (lt_trans hkb (getFreeBit_spec hbit).1)]
        exact getFreeBit_least hbit hkb

/-- When the loop finds nothing, every bit that is a number is set. -/
theorem availFrom_none {nBits i : ℕ} {ws : List (BitVec 64)} (h : availFrom nBits i ws = none)
    {k : ℕ} (hk : k + i * 64 < nBits) (hlen : k < 64 * ws.length) : bitAt ws k = true := by
  induction ws generalizing i k with
  | nil => simp at hlen
  | cons w ws ih =>
    have hpass : (w = BitVec.allOnes 64 ∨ getFreeBit w = none) →
        availFrom nBits (i + 1) ws = none → bitAt (w :: ws) k = true := by
      intro hw hr
      rw [List.length_cons] at hlen
      exact bitAt_of_passed (n := k + 1) hw (fun j hj => ih hr (by omega) (by omega)) (by omega)
    rw [availFrom] at h
    split at h
    · rename_i hfull
      exact hpass (.inl hfull) (Option.map_eq_none_iff.1 h)
    · split at h
      · rename_i hnone
        exact hpass (.inr hnone) (Option.map_eq_none_iff.1 h)
      · rename_i bit hbit
        -- the number that was found lies beyond the last one
        have hover : nBits ≤ bit + i * 64 := by
          by_contra hlt
          simp [hlt] at h
        have hkb : k < bit := by omega
        rw [bitAt_cons, if_pos (lt_trans hkb (getFreeBit_spec hbit).1)]
        exact getFreeBit_least hbit hkb

/-! ## The bitmask

Two things are said of each function: what it answers, and that all other numbers stay as they are.
-/

/-- `bitmask_t`: the slots, and the number of bits in use. -/
structure Bitmask where
  mask : List (BitVec 64)
  nBits : ℕ
  /-- There are slots for all the bits. -/
  fits : nBits ≤ 64 * mask.length

/-- `initialize_bitmask`, when the allocations succeed. -/
def initializeBitmask (numberBits : ℕ) : Bitmask where
  mask := List.replicate (numberBits / 64 + if numberBits % 64 = 0 then 0 else 1) 0
  nBits := numberBits
  fits := by
    rw [List.length_replicate]
    split <;> omega

namespace Bitmask

/-- Number `k` is in use. -/
def bit (b : Bitmask) (k : ℕ) : Bool := bitAt b.mask k

/-- `get_avail_number`; `none` is the result -1. -/
def getAvailNumber (b : Bitmask) : Option (ℕ × Bitmask) :=
  match h : availFrom b.nBits 0 b.mask with
  | none => none
  | some (number, mask) =>
    some (number, ⟨mask, b.nBits, by
      obtain ⟨j, hj⟩ := availFrom_found h
      rw [hj.length]
      exact b.fits⟩)

/-- `clear_number`. -/
def clearNumber (b : Bitmask) (number : ℕ) : ℤ × Bitmask :=
  if b.nBits ≤ number then (-1, b)
  else
    let slotMask := b.mask.getD (number / 64) 0
    if checkBit slotMask (number % 64) = 0 then (0, b)
    else (1, ⟨b.mask.set (number / 64) (clearBit slotMask (number % 64)), b.nBits, by
      rw [List.length_set]
      exact b.fits⟩)

theorem bit_initializeBitmask (n k : ℕ) : (initializeBitmask n).bit k = false := by
  rw [bit, bitAt, initializeBitmask, List.getD_eq_getElem?_getD, List.getElem?_replicate]
  split_ifs <;> simp

/-- **The number that is handed out** was not in use, and is in use afterwards; nothing else
changes. -/
theorem getAvailNumber_spec {b b' : Bitmask} {number : ℕ}
    (h : b.getAvailNumber = some (number, b')) :
    number < b.nBits ∧ b'.nBits = b.nBits ∧ b.bit number = false ∧
      ∀ k, b'.bit k = (decide (k = number) || b.bit k) := by
  rw [getAvailNumber] at h
  split at h
  · cases h
  · rename_i n mask hfrom
    cases h
    obtain ⟨j, hj⟩ := availFrom_found hfrom
    obtain rfl : number = j := by simpa using hj.number_eq
    exact ⟨hj.lt, rfl, hj.clear, hj.bits⟩

/-- **The lowest number** that is not in use is handed out. -/
theorem getAvailNumber_least {b b' : Bitmask} {number : ℕ}
    (h : b.getAvailNumber = some (number, b')) {k : ℕ} (hk : k < number) : b.bit k = true := by
  rw [getAvailNumber] at h
  split at h
  · cases h
  · rename_i n mask hfrom
    cases h
    exact availFrom_least hfrom (by omega)

/-- No number is handed out only when all of them are in use. -/
theorem getAvailNumber_none {b : Bitmask} (h : b.getAvailNumber = none) {k : ℕ}
    (hk : k < b.nBits) : b.bit k = true := by
  rw [getAvailNumber] at h
  split at h
  · rename_i hfrom
    exact availFrom_none hfrom (by omega) (lt_of_lt_of_le hk b.fits)
  · cases h

/-- **A number in use is given back**, and nothing else changes. -/
theorem clearNumber_spec {b : Bitmask} {number : ℕ} (hlt : number < b.nBits)
    (hbit : b.bit number = true) :
    (b.clearNumber number).1 = 1 ∧ (b.clearNumber number).2.nBits = b.nBits ∧
      ∀ k, (b.clearNumber number).2.bit k = (!decide (k = number) && b.bit k) := by
  have hmod : number % 64 < 64 := Nat.mod_lt _ (by decide)
  have hslot : number / 64 < b.mask.length := by have := b.fits; omega
  have hset : ¬ checkBit (b.mask.getD (number / 64) 0) (number % 64) = 0 := by
    rw [checkBit_eq_zero hmod]
    simpa [bit, bitAt] using hbit
  rw [clearNumber, if_neg (not_le.2 hlt)]
  simp only [if_neg hset]
  refine ⟨trivial, trivial, fun k => ?_⟩
  have hk : k % 64 < 64 := Nat.mod_lt _ (by decide)
  rw [bit, bitAt_set hslot]
  by_cases hdiv : k / 64 = number / 64
  · have hiff : k % 64 = number % 64 ↔ k = number := by omega
    rw [if_pos hdiv, getLsbD_clearBit hk, bit, bitAt, hdiv]
    simp [hiff]
  · have hne : k ≠ number := fun h => hdiv (by rw [h])
    simp [hdiv, hne, bit]

end Bitmask

end TagAos.Registry
