import Mathlib.Logic.Function.Basic
import Mathlib.Tactic.SplitIfs
import Mathlib.Order.Nat
import Mathlib.Data.Nat.Notation

/-!
# Words in a memory of bytes

A memory is a map from physical addresses to bytes.  A program reaches it through a partial map
from the addresses it uses, byte by byte: an address without an image faults.  `load` and `store`
access eight bytes, the least significant first.

* `load_eq_some` — a load in terms of the bytes it reads.
* `store_byte` — a store in terms of the bytes it writes.
* `load_store` — a load after a store of the same word.
* `load_congr` — a load after a change elsewhere.

Nothing is assumed of the map of addresses; that the bytes of a word are distinct is a hypothesis
of the lemma that needs it.
-/

set_option autoImplicit false

namespace Bytes

/-! ## The bytes of a word

Taking the bytes of a word and putting them together are inverse to each other. -/

/-- A word of eight bytes. -/
abbrev Word := BitVec 64

/-- Byte `i` of a word, from the least significant. -/
def byteOf (w : Word) (i : ℕ) : BitVec 8 := w.extractLsb' (8 * i) 8

/-- The word with the given bytes. -/
def ofBytes (f : ℕ → BitVec 8) : Word := f 7 ++ f 6 ++ f 5 ++ f 4 ++ f 3 ++ f 2 ++ f 1 ++ f 0

theorem getLsbD_ofBytes (f : ℕ → BitVec 8) (k : ℕ) :
    (ofBytes f).getLsbD k = if k < 64 then (f (k / 8)).getLsbD (k % 8) else false := by
  simp only [ofBytes, BitVec.getLsbD_append]
  grind

theorem byteOf_ofBytes (f : ℕ → BitVec 8) {i : ℕ} (hi : i < 8) : byteOf (ofBytes f) i = f i := by
  apply BitVec.eq_of_getLsbD_eq
  intro k hk
  rw [byteOf, BitVec.getLsbD_extractLsb', getLsbD_ofBytes]
  grind

theorem ofBytes_byteOf (w : Word) : ofBytes (byteOf w) = w := by
  apply BitVec.eq_of_getLsbD_eq
  intro k hk
  rw [getLsbD_ofBytes, if_pos hk, byteOf, BitVec.getLsbD_extractLsb']
  grind

theorem ofBytes_congr {f g : ℕ → BitVec 8} (h : ∀ i < 8, f i = g i) : ofBytes f = ofBytes g := by
  rw [ofBytes, ofBytes, h 0 (by omega), h 1 (by omega), h 2 (by omega), h 3 (by omega),
    h 4 (by omega), h 5 (by omega), h 6 (by omega), h 7 (by omega)]

/-! ## Access

Memory is accessed at virtual addresses, byte by byte through a translation.  A word can be accessed
if each of its bytes can. -/

/-- A memory. -/
abbrev Memory := ℕ → BitVec 8

variable (tr : ℕ → Option ℕ)

/-- Every byte of the word at `a` has an image. -/
def Mapped (a : ℕ) : Prop := ∀ i < 8, (tr (a + i)).isSome

instance (a : ℕ) : Decidable (Mapped tr a) := inferInstanceAs (Decidable (∀ i < 8, _))

/-- The place of byte `i` of the word at `a`. -/
def cell (a i : ℕ) : ℕ := (tr (a + i)).getD 0

/-- The word at `a`. -/
def load (m : Memory) (a : ℕ) : Option Word :=
  if Mapped tr a then some (ofBytes fun i => m (cell tr a i)) else none

/-- The first `n` bytes of a word are written. -/
def storeBytes (m : Memory) (a : ℕ) (w : Word) : ℕ → Memory
  | 0 => m
  | n + 1 => Function.update (storeBytes m a w n) (cell tr a n) (byteOf w n)

/-- The memory after a word is written at `a`. -/
def store (m : Memory) (a : ℕ) (w : Word) : Option Memory :=
  if Mapped tr a then some (storeBytes tr m a w 8) else none

variable {tr} {m m' : Memory} {a : ℕ} {w : Word}

/-- A load in terms of the bytes it reads. -/
theorem load_eq_some :
    load tr m a = some w ↔ Mapped tr a ∧ ∀ i < 8, m (cell tr a i) = byteOf w i := by
  rw [load]
  constructor
  · intro h
    split_ifs at h with hmapped
    obtain rfl := Option.some.inj h
    exact ⟨hmapped, fun i hi => (byteOf_ofBytes (fun i => m (cell tr a i)) hi).symm⟩
  · rintro ⟨hmapped, hbytes⟩
    rw [if_pos hmapped, ofBytes_congr hbytes, ofBytes_byteOf]

theorem store_isSome (h : Mapped tr a) : ∃ m', store tr m a w = some m' := ⟨_, if_pos h⟩

theorem mapped_of_store (h : store tr m a w = some m') : Mapped tr a := by
  rw [store] at h
  split_ifs at h with hmapped
  exact hmapped

/-- A store in terms of the bytes it writes. -/
theorem store_byte (h : store tr m a w = some m') (p : ℕ) :
    m' p = m p ∧ (∀ i < 8, cell tr a i ≠ p) ∨ ∃ i < 8, cell tr a i = p ∧ m' p = byteOf w i := by
  have hbytes : ∀ n ≤ 8, storeBytes tr m a w n p = m p ∧ (∀ i < n, cell tr a i ≠ p) ∨
      ∃ i < n, cell tr a i = p ∧ storeBytes tr m a w n p = byteOf w i := by
    intro n
    induction n with
    | zero => exact fun _ => .inl ⟨rfl, fun i hi => absurd hi i.not_lt_zero⟩
    | succ n ih =>
      intro hn
      rw [storeBytes]
      by_cases hp : cell tr a n = p
      · subst hp
        exact .inr ⟨n, n.lt_succ_self, rfl, Function.update_self ..⟩
      · rw [Function.update_of_ne (Ne.symm hp)]
        rcases ih (by omega) with ⟨heq, hne⟩ | ⟨i, hi, hcell, heq⟩
        · refine .inl ⟨heq, fun i hi => ?_⟩
          rcases Nat.lt_succ_iff_lt_or_eq.1 hi with hi | rfl
          · exact hne i hi
          · exact hp
        · exact .inr ⟨i, by omega, hcell, heq⟩
  rw [store, if_pos (mapped_of_store h)] at h
  obtain rfl := Option.some.inj h
  exact hbytes 8 le_rfl

/-- What a store writes is read back, when the bytes of the word are distinct. -/
theorem load_store (hinj : ∀ i < 8, ∀ j < 8, cell tr a i = cell tr a j → i = j)
    (h : store tr m a w = some m') : load tr m' a = some w := by
  refine load_eq_some.2 ⟨mapped_of_store h, fun i hi => ?_⟩
  rcases store_byte h (cell tr a i) with ⟨-, hne⟩ | ⟨j, hj, hcell, heq⟩
  · exact absurd rfl (hne i hi)
  · rw [heq, hinj j hj i hi hcell]

/-- A word whose bytes are the same is the same. -/
theorem load_congr (h : ∀ i < 8, m' (cell tr a i) = m (cell tr a i)) :
    load tr m' a = load tr m a := by
  rw [load, load, ofBytes_congr h]

end Bytes
