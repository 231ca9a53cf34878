import TagAos.Registry.Consistency

/-!
# The creation of a tag and its memory

`tag_get(TAG_CREAT)` allocates an array of levels, each level with its buffer, and the tag.  When an
allocation fails, what was allocated before is freed and the descriptor and the key are given back.

Here the blocks of the heap are part of the state, `kzalloc` succeeds or fails as it likes, and
`kfree` and an access need a block that is live.  The table takes no memory here: it is never
resized (`Inv.not_grows`, `not_shrinks_new`).

* `tagCreate` — the call, with `common_lock` granted.
* `layout`, `addTagLevel_spec`, `clearTagLevel_spec` — the heap when some of the levels exist.
* `create_all_or_nothing` — nothing has changed, or there is a new tag and nothing else.
* `tagCreate_run` — the call is one of `TagAos.Registry.Calls`.
-/

set_option autoImplicit false

namespace TagAos.Registry

open Conc

/-! ## The heap

Blocks at addresses, and an allocator that fails when it is told to.  A double free or an access to
no block is undefined, and is `none` for the function that makes it. -/

/-- `tag_level_t`.  A pointer is an address, or null. -/
structure LevelBlock where
  level : ℕ
  buffer : Option ℕ
  size : ℕ
  ready : Bool
  epoch : ℤ
  waiting : ℤ

/-- `tag_t`. -/
structure TagBlock where
  /-- `key`, `tag_key`, `permission` and `euid`. -/
  entry : Entry
  ready : Bool
  /-- `tag_level`, the array of levels. -/
  tagLevel : ℕ
  waiting : ℤ

/-- What is in a block. -/
inductive Block
  /-- The array of pointers to the levels. -/
  | levels (ptr : ℕ → Option ℕ)
  | level (l : LevelBlock)
  | buffer (bytes : List UInt8)
  | tag (t : TagBlock)

/-- The heap. -/
structure Heap where
  /-- The blocks that are live. -/
  block : ℕ → Option Block
  /-- No block was ever allocated from here on. -/
  next : ℕ
  /-- How often `kzalloc` was called. -/
  calls : ℕ

namespace Heap

/-- There is nothing where nothing was allocated. -/
def Fresh (h : Heap) : Prop := ∀ a, h.next ≤ a → h.block a = none

/-- `kzalloc` of a block with the contents `b`.  `ok` says which of the calls succeed. -/
def kzalloc (ok : ℕ → Bool) (h : Heap) (b : Block) : Option ℕ × Heap :=
  if ok h.calls then
    (some h.next, ⟨Function.update h.block h.next (some b), h.next + 1, h.calls + 1⟩)
  else (none, { h with calls := h.calls + 1 })

/-- `kfree`. -/
def kfree (h : Heap) (a : ℕ) : Option Heap :=
  match h.block a with
  | none => none
  | some _ => some { h with block := Function.update h.block a none }

/-- The block at `a` gets the contents `b`. -/
def write (h : Heap) (a : ℕ) (b : Block) : Option Heap :=
  match h.block a with
  | none => none
  | some _ => some { h with block := Function.update h.block a (some b) }

/-- The array at `a`. -/
def levelsAt (h : Heap) (a : ℕ) : Option (ℕ → Option ℕ) :=
  match h.block a with
  | some (.levels ptr) => some ptr
  | _ => none

/-- The level at `a`. -/
def levelAt (h : Heap) (a : ℕ) : Option LevelBlock :=
  match h.block a with
  | some (.level l) => some l
  | _ => none

end Heap

/-! ## The functions

In the order of the source, with its pointers.  A null pointer and undefined behaviour are two
different things here, hence an `Option` inside of an `Option`. -/

/-- The buffer of a fresh level. -/
def zeroBuffer : Block := .buffer (List.replicate bufferSize 0)

/-- `create_level`; the inner `none` is the null pointer. -/
def createLevel (ok : ℕ → Bool) (i : ℕ) (epoch : ℤ) (h : Heap) : Option (Option ℕ × Heap) :=
  match h.kzalloc ok (.level ⟨0, none, 0, false, 0, 0⟩) with
  | (none, h) => some (none, h)
  | (some level, h) =>
    match h.kzalloc ok zeroBuffer with
    | (none, h) => (h.kfree level).map fun h => (none, h)
    | (some buffer, h) =>
      (h.write level (.level ⟨i, some buffer, 0, false, epoch, 0⟩)).map fun h => (some level, h)

/-- `add_tag_level` for the levels `is`: whether all of them were created. -/
def addTagLevel (ok : ℕ → Bool) (tagLevel : ℕ) : List ℕ → Heap → Option (Bool × Heap)
  | [], h => some (true, h)
  | i :: is, h => do
    match ← createLevel ok i 0 h with
    | (none, h) => some (false, h)
    | (some level, h) =>
      let ptr ← h.levelsAt tagLevel
      let h ← h.write tagLevel (.levels (Function.update ptr i (some level)))
      addTagLevel ok tagLevel is h

/-- `free_level`. -/
def freeLevel (level : ℕ) (h : Heap) : Option Heap := do
  let l ← h.levelAt level
  match l.buffer with
  | none => h.kfree level
  | some buffer =>
    let h ← h.kfree buffer
    h.kfree level

/-- `clear_tag_level` for the levels `is`. -/
def clearTagLevel (tagLevel : ℕ) : List ℕ → Heap → Option Heap
  | [], h => some h
  | i :: is, h => do
    let ptr ← h.levelsAt tagLevel
    match ptr i with
    | none => clearTagLevel tagLevel is h
    | some level =>
      let h ← freeLevel level h
      clearTagLevel tagLevel is h

/-- The registry, the pointers in `tags`, and the heap. -/
structure World where
  mem : Mem
  tags : ℕ → Option ℕ
  heap : Heap

/-- `tag_get` with `TAG_CREAT`, when its acquisitions of `common_lock` are granted at once: what it
returns, and what it leaves. -/
def tagCreate (ok : ℕ → Bool) (oom : Bool) (a : GetArgs) (w : World) : Option (ℤ × World) :=
  if a.key < 0 then some (-EINVAL, w)
  else if a.permission ≠ tagPermUsr ∧ a.permission ≠ tagPermAll then some (-EINVAL, w)
  else
    match w.mem.reserve a.key oom with
    | (mem, .error e) => some (-e, { w with mem := mem })
    | (mem, .ok tagKey) =>
      match w.heap.kzalloc ok (.levels fun _ => none) with
      | (none, heap) => some (-ENOMEM, ⟨mem.clearCommon a.key tagKey, w.tags, heap⟩)
      | (some tagLevel, heap) => do
        match ← addTagLevel ok tagLevel (List.range levels) heap with
        | (false, heap) =>
          let heap ← clearTagLevel tagLevel (List.range levels) heap
          let heap ← heap.kfree tagLevel
          some (-ENOMEM, ⟨mem.clearCommon a.key tagKey, w.tags, heap⟩)
        | (true, heap) =>
          let entry : Entry := ⟨a.key, tagKey, a.permission, a.euid⟩
          match heap.kzalloc ok (.tag ⟨⟨0, 0, 0, 0⟩, false, 0, 0⟩) with
          | (none, heap) =>
            let heap ← clearTagLevel tagLevel (List.range levels) heap
            let heap ← heap.kfree tagLevel
            some (-ENOMEM, ⟨mem.clearCommon a.key tagKey, w.tags, heap⟩)
          | (some tag, heap) =>
            let heap ← heap.write tag (.tag ⟨entry, false, tagLevel, 0⟩)
            some (tagKey,
              ⟨{ mem with tags := Function.update mem.tags tagKey (some entry) },
                Function.update w.tags tagKey (some tag), heap⟩)

/-! ## The reservation and its undoing

The way back is exact: not only is the descriptor free again, the mask and the table are the very
same values. -/

/-- A list of slots is known by its bits. -/
theorem eq_of_bitAt {ws ws' : List (BitVec 64)} (hlen : ws.length = ws'.length)
    (h : ∀ k, bitAt ws k = bitAt ws' k) : ws = ws' := by
  refine List.ext_getElem hlen fun i hi hi' => BitVec.eq_of_getLsbD_eq fun j hj => ?_
  have hk := h (64 * i + j)
  have h1 : (64 * i + j) / 64 = i := by omega
  have h2 : (64 * i + j) % 64 = j := by omega
  rw [bitAt, bitAt, h1, h2] at hk
  simpa [hi, hi'] using hk

/-- A bitmask is known by its numbers. -/
theorem Bitmask.eq_of_bit {b b' : Bitmask} (hlen : b.mask.length = b'.mask.length)
    (hn : b.nBits = b'.nBits) (h : ∀ k, b.bit k = b'.bit k) : b = b' := by
  obtain ⟨mask, n, _⟩ := b
  obtain ⟨mask', n', _⟩ := b'
  obtain rfl : mask = mask' := eq_of_bitAt hlen h
  obtain rfl : n = n' := hn
  rfl

theorem Bitmask.getAvailNumber_length {b b' : Bitmask} {d : ℕ}
    (h : b.getAvailNumber = some (d, b')) : b'.mask.length = b.mask.length := by
  rw [getAvailNumber] at h
  split at h
  · cases h
  · rename_i hfrom
    cases h
    obtain ⟨j, hj⟩ := availFrom_found hfrom
    exact hj.length

theorem Bitmask.clearNumber_length (b : Bitmask) (d : ℕ) :
    (b.clearNumber d).2.mask.length = b.mask.length := by
  rw [clearNumber]
  split_ifs
  · rfl
  · dsimp only
    split_ifs
    · rfl
    · exact List.length_set

/-- A number that has been handed out and given back leaves the very mask. -/
theorem Bitmask.clearNumber_getAvailNumber {b b' : Bitmask} {d : ℕ}
    (h : b.getAvailNumber = some (d, b')) : (b'.clearNumber d).2 = b := by
  obtain ⟨hbits, hn⟩ := clear_avail h
  exact eq_of_bit ((clearNumber_length b' d).trans (getAvailNumber_length h)) hn hbits

/-- A key that was not there leaves the table as it was. -/
theorem erase_insert {t : AList fun _ : ℤ => ℕ} {key : ℤ} {d : ℕ} (h : t.lookup key = none) :
    (t.insert key d).erase key = t := by
  have hkey : key ∉ t := AList.lookup_eq_none.1 h
  refine AList.ext ?_
  change List.kerase key (t.insert key d).entries = t.entries
  rw [AList.entries_insert_of_notMem hkey]
  exact List.kerase_cons_eq rfl

/-- A reservation that fails leaves the registry as it was. -/
theorem Mem.reserve_error {m m' : Mem} {key : ℤ} {oom : Bool} {e : ℤ}
    (hn : m.bitmask.nBits = maxTags) (h : m.reserve key oom = (m', .error e)) : m' = m ∧ 0 < e := by
  rw [reserve] at h
  split at h
  · cases h; exact ⟨rfl, by decide⟩
  · split at h
    · cases h; exact ⟨rfl, by decide⟩
    · rename_i d b havail
      have hlt : d < maxTags := hn ▸ (Bitmask.getAvailNumber_spec havail).1
      have hundo := Bitmask.clearNumber_getAvailNumber havail
      split_ifs at h with hmax hkey hin hoom
      · exact absurd hmax (not_le.2 hlt)
      · cases h
      · cases h; exact ⟨by rw [hundo], by decide⟩
      · cases h; exact ⟨by rw [hundo], by decide⟩
      · cases h

/-- A reservation that succeeds puts the key into the table. -/
theorem Mem.reserve_ok {m m' : Mem} {key : ℤ} {oom : Bool} {d : ℕ}
    (h : m.reserve key oom = (m', .ok d)) :
    m'.table = (if key = ipcPrivate then m.table else m.table.insert key d) ∧ m'.sem = m.sem := by
  rw [reserve] at h
  split at h
  · cases h
  · split at h
    · cases h
    · split_ifs at h with hmax hkey hin hoom
      · cases h
      · cases h; exact ⟨(if_pos hkey).symm, rfl⟩
      · cases h
      · cases h
      · cases h; exact ⟨(if_neg hkey).symm, rfl⟩

/-- **`clear_tag_common` undoes a reservation.** -/
theorem Mem.clearCommon_reserve {m m' : Mem} {key : ℤ} {oom : Bool} {d : ℕ}
    (h : m.reserve key oom = (m', .ok d)) : m'.clearCommon key d = m := by
  rw [reserve] at h
  split at h
  · cases h
  · split at h
    · cases h
    · rename_i d' b havail
      have hundo := Bitmask.clearNumber_getAvailNumber havail
      have hone : (b.clearNumber d').1 = 1 := by
        obtain ⟨hlt, hn, -, hbits⟩ := Bitmask.getAvailNumber_spec havail
        exact (Bitmask.clearNumber_spec (hn.symm ▸ hlt) (by simp [hbits])).1
      split_ifs at h with hmax hkey hin hoom
      · cases h
      · cases h
        simp [clearCommon, hone, hkey, hundo]
      · cases h
      · cases h
      · cases h
        have hnone : m.table.lookup key = none := by simpa using hin
        simp [clearCommon, hone, hkey, hundo, erase_insert hnone]

/-! ## What one level takes

A level is two blocks, and if the second one cannot be had the first is freed at once. -/

section Heap

variable {ok : ℕ → Bool} {h : Heap}

theorem kfree_of_block {a : ℕ} {b : Block} (hb : h.block a = some b) :
    h.kfree a = some { h with block := Function.update h.block a none } := by
  rw [Heap.kfree, hb]

theorem write_of_block {a : ℕ} {b b' : Block} (hb : h.block a = some b') :
    h.write a b = some { h with block := Function.update h.block a (some b) } := by
  rw [Heap.write, hb]

/-- `create_level` leaves the heap as it was, or with a level and its buffer. -/
theorem createLevel_spec (ok : ℕ → Bool) (hf : h.Fresh) (i : ℕ) (e : ℤ) :
    (∃ h', createLevel ok i e h = some (none, h') ∧ h'.block = h.block ∧ h.next ≤ h'.next) ∨
      ∃ h', createLevel ok i e h = some (some h.next, h') ∧ h'.next = h.next + 2 ∧
        h'.block = Function.update
          (Function.update h.block h.next (some (.level ⟨i, some (h.next + 1), 0, false, e, 0⟩)))
          (h.next + 1) (some zeroBuffer) := by
  rw [createLevel, Heap.kzalloc]
  by_cases h1 : ok h.calls
  swap
  · rw [if_neg h1]
    exact .inl ⟨_, rfl, rfl, le_rfl⟩
  rw [if_pos h1]
  dsimp only
  rw [Heap.kzalloc]
  by_cases h2 : ok (h.calls + 1)
  · rw [if_pos h2]
    dsimp only
    have hne : h.next ≠ h.next + 1 := by omega
    have hlevel : Function.update (Function.update h.block h.next
        (some (.level ⟨0, none, 0, false, 0, 0⟩))) (h.next + 1) (some zeroBuffer) h.next =
        some (.level ⟨0, none, 0, false, 0, 0⟩) := by
      rw [Function.update_of_ne hne, Function.update_self]
    rw [write_of_block hlevel]
    refine .inr ⟨_, rfl, rfl, ?_⟩
    dsimp only
    rw [Function.update_comm hne.symm, Function.update_idem]
  · rw [if_neg h2]
    dsimp only
    rw [kfree_of_block (b := .level ⟨0, none, 0, false, 0, 0⟩) (Function.update_self ..)]
    refine .inl ⟨_, rfl, ?_, Nat.le_succ _⟩
    dsimp only
    rw [Function.update_idem, ← hf h.next le_rfl, Function.update_eq_self]

/-! ## Some of the levels

What the heap looks like when some of the levels have been allocated, and when some of these have
been freed again.  The loops are followed through these two descriptions. -/

/-- The blocks `base` with an array at `n`, `j` levels behind it, and their buffers. -/
def layout (base : ℕ → Option Block) (n j : ℕ) (x : ℕ) : Option Block :=
  if x = n then some (.levels fun i => if i < j then some (n + 1 + 2 * i) else none)
  else if n < x ∧ x < n + 1 + 2 * j then
    if (x - n) % 2 = 1 then some (.level ⟨(x - n) / 2, some (x + 1), 0, false, 0, 0⟩)
    else some zeroBuffer
  else base x

/-- The same when `i` of the levels have been freed. -/
def cleared (base : ℕ → Option Block) (n j i : ℕ) (x : ℕ) : Option Block :=
  if n < x ∧ x < n + 1 + 2 * min i j then none else layout base n j x

section Layout

variable {base : ℕ → Option Block} {n j : ℕ}

theorem layout_array : layout base n j n =
    some (.levels fun i => if i < j then some (n + 1 + 2 * i) else none) := if_pos rfl

theorem layout_level {i : ℕ} (hi : i < j) : layout base n j (n + 1 + 2 * i) =
    some (.level ⟨i, some (n + 2 + 2 * i), 0, false, 0, 0⟩) := by
  rw [layout, if_neg (by omega), if_pos (by omega), if_pos (by omega)]
  have h1 : (n + 1 + 2 * i - n) / 2 = i := by omega
  have h2 : n + 1 + 2 * i + 1 = n + 2 + 2 * i := by omega
  rw [h1, h2]

theorem layout_buffer {i : ℕ} (hi : i < j) :
    layout base n j (n + 2 + 2 * i) = some zeroBuffer := by
  rw [layout, if_neg (by omega), if_pos (by omega), if_neg (by omega)]

theorem layout_base {x : ℕ} (hx : x < n ∨ n + 1 + 2 * j ≤ x) : layout base n j x = base x := by
  rw [layout, if_neg (by omega), if_neg (by omega)]

theorem layout_zero : layout base n 0 =
    Function.update base n (some (.levels fun _ => none)) := by
  funext x
  by_cases hx : x = n
  · subst hx
    rw [layout_array, Function.update_self]
    simp
  · rw [Function.update_of_ne hx, layout_base (by omega)]

/-- One more level. -/
theorem layout_succ : layout base n (j + 1) =
    Function.update
      (Function.update
        (Function.update (layout base n j) (n + 1 + 2 * j)
          (some (.level ⟨j, some (n + 2 + 2 * j), 0, false, 0, 0⟩)))
        (n + 2 + 2 * j) (some zeroBuffer))
      n (some (.levels (Function.update (fun i => if i < j then some (n + 1 + 2 * i) else none) j
        (some (n + 1 + 2 * j))))) := by
  funext x
  by_cases hx : x = n
  · subst hx
    rw [layout_array, Function.update_self]
    refine congrArg (fun ptr => some (Block.levels ptr)) (funext fun i => ?_)
    by_cases hi : i = j
    · subst hi
      rw [Function.update_self, if_pos (Nat.lt_succ_self i)]
    · rw [Function.update_of_ne hi]
      by_cases hlt : i < j
      · rw [if_pos hlt, if_pos (by omega)]
      · rw [if_neg hlt, if_neg (by omega)]
  rw [Function.update_of_ne hx]
  by_cases hb : x = n + 2 + 2 * j
  · subst hb
    rw [Function.update_self, layout_buffer (Nat.lt_succ_self j)]
  rw [Function.update_of_ne hb]
  by_cases hl : x = n + 1 + 2 * j
  · subst hl
    rw [Function.update_self, layout_level (Nat.lt_succ_self j)]
  rw [Function.update_of_ne hl, layout, layout, if_neg hx, if_neg hx]
  by_cases hin : n < x ∧ x < n + 1 + 2 * j
  · rw [if_pos hin, if_pos (by omega)]
  · rw [if_neg hin, if_neg (by omega)]

theorem cleared_zero : cleared base n j 0 = layout base n j := by
  funext x
  rw [cleared, if_neg (by omega)]

/-- One level less. -/
theorem cleared_succ {i : ℕ} (hi : i < j) : cleared base n j (i + 1) =
    Function.update (Function.update (cleared base n j i) (n + 2 + 2 * i) none)
      (n + 1 + 2 * i) none := by
  funext x
  by_cases hl : x = n + 1 + 2 * i
  · subst hl
    rw [Function.update_self, cleared, if_pos (by omega)]
  rw [Function.update_of_ne hl]
  by_cases hb : x = n + 2 + 2 * i
  · subst hb
    rw [Function.update_self, cleared, if_pos (by omega)]
  rw [Function.update_of_ne hb, cleared, cleared]
  by_cases hin : n < x ∧ x < n + 1 + 2 * min i j
  · rw [if_pos hin, if_pos (by omega)]
  · rw [if_neg hin, if_neg (by omega)]

theorem cleared_of_le {i : ℕ} (hi : j ≤ i) : cleared base n j (i + 1) = cleared base n j i := by
  funext x
  rw [cleared, cleared, Nat.min_eq_right hi, Nat.min_eq_right (hi.trans (Nat.le_succ i))]

/-- When all the levels and the array are freed, nothing is left. -/
theorem cleared_all (hbase : ∀ x, n ≤ x → base x = none) {i : ℕ} (hi : j ≤ i) :
    Function.update (cleared base n j i) n none = base := by
  funext x
  by_cases hx : x = n
  · subst hx
    rw [Function.update_self, hbase x le_rfl]
  rw [Function.update_of_ne hx, cleared, Nat.min_eq_right hi]
  by_cases hin : n < x ∧ x < n + 1 + 2 * j
  · rw [if_pos hin, hbase x hin.1.le]
  · rw [if_neg hin, layout_base (by omega)]

end Layout

/-! ## The loops

The loop of `add_tag_level` stops at the first level that fails, and the loop of `clear_tag_level`
passes over the pointers that are still null. -/

theorem addTagLevel_spec (ok : ℕ → Bool) {base : ℕ → Option Block} {n j m : ℕ}
    (hbase : ∀ x, n ≤ x → base x = none) (hblock : h.block = layout base n j)
    (hnext : h.next = n + 1 + 2 * j) :
    (∃ h' k, addTagLevel ok n (List.range' j m) h = some (false, h') ∧ k < j + m ∧
        h'.block = layout base n k) ∨
      ∃ h', addTagLevel ok n (List.range' j m) h = some (true, h') ∧
        h'.block = layout base n (j + m) ∧ h'.next = n + 1 + 2 * (j + m) := by
  induction m generalizing j h with
  | zero => exact .inr ⟨h, rfl, hblock, hnext⟩
  | succ m ih =>
    have hf : h.Fresh := fun x hx => by
      rw [hblock, layout_base (by omega), hbase x (by omega)]
    rw [List.range'_succ, addTagLevel]
    rcases createLevel_spec ok hf j 0 with ⟨h', hrun, hsame, -⟩ | ⟨h', hrun, hnext', hb⟩
    · rw [hrun]
      exact .inl ⟨h', j, rfl, by omega, hsame.trans hblock⟩
    · have harray : h'.block n = some (.levels fun i => if i < j then some (n + 1 + 2 * i)
          else none) := by
        rw [hb, Function.update_of_ne (by omega), Function.update_of_ne (by omega), hblock,
          layout_array]
      have hlevels : h'.levelsAt n =
          some fun i => if i < j then some (n + 1 + 2 * i) else none := by
        rw [Heap.levelsAt, harray]
      rw [hrun]
      simp only [Option.bind_eq_bind, Option.bind_some]
      rw [hlevels, Option.bind_some, write_of_block harray, Option.bind_some]
      have hlayout : layout base n (j + 1) = Function.update h'.block n (some (.levels
          (Function.update (fun i => if i < j then some (n + 1 + 2 * i) else none) j
            (some h.next)))) := by
        have h2 : n + 1 + 2 * j + 1 = n + 2 + 2 * j := by omega
        rw [layout_succ, hb, hblock, hnext, h2]
      have := ih (j := j + 1) (h := { h' with block := Function.update h'.block n (some (.levels
          (Function.update (fun i => if i < j then some (n + 1 + 2 * i) else none) j
            (some h.next)))) }) hlayout.symm (by rw [hnext', hnext]; omega)
      rwa [show j + 1 + m = j + (m + 1) by omega] at this

theorem clearTagLevel_spec {base : ℕ → Option Block} {n j i m : ℕ}
    (hblock : h.block = cleared base n j i) :
    ∃ h', clearTagLevel n (List.range' i m) h = some h' ∧ h'.block = cleared base n j (i + m) := by
  induction m generalizing i h with
  | zero => exact ⟨h, rfl, hblock⟩
  | succ m ih =>
    have harray : h.levelsAt n = some fun i => if i < j then some (n + 1 + 2 * i) else none := by
      rw [Heap.levelsAt, hblock, cleared, if_neg (by omega), layout_array]
    rw [List.range'_succ, clearTagLevel, harray]
    simp only [Option.bind_eq_bind, Option.bind_some]
    rw [show i + (m + 1) = i + 1 + m by omega]
    by_cases hi : i < j
    · have hlevel : h.levelAt (n + 1 + 2 * i) =
          some ⟨i, some (n + 2 + 2 * i), 0, false, 0, 0⟩ := by
        rw [Heap.levelAt, hblock, cleared, if_neg (by omega), layout_level hi]
      have hbuffer : h.block (n + 2 + 2 * i) = some zeroBuffer := by
        rw [hblock, cleared, if_neg (by omega), layout_buffer hi]
      have hblock' : Function.update h.block (n + 2 + 2 * i) none (n + 1 + 2 * i) =
          some (.level ⟨i, some (n + 2 + 2 * i), 0, false, 0, 0⟩) := by
        rw [Function.update_of_ne (by omega), hblock, cleared, if_neg (by omega), layout_level hi]
      have hfree : freeLevel (n + 1 + 2 * i) h =
          some { h with block := cleared base n j (i + 1) } := by
        rw [freeLevel, hlevel]
        simp only [Option.bind_eq_bind, Option.bind_some]
        rw [kfree_of_block hbuffer, Option.bind_some, kfree_of_block hblock', cleared_succ hi,
          ← hblock]
      rw [if_pos hi]
      dsimp only
      rw [hfree, Option.bind_some]
      exact ih rfl
    · rw [if_neg hi]
      exact ih (by rw [hblock, cleared_of_le (not_lt.1 hi)])

/-- **The clean-up of a creation** leaves no block of it. -/
theorem cleanup_spec {base : ℕ → Option Block} {n j : ℕ} (hbase : ∀ x, n ≤ x → base x = none)
    (hj : j ≤ levels) (hblock : h.block = layout base n j) :
    ∃ h' h'', clearTagLevel n (List.range levels) h = some h' ∧ h'.kfree n = some h'' ∧
      h''.block = base := by
  obtain ⟨h', hrun, hb⟩ := clearTagLevel_spec (m := levels) (hblock.trans cleared_zero.symm)
  rw [← List.range_eq_range'] at hrun
  rw [Nat.zero_add] at hb
  have harray : h'.block n =
      some (.levels fun i => if i < j then some (n + 1 + 2 * i) else none) := by
    rw [hb, cleared, if_neg (by omega), layout_array]
  refine ⟨h', _, hrun, kfree_of_block harray, ?_⟩
  dsimp only
  rw [hb, cleared_all hbase hj]

end Heap

/-! ## All or nothing

For either result the registry, `tags` and the heap are described completely.  Which of them there
is the theorem leaves open; `tagCreate_of_reserve` says it for the case that every allocation
succeeds. -/

/-- The world is that of a state of the registry. -/
structure World.Represents (w : World) (s : State) : Prop where
  mem : w.mem = s.mem
  null : ∀ d, w.tags d = none ↔ w.mem.tags d = none
  fresh : w.heap.Fresh

/-- Nothing has changed. -/
structure Unchanged (w w' : World) : Prop where
  mem : w'.mem = w.mem
  tags : w'.tags = w.tags
  block : w'.heap.block = w.heap.block

/-- There is a fresh level `i` at `l`. -/
def FreshLevel (w w' : World) (i l : ℕ) : Prop :=
  ∃ b, w.heap.block l = none ∧ w.heap.block b = none ∧
    w'.heap.block l = some (.level ⟨i, some b, 0, false, 0, 0⟩) ∧ w'.heap.block b = some zeroBuffer

/-- The tag `d` has been created, and nothing else has changed. -/
structure Created (w w' : World) (a : GetArgs) (d : ℕ) : Prop where
  lt : d < maxTags
  /-- The descriptor was in no use. -/
  bit : w.mem.bitmask.bit d = false
  entry : w.mem.tags d = none
  null : w.tags d = none
  /-- So was the key. -/
  key : a.key ≠ ipcPrivate → w.mem.table.lookup a.key = none
  nBits : w'.mem.bitmask.nBits = w.mem.bitmask.nBits
  bits : ∀ k, w'.mem.bitmask.bit k = (decide (k = d) || w.mem.bitmask.bit k)
  table : w'.mem.table =
    if a.key = ipcPrivate then w.mem.table else w.mem.table.insert a.key d
  tags : w'.mem.tags = Function.update w.mem.tags d (some ⟨a.key, d, a.permission, a.euid⟩)
  sem : w'.mem.sem = w.mem.sem
  /-- The new tag and its levels. -/
  block : ∃ p array ptr, w'.tags = Function.update w.tags d (some p) ∧ w.heap.block p = none ∧
    w'.heap.block p = some (.tag ⟨⟨a.key, d, a.permission, a.euid⟩, false, array, 0⟩) ∧
    w.heap.block array = none ∧ w'.heap.block array = some (.levels ptr) ∧
    (∀ i < levels, ∃ l, ptr i = some l ∧ FreshLevel w w' i l) ∧
    ∀ i < levels, ∀ j < levels, ptr i = ptr j → i = j
  /-- What was there before is there still. -/
  old : ∀ x, w.heap.block x ≠ none → w'.heap.block x = w.heap.block x

/-- The heap with the new tag: the array at `n`, then the levels with their buffers, then the
tag. -/
theorem created_of_layout {w : World} {s : State} {a : GetArgs} {oom : Bool} {m : Mem} {d : ℕ}
    {heap : Heap} (hi : Inv s) (hw : w.Represents s) (hres : w.mem.reserve a.key oom = (m, .ok d))
    (hblock : heap.block = Function.update (layout w.heap.block w.heap.next levels)
      (w.heap.next + 1 + 2 * levels)
      (some (.tag ⟨⟨a.key, d, a.permission, a.euid⟩, false, w.heap.next, 0⟩))) :
    Created w ⟨{ m with tags := Function.update m.tags d (some ⟨a.key, d, a.permission, a.euid⟩) },
      Function.update w.tags d (some (w.heap.next + 1 + 2 * levels)), heap⟩ a d := by
  obtain ⟨htable, hsem⟩ := Mem.reserve_ok hres
  have hn : w.mem.bitmask.nBits = maxTags := by rw [hw.mem]; exact hi.nBits
  obtain ⟨-, -, e, he⟩ | ⟨d', heq, hr⟩ := Mem.reserve_spec hn hres
  · cases he
  cases heq
  have hentry : w.mem.tags d = none := by
    cases he : w.mem.tags d with
    | none => rfl
    | some e =>
      have hbit := (hi.live d e (hw.mem ▸ he)).2.1
      rw [← hw.mem, hr.clear] at hbit
      cases hbit
  have hnew : ∀ x, w.heap.next ≤ x → w.heap.block x = none := hw.fresh
  have hlayout : ∀ x, x < w.heap.next + 1 + 2 * levels →
      heap.block x = layout w.heap.block w.heap.next levels x := fun x hx => by
    rw [hblock, Function.update_of_ne (by omega)]
  have htag : heap.block (w.heap.next + 1 + 2 * levels) =
      some (.tag ⟨⟨a.key, d, a.permission, a.euid⟩, false, w.heap.next, 0⟩) := by
    rw [hblock, Function.update_self]
  have harray : heap.block w.heap.next =
      some (.levels fun i => if i < levels then some (w.heap.next + 1 + 2 * i) else none) := by
    rw [hlayout _ (by omega), layout_array]
  exact {
    lt := hn ▸ hr.lt
    bit := hr.clear
    entry := hentry
    null := (hw.null d).2 hentry
    key := hr.new
    nBits := hr.nBits
    bits := hr.bits
    table := htable
    tags := by rw [hr.tags]
    sem := hsem
    block := by
      refine ⟨_, _, _, rfl, hnew _ (by omega), htag, hnew _ le_rfl, harray, fun i hi => ?_,
        fun i hi j hj hij => ?_⟩
      · refine ⟨_, if_pos hi, w.heap.next + 2 + 2 * i, hnew _ (by omega), hnew _ (by omega), ?_, ?_⟩
        · exact (hlayout _ (by omega)).trans (layout_level hi)
        · exact (hlayout _ (by omega)).trans (layout_buffer hi)
      · rw [if_pos hi, if_pos hj, Option.some.injEq] at hij
        omega
    old := fun x hx => by
      have hlt : x < w.heap.next := by
        by_contra hle
        exact hx (hnew x (not_lt.1 hle))
      exact (hlayout x (by omega)).trans (layout_base (.inl hlt)) }

/-- **A creation does everything or nothing**, whichever of its allocations succeed. -/
theorem create_all_or_nothing {s₀ s : State} (h0 : Init s₀) (h : Run Step s₀ s) {w : World}
    (hw : w.Represents s) (ok : ℕ → Bool) (oom : Bool) (a : GetArgs) :
    ∃ rc w', tagCreate ok oom a w = some (rc, w') ∧
      (rc < 0 ∧ Unchanged w w' ∨ ∃ d : ℕ, rc = d ∧ Created w w' a d) := by
  have hi := inv_of_run h0 h
  have hn : w.mem.bitmask.nBits = maxTags := by rw [hw.mem]; exact hi.nBits
  rw [tagCreate]
  by_cases hkey : a.key < 0
  · rw [if_pos hkey]
    exact ⟨_, _, rfl, .inl ⟨by decide, rfl, rfl, rfl⟩⟩
  rw [if_neg hkey]
  by_cases hperm : a.permission ≠ tagPermUsr ∧ a.permission ≠ tagPermAll
  · rw [if_pos hperm]
    exact ⟨_, _, rfl, .inl ⟨by decide, rfl, rfl, rfl⟩⟩
  rw [if_neg hperm]
  rcases hres : w.mem.reserve a.key oom with ⟨m, e | d⟩
  · obtain ⟨rfl, he⟩ := Mem.reserve_error hn hres
    exact ⟨_, _, rfl, .inl ⟨Int.neg_neg_of_pos he, rfl, rfl, rfl⟩⟩
  have hundo := Mem.clearCommon_reserve hres
  dsimp only
  rw [hundo, Heap.kzalloc]
  by_cases hok : ok w.heap.calls
  swap
  · rw [if_neg hok]
    exact ⟨_, _, rfl, .inl ⟨by decide, rfl, rfl, rfl⟩⟩
  rw [if_pos hok]
  dsimp only
  -- from here on what was allocated has to be freed
  have hclean : ∀ {k heap}, k ≤ levels →
      heap.block = layout w.heap.block w.heap.next k → ∃ rc w',
        (clearTagLevel w.heap.next (List.range levels) heap).bind (fun heap =>
          (heap.kfree w.heap.next).bind fun heap => some (-ENOMEM, ⟨w.mem, w.tags, heap⟩)) =
            some (rc, w') ∧ (rc < 0 ∧ Unchanged w w' ∨ ∃ d : ℕ, rc = d ∧ Created w w' a d) := by
    intro k heap hk hb
    obtain ⟨h', h'', hclear, hfree, hblock⟩ := cleanup_spec hw.fresh hk hb
    rw [hclear, Option.bind_some, hfree]
    exact ⟨_, _, rfl, .inl ⟨by decide, rfl, rfl, hblock⟩⟩
  rw [List.range_eq_range'] at *
  rcases addTagLevel_spec ok (j := 0) (m := levels) (n := w.heap.next)
    (h := ⟨Function.update w.heap.block w.heap.next (some (.levels fun _ => none)),
      w.heap.next + 1, w.heap.calls + 1⟩) hw.fresh layout_zero.symm rfl with
    ⟨h', k, hadd, hk, hb⟩ | ⟨h', hadd, hb, hnext⟩
  · rw [hadd]
    exact hclean (by omega) hb
  rw [hadd]
  simp only [Option.bind_eq_bind, Option.bind_some, Heap.kzalloc]
  rw [Nat.zero_add] at hb hnext
  by_cases htag : ok h'.calls
  swap
  · rw [if_neg htag]
    exact hclean le_rfl hb
  rw [if_pos htag]
  dsimp only
  rw [write_of_block (Function.update_self ..), hnext]
  refine ⟨_, _, rfl, .inr ⟨d, rfl, created_of_layout hi hw hres ?_⟩⟩
  dsimp only
  rw [Function.update_idem, hb]

/-- A registry with no tag, and no memory allocated. -/
def blank : World := ⟨Mem.initial, fun _ => none, ⟨fun _ => none, 0, 0⟩⟩

/-- The second level finds no memory for its buffer; or every allocation succeeds. -/
theorem create_all_or_nothing_blank :
    (∃ w', tagCreate (fun n => n != 4) false ⟨5, tagCreat, tagPermAll, 0⟩ blank =
        some (-ENOMEM, w') ∧ Unchanged blank w') ∧
      ∃ w', tagCreate (fun _ => true) false ⟨5, tagCreat, tagPermAll, 0⟩ blank = some (0, w') ∧
        Created blank w' ⟨5, tagCreat, tagPermAll, 0⟩ 0 := by
  let s : State := ⟨Mem.initial, fun _ => .get ⟨5, tagCreat, tagPermAll, 0⟩ .start⟩
  have h0 : Init s := ⟨rfl, fun _ => rfl⟩
  have hw : blank.Represents s := ⟨rfl, fun _ => ⟨fun _ => rfl, fun _ => rfl⟩, fun _ _ => rfl⟩
  constructor
  · have hcode : (tagCreate (fun n => n != 4) false ⟨5, tagCreat, tagPermAll, 0⟩ blank).map
        Prod.fst = some (-ENOMEM) := by decide +kernel
    obtain ⟨rc, w', hrun, h⟩ := create_all_or_nothing h0 (RunUnder.refl s) hw (fun n => n != 4)
      false ⟨5, tagCreat, tagPermAll, 0⟩
    rw [hrun, Option.map_some, Option.some.injEq] at hcode
    obtain rfl : rc = -ENOMEM := hcode
    refine ⟨w', hrun, ?_⟩
    rcases h with ⟨-, h⟩ | ⟨d, hd, -⟩
    · exact h
    · exact absurd hd (by simp [ENOMEM])
  · have hcode : (tagCreate (fun _ => true) false ⟨5, tagCreat, tagPermAll, 0⟩ blank).map
        Prod.fst = some 0 := by decide +kernel
    obtain ⟨rc, w', hrun, h⟩ := create_all_or_nothing h0 (RunUnder.refl s) hw (fun _ => true)
      false ⟨5, tagCreat, tagPermAll, 0⟩
    rw [hrun, Option.map_some, Option.some.injEq] at hcode
    obtain rfl : rc = 0 := hcode
    refine ⟨w', hrun, ?_⟩
    rcases h with ⟨hlt, -⟩ | ⟨d, hd, h⟩
    · exact absurd hlt (lt_irrefl 0)
    · obtain rfl : d = 0 := by simpa using hd.symm
      exact h

/-- If every allocation succeeds, so does the creation of the levels. -/
theorem addTagLevel_of_ok {ok : ℕ → Bool} (hok : ∀ k, ok k = true) {n : ℕ} {is : List ℕ}
    {h h' : Heap} : addTagLevel ok n is h ≠ some (false, h') := by
  induction is generalizing h with
  | nil => simp [addTagLevel]
  | cons i is ih =>
    intro heq
    rw [addTagLevel, createLevel, Heap.kzalloc, if_pos (hok _)] at heq
    dsimp only at heq
    rw [Heap.kzalloc, if_pos (hok _)] at heq
    simp only [Option.bind_eq_bind, Option.bind_eq_some_iff, Option.map_eq_some_iff] at heq
    obtain ⟨r, ⟨h₁, -, rfl⟩, hrest⟩ := heq
    simp only [Option.bind_eq_some_iff] at hrest
    obtain ⟨ptr, -, h₂, -, hrest⟩ := hrest
    exact ih hrest

/-- **A creation succeeds** if its arguments are valid, a number can be reserved for it and every
allocation succeeds. -/
theorem tagCreate_of_reserve {s₀ s : State} (h0 : Init s₀) (h : Run Step s₀ s) {w : World}
    (hw : w.Represents s) {ok : ℕ → Bool} (hok : ∀ k, ok k = true) {oom : Bool} {a : GetArgs}
    (hkey : 0 ≤ a.key) (hperm : a.permission = tagPermUsr ∨ a.permission = tagPermAll) {m : Mem}
    {d : ℕ} (hres : w.mem.reserve a.key oom = (m, .ok d)) :
    ∃ w', tagCreate ok oom a w = some ((d : ℤ), w') ∧ Created w w' a d := by
  have hi := inv_of_run h0 h
  rw [tagCreate, if_neg (not_lt.2 hkey), if_neg (not_and_or.2 (hperm.imp not_not.2 not_not.2)),
    hres]
  dsimp only
  rw [Heap.kzalloc, if_pos (hok _)]
  dsimp only
  rw [List.range_eq_range']
  rcases addTagLevel_spec ok (j := 0) (m := levels) (n := w.heap.next)
    (h := ⟨Function.update w.heap.block w.heap.next (some (.levels fun _ => none)),
      w.heap.next + 1, w.heap.calls + 1⟩) hw.fresh layout_zero.symm rfl with
    ⟨h', k, hadd, -⟩ | ⟨h', hadd, hb, hnext⟩
  · exact absurd hadd (addTagLevel_of_ok hok)
  rw [hadd]
  simp only [Option.bind_eq_bind, Option.bind_some, Heap.kzalloc]
  rw [if_pos (hok _)]
  rw [Nat.zero_add] at hb hnext
  dsimp only
  rw [write_of_block (Function.update_self ..), hnext]
  refine ⟨_, rfl, created_of_layout hi hw hres ?_⟩
  dsimp only
  rw [Function.update_idem, hb]

/-! ## The calls of the registry

The function of this module is what the call of `TagAos.Registry.Calls` does when it is not held up,
so the two models are one. -/

/-- What a creation does to the registry. -/
theorem tagCreate_cases {ok : ℕ → Bool} {oom : Bool} {a : GetArgs} {w w' : World} {rc : ℤ}
    (h : tagCreate ok oom a w = some (rc, w')) :
    ((a.key < 0 ∨ a.permission ≠ tagPermUsr ∧ a.permission ≠ tagPermAll) ∧ rc = -EINVAL ∧
        w'.mem = w.mem) ∨
      ¬ a.key < 0 ∧ ¬ (a.permission ≠ tagPermUsr ∧ a.permission ≠ tagPermAll) ∧
        ((∃ e, w.mem.reserve a.key oom = (w'.mem, .error e) ∧ rc = -e) ∨
          ∃ m d, w.mem.reserve a.key oom = (m, .ok d) ∧
            (rc = -ENOMEM ∧ w'.mem = m.clearCommon a.key d ∨
              rc = d ∧ w'.mem =
                { m with
                  tags := Function.update m.tags d (some ⟨a.key, d, a.permission, a.euid⟩) })) := by
  rw [tagCreate] at h
  by_cases hkey : a.key < 0
  · rw [if_pos hkey] at h
    cases h
    exact .inl ⟨.inl hkey, rfl, rfl⟩
  rw [if_neg hkey] at h
  by_cases hperm : a.permission ≠ tagPermUsr ∧ a.permission ≠ tagPermAll
  · rw [if_pos hperm] at h
    cases h
    exact .inl ⟨.inr hperm, rfl, rfl⟩
  rw [if_neg hperm] at h
  refine .inr ⟨hkey, hperm, ?_⟩
  rcases hres : w.mem.reserve a.key oom with ⟨m, e | d⟩
  · rw [hres] at h
    cases h
    exact .inl ⟨e, rfl, rfl⟩
  rw [hres] at h
  refine .inr ⟨m, d, rfl, ?_⟩
  have hclean : ∀ {n heap}, ((clearTagLevel n (List.range levels) heap).bind fun heap =>
      (heap.kfree n).bind fun heap =>
        some (-ENOMEM, (⟨m.clearCommon a.key d, w.tags, heap⟩ : World))) = some (rc, w') →
      rc = -ENOMEM ∧ w'.mem = m.clearCommon a.key d := by
    intro n heap hb
    obtain ⟨heap', hclear, hb⟩ := Option.bind_eq_some_iff.1 hb
    obtain ⟨heap'', hfree, hb⟩ := Option.bind_eq_some_iff.1 hb
    cases hb
    exact ⟨rfl, rfl⟩
  dsimp only at h
  split at h
  · cases h
    exact .inl ⟨rfl, rfl⟩
  · obtain ⟨⟨all, heap⟩, hadd, h⟩ := Option.bind_eq_some_iff.1 h
    cases all
    · exact .inl (hclean h)
    · dsimp only at h
      split at h
      · exact .inl (hclean h)
      · obtain ⟨heap', -, h⟩ := Option.bind_eq_some_iff.1 h
        cases h
        exact .inr ⟨rfl, rfl⟩

section Run

variable {s : State} {c : CallId} {a : GetArgs} {m m' : Mem} {p p' : GetState} {o : Outcome}

/-- One operation of a `tag_get`. -/
theorem run_getStep (h : getStep c m a p o = some (m', p')) :
    Run Step (s.set c m (.get a p)) (s.set c m' (.get a p')) := by
  have hstep : Step (s.set c m (.get a p)) c (s.set c m' (.get a p')) := ⟨o, by simp [step, h]⟩
  exact (RunUnder.refl _).tail trivial hstep

/-- All the levels are created. -/
theorem run_addLevel {d i : ℕ} (hi : i < levels) :
    Run Step (s.set c m (.get a (.addLevel d i))) (s.set c m (.get a (.allocEntry d))) := by
  induction hk : levels - 1 - i generalizing i with
  | zero =>
    have hlast : ¬ i + 1 < levels := by omega
    exact run_getStep (o := .go) (by rw [getStep, if_neg hlast])
  | succ k ih =>
    have hmore : i + 1 < levels := by omega
    exact (run_getStep (o := .go) (by rw [getStep, if_pos hmore])).trans (ih hmore (by omega))

/-- The registry while the creation holds `common_lock`. -/
def Mem.locked (m : Mem) (c : CallId) : Mem :=
  { m with sem := Function.update m.sem .common (.exclusive c) }

theorem downWrite_common (hfree : m.sem .common = .free) :
    m.downWrite c .common = some (m.locked c) := by
  rw [Mem.downWrite, hfree]
  rfl

theorem upWrite_common (hfree : m.sem .common = .free) (hsem : m'.sem = m.sem) :
    (m'.locked c).upWrite c .common = m' := by
  have hself : Function.update m'.sem .common .free = m'.sem := by
    rw [hsem, ← hfree, Function.update_eq_self]
  simp [Mem.upWrite, Mem.locked, RwSem.upWrite, hself]

theorem Mem.reserve_locked (m : Mem) (c : CallId) (key : ℤ) (oom : Bool) :
    (m.locked c).reserve key oom =
      ((m.reserve key oom).1.locked c, (m.reserve key oom).2) := by
  obtain ⟨bitmask, table, tags, sem⟩ := m
  simp only [Mem.reserve, Mem.locked]
  by_cases hcount : maxTags ≤ table.entries.length
  · simp [hcount]
  rcases bitmask.getAvailNumber with _ | ⟨d, b⟩
  · simp [hcount]
  · by_cases hmax : maxTags ≤ d
    · simp [hcount, hmax]
    by_cases hkey : key = ipcPrivate
    · simp [hcount, hmax, hkey]
    by_cases hin : (table.lookup key).isSome
    · simp [hcount, hmax, hkey, hin]
    cases oom <;> simp [hcount, hmax, hkey, hin]

theorem Mem.clearCommon_locked (m : Mem) (c : CallId) (key : ℤ) (d : ℕ) :
    (m.locked c).clearCommon key d = (m.clearCommon key d).locked c := by
  obtain ⟨bitmask, table, tags, sem⟩ := m
  simp only [Mem.clearCommon, Mem.locked]
  by_cases hone : (bitmask.clearNumber d).1 = 1
  · simp [hone]
    congr
  by_cases hkey : key = ipcPrivate
  · simp [hone, hkey]
  · simp [hone, hkey]

/-- **The creation is one of the calls of the registry**: while nobody holds `common_lock`, a call
can do what it does. -/
theorem tagCreate_run {ok : ℕ → Bool} {oom : Bool} {w w' : World} {rc : ℤ}
    (hcommand : a.command = tagCreat) (hc : s.thread c = .get a .start) (hmem : w.mem = s.mem)
    (hfree : s.mem.sem .common = .free) (h : tagCreate ok oom a w = some (rc, w')) :
    Run Step s (s.set c w'.mem (.get a (.done rc))) := by
  have hself : s.set c s.mem (.get a .start) = s := by rw [← hc, Config.set_self]
  have hstart : Run Step s (s.set c s.mem (.get a (getStart a))) := by
    have := run_getStep (s := s) (c := c) (m := s.mem) (a := a) (p := .start) (o := .go) rfl
    rwa [hself] at this
  rcases tagCreate_cases h with ⟨hinvalid, rfl, hsame⟩ | ⟨hkey, hperm, hrest⟩
  · have hp : getStart a = .done (-EINVAL) := by
      rw [getStart, if_pos hcommand]
      rcases hinvalid with hkey | hperm
      · exact if_pos hkey
      · rw [if_pos hperm, ite_self]
    rwa [hsame, hmem, ← hp]
  have hp : getStart a = .lockCreate := by
    rw [getStart, if_pos hcommand, if_neg hkey, if_neg hperm]
  rw [hmem] at hrest
  have hlock : Run Step s (s.set c (s.mem.locked c) (.get a .reserve)) := by
    refine hstart.trans (run_getStep (o := .go) ?_)
    rw [hp, getStep, downWrite_common hfree, Option.map_some]
  have hreserve : Run Step s (s.set c ((s.mem.reserve a.key oom).1.locked c)
      (.get a (.unlockCreate (s.mem.reserve a.key oom).2))) := by
    refine hlock.trans ?_
    cases oom
    · exact run_getStep (o := .go) (by rw [getStep, Mem.reserve_locked])
    · exact run_getStep (o := .nomem) (by rw [getStep, Mem.reserve_locked])
  have hsem := s.mem.reserve_sem a.key oom
  rcases hrest with ⟨e, hres, rfl⟩ | ⟨m, d, hres, hrest⟩
  · rw [hres] at hreserve hsem
    refine hreserve.trans (run_getStep (o := .go) ?_)
    rw [getStep, upWrite_common hfree hsem]
  rw [hres] at hreserve hsem
  have hfree' : m.sem .common = .free := by rw [hsem, hfree]
  have halloc : Run Step s (s.set c m (.get a (.allocLevels d))) := by
    refine hreserve.trans (run_getStep (o := .go) ?_)
    rw [getStep, upWrite_common hfree hsem]
  rcases hrest with ⟨rfl, hm⟩ | ⟨rfl, hm⟩
  · have hclear : Run Step s (s.set c (m.locked c) (.get a (.clearCommon d))) := by
      refine (halloc.trans (run_getStep (o := .nomem) rfl)).trans (run_getStep (o := .go) ?_)
      rw [getStep, downWrite_common hfree', Option.map_some]
    rw [hm]
    refine (hclear.trans (run_getStep (o := .go) rfl)).trans (run_getStep (o := .go) ?_)
    rw [getStep, Mem.clearCommon_locked, upWrite_common hfree' (m.clearCommon_sem a.key d)]
  · rw [hm]
    refine halloc.trans ((run_getStep (o := .go) rfl).trans ?_)
    refine (run_addLevel (by decide)).trans ((run_getStep (o := .go) rfl).trans ?_)
    exact run_getStep (o := .go) rfl

end Run

end TagAos.Registry
