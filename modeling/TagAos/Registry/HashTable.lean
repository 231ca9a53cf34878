import TagAos.Conc.Simulation
import TagAos.Hashmap.Refine
import TagAos.Hashmap.Sip
import TagAos.Registry.Growth

/-!
# The registry on its hash map

`tag_table` is not a finite map but the hash map of `hashmap.c`, with SipHash as its hash function.
Here the calls use it as the source does, and what `hashmap_get`, `hashmap_set` and
`hashmap_delete` say decides what they do next.

* `hashStep` — one operation of a call.
* `Sim` — a state of the hash map stands for one of the finite map with the sizes of
  `TagAos.Registry.Growth` beside it.
* `table_refines` — every run has a run on the finite map beside it, and a call can move in the one
  where it can move in the other.
-/

set_option autoImplicit false

namespace TagAos.Registry

open Conc Hashmap

/-! ## The entries of the table

The item type of the hash map, its hash and its comparison, as the module defines them.  A key is
hashed by its four bytes. -/

/-- `tag_table_entry_t`. -/
structure TableEntry where
  key : Int32
  tagKey : ℕ
  deriving DecidableEq, Inhabited

/-- An entry as the calls write it, where `key` is their `int`. -/
def TableEntry.of (key : ℤ) (tagKey : ℕ) : TableEntry := ⟨Int32.ofInt key, tagKey⟩

/-- The bytes of an `int` in memory. -/
def intBytes (x : Int32) : List UInt8 :=
  [x.toUInt32.toUInt8, (x.toUInt32 >>> 8).toUInt8, (x.toUInt32 >>> 16).toUInt8,
    (x.toUInt32 >>> 24).toUInt8]

/-- `tag_compare` and `tag_hash`. -/
def tagOps : Ops TableEntry where
  hash entry seed0 seed1 := sip64 (intBytes entry.key) seed0 seed1
  compare a b := (a.key - b.key).toInt

/-- `SEED0`. -/
def seed0 : UInt64 := 401861

/-- `SEED1`. -/
def seed1 : UInt64 := 879023

/-- The hash map that `initialize` makes.  `ok` says which of its two allocations succeed. -/
def newTable (ok : Bool × Bool) : Option (HashMap TableEntry) :=
  hashmapNew ok hashmapCap seed0 seed1

/-! ## The calls

The registry with the hash map in the place of the finite map.  Everything else is shared with
`TagAos.Registry.Calls`. -/

/-- What `tag_get(TAG_CREAT)` does under `common_lock`.  `ok` says which allocations succeed if
`hashmap_set` resizes the table. -/
def reserve (ok : Bool × Bool) (bitmask : Bitmask) (table : HashMap TableEntry) (key : ℤ) :
    Option ((Bitmask × HashMap TableEntry) × Except ℤ ℕ) :=
  if maxTags ≤ hashmapCount table then some ((bitmask, table), .error EMAXTAG)
  else
    match bitmask.getAvailNumber with
    | none => some ((bitmask, table), .error EPROTO)
    | some (tagKey, bitmask) =>
      if maxTags ≤ tagKey then some ((bitmask, table), .error EPROTO)
      else if key = ipcPrivate then some ((bitmask, table), .ok tagKey)
      else
        (hashmapGet tagOps table (.of key 0)).bind fun entry =>
          if entry.isSome then some (((bitmask.clearNumber tagKey).2, table), .error EBUSY)
          else
            (hashmapSet tagOps ok table (.of key tagKey)).map fun r =>
              if r.2.isNone && r.1.oom then
                (((bitmask.clearNumber tagKey).2, r.1), .error ENOMEM)
              else ((bitmask, r.1), .ok tagKey)

/-- What `clear_tag_common` does under `common_lock`. -/
def clearCommon (okDelete okSet : Bool × Bool) (bitmask : Bitmask) (table : HashMap TableEntry)
    (key : ℤ) (tagKey : ℕ) : Option (Bitmask × HashMap TableEntry) :=
  let deleted :=
    if key ≠ ipcPrivate then
      (hashmapGet tagOps table (.of key 0)).bind fun entry =>
        if entry.any (·.tagKey = tagKey) then
          (hashmapDelete tagOps okDelete table (.of key 0)).map Prod.fst
        else some table
    else some table
  let cleared := bitmask.clearNumber tagKey
  deleted.bind fun table =>
    -- the number was not in use: put the entry back
    if cleared.1 ≠ 1 ∧ key ≠ ipcPrivate then
      (hashmapSet tagOps okSet table (.of key tagKey)).map fun r => (cleared.2, r.1)
    else some (cleared.2, table)

/-- The registry with its hash map.  The finite map in `registry` is not used. -/
structure HashState where
  registry : State
  table : HashMap TableEntry

/-- One operation of the call `c`.  The environment also decides which allocations succeed in
`hashmap_delete` and which in `hashmap_set`. -/
def hashStep (s : HashState) (c : CallId) (o : Outcome × (Bool × Bool) × (Bool × Bool)) :
    Option HashState :=
  let m := s.registry.mem
  match s.registry.thread c with
  | .get a .reserve =>
    if o.1 = .go then
      (reserve o.2.2 m.bitmask s.table a.key).map fun r =>
        ⟨s.registry.set c { m with bitmask := r.1.1 } (.get a (.unlockCreate r.2)), r.1.2⟩
    else none
  | .get a .lookup =>
    if o.1 = .go then
      (hashmapGet tagOps s.table (.of a.key 0)).map fun entry =>
        match entry with
        | none => ⟨s.registry.set c m (.get a (.unlockOpen (-ENODATA))), s.table⟩
        | some e => ⟨s.registry.set c m (.get a (.loadTag e.tagKey)), s.table⟩
    else none
  | .get a (.clearCommon d) =>
    if o.1 = .go then
      (clearCommon o.2.1 o.2.2 m.bitmask s.table a.key d).map fun r =>
        ⟨s.registry.set c { m with bitmask := r.1 } (.get a .unlockClear), r.2⟩
    else none
  | .delete tag euid (.clearCommon e) =>
    if o.1 = .go then
      (clearCommon o.2.1 o.2.2 m.bitmask s.table e.key e.tagKey).map fun r =>
        ⟨s.registry.set c { m with bitmask := r.1 } (.delete tag euid (.unlockClear e)), r.2⟩
    else none
  -- the other operations do not look at the table
  | _ => (step s.registry c o.1).map (⟨·, s.table⟩)

/-- Some operation of the call `c`. -/
def HashStep (s : HashState) (c : CallId) (s' : HashState) : Prop := Moves hashStep s c s'

/-! ## What the hash map stands for

The finite map that has the descriptor of each entry under its key. -/

/-- The keys of the calls are an `int`. -/
def IsInt (key : ℤ) : Prop := -2147483648 ≤ key ∧ key < 2147483648

instance (key : ℤ) : Decidable (IsInt key) := inferInstanceAs (Decidable (_ ∧ _))

theorem tagOps_respects : Respects tagOps TableEntry.key where
  compare_eq x y := by
    show (x.key - y.key).toInt = 0 ↔ _
    rw [← Int32.toInt_zero, Int32.toInt_inj]
    grind
  hash_eq x y seed0 seed1 h := by
    show sip64 _ _ _ = sip64 _ _ _
    rw [h]

theorem IsInt.toInt {key : ℤ} (h : IsInt key) : (Int32.ofInt key).toInt = key :=
  Int32.toInt_ofInt_of_le h.1 h.2

/-- The hash map `table` stands for the finite map `t`. -/
structure Tabulates (table : HashMap TableEntry) (t : AList fun _ : ℤ => ℕ) : Prop where
  wf : WF tagOps TableEntry.key table
  stands : ∃ m, Stands TableEntry.key table m ∧
    ∀ k, m.lookup k = (t.lookup k.toInt).map fun d => ⟨k, d⟩
  count : table.count = t.entries.length
  int : ∀ key d, t.lookup key = some d → IsInt key

section Tabulates

variable {table : HashMap TableEntry} {t : AList fun _ : ℤ => ℕ} {key : ℤ} {d : ℕ}

/-- A lookup finds what the map has. -/
theorem Tabulates.get (h : Tabulates table t) (hkey : IsInt key) (d : ℕ) :
    hashmapGet tagOps table (.of key d) = some ((t.lookup key).map (.of key)) := by
  obtain ⟨m, hm, hlookup⟩ := h.stands
  rw [hashmapGet_spec tagOps_respects h.wf hm, hlookup]
  show some ((t.lookup (Int32.ofInt key).toInt).map _) = _
  rw [hkey.toInt]
  rfl

/-- An insertion of a new key is seen in the map.  Below its threshold the table does not grow. -/
theorem Tabulates.set (h : Tabulates table t) (hkey : IsInt key) (hnone : t.lookup key = none)
    (hroom : table.count < table.growat) (hfits : table.count + 1 < 2 ^ 16) (ok : Bool × Bool)
    (d : ℕ) :
    ∃ table', hashmapSet tagOps ok table (.of key d) = some (table', none) ∧
      table'.oom = false ∧ Tabulates table' (t.insert key d) ∧
      table'.nbuckets = table.nbuckets ∧ table'.cap = table.cap := by
  obtain ⟨m, hm, hlookup⟩ := h.stands
  obtain ⟨table', r, hset, hwf, hr⟩ :=
    hashmapSet_spec tagOps_respects h.wf hm
      (fun _ : m.lookup (TableEntry.of key d).key = none => hfits) ok
  obtain ⟨hnbuckets, hcap, hoom⟩ := hashmapSet_sizes hset hroom.ne
  obtain ⟨rfl, -, hm'⟩ | ⟨-, hoom', -⟩ := hr
  · have hl : m.lookup (TableEntry.of key d).key = none := by
      rw [hlookup]
      show (t.lookup (Int32.ofInt key).toInt).map _ = none
      rw [hkey.toInt, hnone]
      rfl
    have hnotMem : key ∉ t := AList.lookup_eq_none.1 hnone
    refine ⟨table', by rw [hset, hl], hoom, ⟨hwf, ⟨_, hm', fun k => ?_⟩, ?_, ?_⟩, hnbuckets, hcap⟩
    · by_cases hk : k = Int32.ofInt key
      · subst hk
        rw [hkey.toInt, AList.lookup_insert]
        exact Finmap.lookup_insert m
      · have hne : k.toInt ≠ key := by
          intro heq
          rw [← heq, Int32.ofInt_toInt] at hk
          exact hk rfl
        rw [AList.lookup_insert_ne hne, ← hlookup]
        exact Finmap.lookup_insert_of_ne m hk
    · rw [hwf.count, ← hm'.card, entries_insert, entries_erase_of_none hl, Multiset.card_cons,
        hm.card, ← h.wf.count, h.count, AList.entries_insert_of_notMem hnotMem]
      rfl
    · intro k x hx
      by_cases hk : k = key
      · exact hk ▸ hkey
      · exact h.int k x (by rwa [AList.lookup_insert_ne hk] at hx)
  · rw [hoom] at hoom'
    cases hoom'

/-- A deletion is seen in the map.  A table that is not larger than its capacity does not shrink. -/
theorem Tabulates.delete (h : Tabulates table t) (hkey : IsInt key)
    (hsome : t.lookup key = some d) (hcap : table.nbuckets ≤ table.cap) (ok : Bool × Bool) :
    ∃ table' x, hashmapDelete tagOps ok table (.of key 0) = some (table', x) ∧
      Tabulates table' (t.erase key) ∧
      table'.nbuckets = table.nbuckets ∧ table'.cap = table.cap := by
  obtain ⟨m, hm, hlookup⟩ := h.stands
  obtain ⟨table', hdelete, hwf, hm'⟩ :=
    hashmapDelete_spec tagOps_respects h.wf hm ok (.of key 0)
  have hl : m.lookup (TableEntry.of key 0).key = some (.of key d) := by
    rw [hlookup]
    show (t.lookup (Int32.ofInt key).toInt).map _ = _
    rw [hkey.toInt, hsome]
    rfl
  refine ⟨table', _, hdelete, ⟨hwf, ⟨_, hm', fun k => ?_⟩, ?_, fun k x hx => ?_⟩,
    hashmapDelete_sizes hdelete hcap⟩
  · by_cases hk : k = Int32.ofInt key
    · subst hk
      rw [hkey.toInt, AList.lookup_erase]
      exact Finmap.lookup_erase _ m
    · have hne : k.toInt ≠ key := by
        intro heq
        rw [← heq, Int32.ofInt_toInt] at hk
        exact hk rfl
      rw [AList.lookup_erase_ne hne, ← hlookup]
      exact Finmap.lookup_erase_ne hk
  · have hcard := hm.card
    rw [← entries_erase hl, Multiset.card_cons, ← h.wf.count, h.count] at hcard
    have hin : key ∈ t.entries.keys :=
      AList.mem_keys.1 (AList.lookup_isSome.1 (Option.isSome_of_eq_some hsome))
    obtain ⟨x, l₁, l₂, -, hl₁, hl₂⟩ := List.exists_of_kerase hin
    have herase : (t.erase key).entries = l₁ ++ l₂ := hl₂
    rw [hwf.count, ← hm'.card, herase, List.length_append]
    rw [hl₁, List.length_append, List.length_cons] at hcard
    omega
  · by_cases hk : k = key
    · exact hk ▸ hkey
    · exact h.int k x (by rwa [AList.lookup_erase_ne hk] at hx)

end Tabulates

/-! ## The operations on the table

Each call of `hashmap.c` in these sections answers as the finite map does, by
`TagAos.Hashmap.Refine`. -/

theorem WF.growat {map : HashMap TableEntry} (h : WF tagOps TableEntry.key map) :
    map.growat = map.nbuckets * 3 / 4 := by
  obtain ⟨k, j, hs⟩ := h.sizes
  rw [hs.growat, hs.nbuckets]

section Operations

variable {m : Mem} {table : HashMap TableEntry} {key : ℤ} {d : ℕ}

/-- **The section of `tag_get`** does the same on both. -/
theorem reserve_spec (h : Tabulates table m.table) (hsize : table.nbuckets = 512)
    (hle : m.table.entries.length ≤ maxTags) (hkey : IsInt key) (ok : Bool × Bool) :
    ∃ table', reserve ok m.bitmask table key =
        some (((m.reserve key false).1.bitmask, table'), (m.reserve key false).2) ∧
      Tabulates table' (m.reserve key false).1.table ∧
      table'.nbuckets = table.nbuckets ∧ table'.cap = table.cap := by
  have hcount : table.count ≤ 256 := h.count.trans_le hle
  rw [reserve, Mem.reserve, hashmapCount, h.count]
  by_cases hmax : maxTags ≤ m.table.entries.length
  · rw [if_pos hmax, if_pos hmax]
    exact ⟨table, rfl, h, rfl, rfl⟩
  rw [if_neg hmax, if_neg hmax]
  cases m.bitmask.getAvailNumber with
  | none => exact ⟨table, rfl, h, rfl, rfl⟩
  | some x =>
    obtain ⟨d, b⟩ := x
    dsimp only
    by_cases hd : maxTags ≤ d
    · rw [if_pos hd, if_pos hd]
      exact ⟨table, rfl, h, rfl, rfl⟩
    rw [if_neg hd, if_neg hd]
    by_cases hprivate : key = ipcPrivate
    · rw [if_pos hprivate, if_pos hprivate]
      exact ⟨table, rfl, h, rfl, rfl⟩
    rw [if_neg hprivate, if_neg hprivate, h.get hkey, Option.bind_some, Option.isSome_map]
    cases hl : m.table.lookup key with
    | some y => exact ⟨table, rfl, h, rfl, rfl⟩
    | none =>
      obtain ⟨table', hset, hoom, h', hsizes⟩ := h.set hkey hl
        (by rw [WF.growat h.wf, hsize]; omega) (by omega) ok d
      rw [hset, Option.map_some, hoom]
      exact ⟨table', rfl, h', hsizes⟩

/-- **The section of `clear_tag_common`** does the same on both, where the number is in use and the
table knows the key. -/
theorem clearCommon_spec (h : Tabulates table m.table) (hcap : table.nbuckets ≤ table.cap)
    (hnumber : (m.bitmask.clearNumber d).1 = 1)
    (hentry : key ≠ ipcPrivate → m.table.lookup key = some d) (okDelete okSet : Bool × Bool) :
    ∃ table', clearCommon okDelete okSet m.bitmask table key d =
        some ((m.clearCommon key d).bitmask, table') ∧
      Tabulates table' (m.clearCommon key d).table ∧
      table'.nbuckets = table.nbuckets ∧ table'.cap = table.cap := by
  rw [clearCommon, Mem.clearCommon, if_pos hnumber]
  by_cases hprivate : key = ipcPrivate
  · rw [if_neg (not_not.2 hprivate), if_neg fun h => h.1 hprivate, Option.bind_some,
      if_neg fun h => h.1 hnumber]
    exact ⟨table, rfl, h, rfl, rfl⟩
  · have hl := hentry hprivate
    have hkey := h.int key d hl
    obtain ⟨table', x, hdelete, h', hsizes⟩ := h.delete hkey hl hcap okDelete
    have hany : (some (TableEntry.of key d)).any (·.tagKey = d) = true := decide_eq_true rfl
    rw [if_pos hprivate, if_pos ⟨hprivate, hl⟩, h.get hkey, hl, Option.map_some,
      Option.bind_some, if_pos hany, hdelete, Option.map_some, Option.bind_some,
      if_neg fun h => h.1 hnumber]
    exact ⟨table', rfl, h', hsizes⟩

end Operations

/-! ## One operation

In both directions, so that nothing is lost and nothing is added. -/

/-- The same state with another finite map. -/
def Mem.withTable (m : Mem) (t : AList fun _ : ℤ => ℕ) : Mem := { m with table := t }

/-- A state of the hash map stands for one of the finite map. -/
structure Sim (s : HashState) (r : SizedState) : Prop where
  thread : r.registry.thread = s.registry.thread
  mem : r.registry.mem = s.registry.mem.withTable r.registry.mem.table
  table : Tabulates s.table r.registry.mem.table
  buckets : r.buckets = ⟨s.table.cap, s.table.nbuckets⟩

/-- The keys that the calls of `tag_get` are given are an `int`. -/
def IntKeys (s : State) : Prop := ∀ c a p, s.thread c = .get a p → IsInt a.key

/-- The point is one of those where a call uses the table. -/
def Thread.looks : Thread → Bool
  | get _ .reserve | get _ .lookup | get _ (.clearCommon _) | delete _ _ (.clearCommon _) => true
  | _ => false

theorem downWrite_withTable (m : Mem) (t : AList fun _ : ℤ => ℕ) (c : CallId) (l : Lock) :
    (m.withTable t).downWrite c l = (m.downWrite c l).map (·.withTable t) := by
  rw [Mem.downWrite, Mem.downWrite, Option.map_map]
  rfl

theorem downRead_withTable (m : Mem) (t : AList fun _ : ℤ => ℕ) (c : CallId) (l : Lock) :
    (m.withTable t).downRead c l = (m.downRead c l).map (·.withTable t) := by
  rw [Mem.downRead, Mem.downRead, Option.map_map]
  rfl

theorem getStep_withTable (c : CallId) (m : Mem) (t : AList fun _ : ℤ => ℕ) (a : GetArgs)
    (p : GetState) (o : Outcome) (h : (Thread.get a p).looks = false) :
    getStep c (m.withTable t) a p o =
      (getStep c m a p o).map fun r => (r.1.withTable t, r.2) := by
  cases p
  case lockCreate | lockClear =>
    cases o <;> try rfl
    rw [getStep, getStep, downWrite_withTable, Option.map_map, Option.map_map]
    rfl
  case lockOpen =>
    cases o <;> try rfl
    rw [getStep, getStep, downRead_withTable, Option.map_map, Option.map_map]
    rfl
  case unlockCreate r => cases r <;> cases o <;> rfl
  case reserve | lookup | clearCommon => cases h
  all_goals cases o <;> rfl

theorem deleteStep_withTable (c : CallId) (m : Mem) (t : AList fun _ : ℤ => ℕ) (tag : ℤ) (u : ℕ)
    (p : DeleteState) (o : Outcome) (h : (Thread.delete tag u p).looks = false) :
    deleteStep c (m.withTable t) tag u p o =
      (deleteStep c m tag u p o).map fun r => (r.1.withTable t, r.2) := by
  cases p
  case tryLock =>
    cases o <;> try rfl
    rw [deleteStep, deleteStep, downWrite_withTable]
    cases m.downWrite c (.tag tag.toNat) <;> rfl
  case loadTag =>
    cases o <;> try rfl
    simp only [deleteStep, Mem.withTable]
    cases m.tags tag.toNat <;> rfl
  case lockClear e =>
    cases o <;> try rfl
    rw [deleteStep, deleteStep, downWrite_withTable, Option.map_map, Option.map_map]
    rfl
  case clearCommon => cases h
  all_goals cases o <;> rfl

section Step

variable {s : HashState} {r : SizedState}

/-- A table that never grows: only what the registry does is left of an operation. -/
theorem sizedStep_eq (hi : Inv r.registry) (hb : r.buckets = .new hashmapCap) (c : CallId)
    (o : Outcome × Bool × Bool) :
    sizedStep r c o =
      if (r.registry.thread c).reserves.isSome ∧ o.1 = .nomem then none
      else (step r.registry c o.1).map (⟨·, r.buckets⟩) := by
  have hgrows : ¬ r.buckets.Grows r.registry.mem.table.entries.length := by
    rw [hb]
    exact hi.not_grows.ne
  rw [sizedStep]
  cases hr : (r.registry.thread c).reserves with
  | some key =>
    have hset : r.buckets.set r.registry.mem.table.entries.length o.2.2 = r.buckets :=
      if_neg fun h => hgrows h.1
    by_cases hno : o.1 = .nomem
    · rw [if_pos ⟨rfl, hno⟩]
      exact if_pos hno
    · rw [if_neg fun h => hno h.2]
      dsimp only
      rw [if_neg hno, if_neg fun h => hgrows h.2.1, hset, ite_self]
  | none =>
    rw [if_neg fun h => absurd h.1 Bool.false_ne_true]
    cases hc : (r.registry.thread c).clears with
    | none => rfl
    | some x =>
      obtain ⟨key, d⟩ := x
      have hkept : r.registry.mem.clearedBuckets key d o.2.1 o.2.2 r.buckets = r.buckets := by
        rw [Mem.clearedBuckets, if_neg fun h => h.1 (hi.clears_number hc)]
        split_ifs
        · rw [Buckets.delete, hb, if_neg fun h => not_shrinks_new _ h.1]
        · rfl
      dsimp only
      rw [hkept]

/-- What an operation on the table leaves. -/
theorem Sim.set (h : Sim s r) {c : CallId} {t : Thread} {m' : Mem} {b : Bitmask}
    {table' : HashMap TableEntry} (htags : m'.tags = r.registry.mem.tags)
    (hsem : m'.sem = r.registry.mem.sem) (hbitmask : m'.bitmask = b)
    (htable : Tabulates table' m'.table) (hnbuckets : table'.nbuckets = s.table.nbuckets)
    (hcap : table'.cap = s.table.cap) :
    Sim ⟨s.registry.set c { s.registry.mem with bitmask := b } t, table'⟩
      ⟨r.registry.set c m' t, r.buckets⟩ where
  thread := by
    show Function.update _ _ _ = Function.update _ _ _
    rw [h.thread]
  mem := by
    have hmem := h.mem
    show m' = Mem.withTable _ m'.table
    rw [hmem] at htags hsem
    obtain ⟨bitmask, table, tags, sem⟩ := m'
    cases htags
    cases hsem
    cases hbitmask
    rfl
  table := htable
  buckets := by
    show r.buckets = ⟨table'.cap, table'.nbuckets⟩
    rw [h.buckets, hnbuckets, hcap]

theorem step_get {s : State} {c : CallId} {a : GetArgs} {p : GetState}
    (hc : s.thread c = .get a p) (o : Outcome) :
    step s c o = (getStep c s.mem a p o).map fun r => s.set c r.1 (.get a r.2) := by
  rw [step, hc]

theorem step_delete {s : State} {c : CallId} {tag : ℤ} {u : ℕ} {p : DeleteState}
    (hc : s.thread c = .delete tag u p) (o : Outcome) :
    step s c o =
      (deleteStep c s.mem tag u p o).map fun r => s.set c r.1 (.delete tag u r.2) := by
  rw [step, hc]

/-- **One operation that does not use the table.** -/
theorem Sim.other (h : Sim s r) {c : CallId} (hlooks : (s.registry.thread c).looks = false)
    (o : Outcome) :
    Option.Rel Sim ((step s.registry c o).map (⟨·, s.table⟩))
      ((step r.registry c o).map (⟨·, r.buckets⟩)) := by
  have hmoved : ∀ (m : Mem) (t : Thread), Sim ⟨s.registry.set c m t, s.table⟩
      ⟨r.registry.set c (m.withTable r.registry.mem.table) t, r.buckets⟩ := fun m t =>
    { thread := by
        show Function.update _ _ _ = Function.update _ _ _
        rw [h.thread]
      mem := rfl
      table := h.table
      buckets := h.buckets }
  rw [step, step, h.thread, h.mem]
  cases hc : s.registry.thread c with
  | get a p =>
    rw [hc] at hlooks
    dsimp only
    rw [getStep_withTable c _ _ a p o hlooks]
    cases getStep c s.registry.mem a p o with
    | none => exact .none
    | some x => exact .some (hmoved x.1 (.get a x.2))
  | delete tag u p =>
    rw [hc] at hlooks
    dsimp only
    rw [deleteStep_withTable c _ _ tag u p o hlooks]
    cases deleteStep c s.registry.mem tag u p o with
    | none => exact .none
    | some x => exact .some (hmoved x.1 (.delete tag u x.2))

/-- A step that does not look at the table is a step of the registry, with the table as it is. -/
theorem hashStep_other {c : CallId} (hlooks : (s.registry.thread c).looks = false)
    (o : Outcome × (Bool × Bool) × (Bool × Bool)) :
    hashStep s c o = (step s.registry c o.1).map (⟨·, s.table⟩) := by
  rw [hashStep]
  split
  case h_5 => rfl
  all_goals
    rename_i hc
    rw [hc] at hlooks
    cases hlooks

/-- **One operation**: it is the same on both, or it cannot be done on either. -/
theorem hashStep_rel (hi : Inv r.registry) (hb : r.buckets = .new hashmapCap)
    (hkeys : IntKeys r.registry) (h : Sim s r) (c : CallId)
    (o : Outcome × (Bool × Bool) × (Bool × Bool)) :
    Option.Rel Sim (hashStep s c o)
      (sizedStep r c (o.1, o.2.1.1 && o.2.1.2, o.2.2.1 && o.2.2.2)) := by
  have hsize : s.table.cap = 512 ∧ s.table.nbuckets = 512 := by
    have hbuckets := h.buckets.symm.trans hb
    rwa [show Buckets.new hashmapCap = ⟨512, 512⟩ by decide, Buckets.mk.injEq] at hbuckets
  have hbitmask : r.registry.mem.bitmask = s.registry.mem.bitmask := by
    rw [h.mem]
    rfl
  have hcap : s.table.nbuckets ≤ s.table.cap := by rw [hsize.1, hsize.2]
  obtain ⟨o, okDelete, okSet⟩ := o
  rw [sizedStep_eq hi hb]
  by_cases hlooks : (s.registry.thread c).looks = false
  · have hreserves : ¬ ((r.registry.thread c).reserves.isSome ∧ o = .nomem) := by
      rintro ⟨hreserves, -⟩
      rw [h.thread] at hreserves
      cases hc : s.registry.thread c with
      | get a p => rw [hc] at hreserves hlooks; (cases p <;> cases hreserves); cases hlooks
      | delete tag u p => rw [hc] at hreserves; cases hreserves
    rw [hashStep_other hlooks, if_neg hreserves]
    exact h.other hlooks o
  · have hr := congrFun h.thread c
    have hgo : Outcome.go ≠ .nomem := by
      intro heq
      cases heq
    -- a section of `clear_tag_common`, of either call
    have hclear : ∀ (t : Thread) (key : ℤ) (d : ℕ), (r.registry.thread c).clears = some (key, d) →
        Option.Rel Sim
          ((clearCommon okDelete okSet s.registry.mem.bitmask s.table key d).map fun x =>
            ⟨s.registry.set c { s.registry.mem with bitmask := x.1 } t, x.2⟩)
          (some ⟨r.registry.set c (r.registry.mem.clearCommon key d) t, r.buckets⟩) := by
      intro t key d hclears
      obtain ⟨table', heq, h', hnbuckets, hcap'⟩ := clearCommon_spec h.table hcap
        (hi.clears_number hclears) (hi.clears_entry hclears) okDelete okSet
      rw [← hbitmask, heq]
      exact .some (h.set (Mem.clearCommon_tags _ _ _) (Mem.clearCommon_sem _ _ _) rfl h'
        hnbuckets hcap')
    cases hc : s.registry.thread c with
    | get a p =>
      rw [hc] at hlooks hr
      rw [hashStep, hc, step_get hr, hr]
      cases p
      case reserve =>
        cases o with
        | go =>
          obtain ⟨table', heq, h', hnbuckets, hcap'⟩ :=
            reserve_spec h.table hsize.2 hi.entries_le (hkeys c a _ hr) okSet
          dsimp only
          rw [if_pos rfl, if_neg fun h => hgo h.2, ← hbitmask, heq]
          exact .some (h.set (Mem.reserve_tags _ _ _) (Mem.reserve_sem _ _ _) rfl h' hnbuckets
            hcap')
        | _ => exact .none
      case lookup =>
        cases o with
        | go =>
          have hset : ∀ t, Sim ⟨s.registry.set c s.registry.mem t, s.table⟩
              ⟨r.registry.set c r.registry.mem t, r.buckets⟩ := fun t =>
            h.set rfl rfl hbitmask h.table rfl rfl
          dsimp only
          rw [if_pos rfl, if_neg fun h => hgo h.2, h.table.get (hkeys c a _ hr), getStep]
          cases r.registry.mem.table.lookup a.key with
          | none => exact .some (hset _)
          | some d => exact .some (hset _)
        | _ => exact .none
      case clearCommon d =>
        cases o with
        | go => exact hclear _ a.key d (by rw [hr]; rfl)
        | _ => exact .none
      all_goals exact absurd rfl hlooks
    | delete tag u p =>
      rw [hc] at hlooks hr
      rw [hashStep, hc, step_delete hr, hr]
      cases p
      case clearCommon e =>
        cases o with
        | go => exact hclear _ e.key e.tagKey (by rw [hr]; rfl)
        | _ => exact .none
      all_goals exact absurd rfl hlooks

end Step

/-! ## Every run

The simulation along a run, with the hash map in order in every state. -/

/-- The calls keep their arguments. -/
theorem IntKeys.step {s s' : State} {c : CallId} (h : IntKeys s) (hs : Step s c s') :
    IntKeys s' := by
  intro d a p hd
  by_cases hdc : d = c
  · subst hdc
    cases hc : s.thread d with
    | get a' p' =>
      obtain ⟨o, m, p'', -, rfl⟩ := hs.get hc
      rw [Config.set_thread_self] at hd
      cases hd
      exact h d a p' hc
    | delete tag u p' =>
      obtain ⟨o, m, p'', -, rfl⟩ := hs.delete hc
      rw [Config.set_thread_self] at hd
      cases hd
  · rw [hs.thread_of_ne hdc] at hd
    exact h d a p hd

/-- A new table stands for the empty map. -/
theorem newTable_sim {s₀ : State} (h0 : Init s₀) {ok : Bool × Bool} {table : HashMap TableEntry}
    (hnew : newTable ok = some table) : Sim ⟨s₀, table⟩ (.load s₀) := by
  obtain ⟨hwf, hentries⟩ : WF tagOps TableEntry.key table ∧ table.entries = 0 :=
    hashmapNew_wf (by decide) hnew
  have htable : s₀.mem.table = ∅ := by rw [h0.mem, Mem.initial]
  have hsizes : Buckets.new hashmapCap = ⟨table.cap, table.nbuckets⟩ := by
    rw [newTable, hashmapNew] at hnew
    split at hnew
    · cases hnew
      decide
    · cases hnew
  refine ⟨rfl, rfl, ⟨hwf, ⟨∅, ?_, fun k => ?_⟩, ?_, fun key d hl => ?_⟩, hsizes⟩
  · rw [Stands, hentries]
    rfl
  · show _ = (s₀.mem.table.lookup k.toInt).map _
    rw [htable]
    rfl
  · show table.count = s₀.mem.table.entries.length
    rw [hwf.count, hentries, htable]
    rfl
  · have hl : s₀.mem.table.lookup key = some d := hl
    rw [htable] at hl
    cases hl

/-- **The registry works on the hash map as on a finite map.**  Every run has a run on the finite
map beside it, with the same calls at the same points, and whatever can be done next on the finite
map can be done on the hash map: none of its loops goes on for ever. -/
theorem table_refines {s₀ : State} (h0 : Init s₀) (hkeys : IntKeys s₀) {ok : Bool × Bool}
    {table : HashMap TableEntry} (hnew : newTable ok = some table) {s : HashState}
    (h : Run HashStep ⟨s₀, table⟩ s) :
    ∃ r, Run SizedStep (.load s₀) r ∧ Sim s r ∧
      ∀ c r', SizedStep r c r' → ∃ s', HashStep s c s' ∧ Sim s' r' := by
  let R (s : HashState) (r : SizedState) : Prop :=
    (Inv r.registry ∧ r.buckets = .new hashmapCap ∧ IntKeys r.registry) ∧ Sim s r
  have hstep : ∀ s c s' r, R s r → HashStep s c s' → ∃ r', SizedStep r c r' ∧ R s' r' := by
    rintro s c s' r ⟨⟨hi, hb, hk⟩, hsim⟩ hs
    obtain ⟨r', hr, hsim'⟩ := moves_of_rel (hashStep_rel hi hb hk hsim c) hs
    obtain ⟨o, ho⟩ := hr
    obtain ⟨hstep, hb', -⟩ := sizedStep_spec hi hb ho
    exact ⟨r', ⟨o, ho⟩, ⟨hstep.inv hi, hb'.trans hb, hk.step hstep⟩, hsim'⟩
  obtain ⟨r, hrun, ⟨hi, hb, hk⟩, hsim⟩ :=
    h.simulate hstep ⟨⟨h0.inv, rfl, hkeys⟩, newTable_sim h0 hnew⟩
  refine ⟨r, hrun, hsim, fun c r' hr =>
    exists_moves_of_rel (hashStep_rel hi hb hk hsim c) ?_ hr⟩
  rintro ⟨o, x, y⟩
  exact ⟨(o, (x, true), (y, true)), by cases x <;> cases y <;> rfl⟩

/-- A creation, and two calls that look for its key. -/
def lookedUp : State :=
  ⟨Mem.initial, fun c => .get ⟨5, if c = 0 then tagCreat else tagOpen, tagPermAll, 0⟩ .start⟩

/-- Creation and opening by key, with the hash table in the place of the map. -/
theorem table_refines_lookedUp :
    ∃ table s r, newTable (true, true) = some table ∧ Run HashStep ⟨lookedUp, table⟩ s ∧
      s.registry.thread 1 = .get ⟨5, tagOpen, tagPermAll, 0⟩ (.unlockOpen 0) ∧
      Run SizedStep (.load lookedUp) r ∧ Sim s r := by
  have hnew : newTable (true, true) = some ((newTable (true, true)).get rfl) := rfl
  have hkeys : IntKeys lookedUp := by
    intro c a p h
    cases h
    exact (by decide : IsInt 5)
  let l : List (CallId × Outcome × (Bool × Bool) × (Bool × Bool)) :=
    List.replicate 39 (0, .go, (true, true), (true, true)) ++
      List.replicate 4 (1, .go, (true, true), (true, true))
  have hrun : Run HashStep _ (after hashStep ⟨lookedUp, (newTable (true, true)).get rfl⟩ l) :=
    run_after _ l
  obtain ⟨r, hr, hsim, -⟩ := table_refines ⟨rfl, fun c => rfl⟩ hkeys hnew hrun
  exact ⟨_, _, r, hnew, hrun, by decide +kernel, hr, hsim⟩

end TagAos.Registry
