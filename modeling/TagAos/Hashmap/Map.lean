import TagAos.RobinHood.Table

/-!
# `hashmap.c`

The hash map behind `tag_table`: open addressing with Robin Hood insertion, a removal that moves
the following entries back, and a table that doubles and halves.  The functions follow the source;
`α` is the type of items, whose first bytes are a key for the two functions the map is made with.

The loops without an end (`for (;;)`) take a bound on their rounds and give `none` when they come
to it; `TagAos.Hashmap.Refine` shows that `nbuckets` rounds are enough.  `dib` has 16 bits.  The
sizes are natural numbers: `ncap` is an `int`, which is enough for at most `2 ^ 30` buckets.  An
allocation either succeeds or fails, and `hashmap_set` and `hashmap_delete` return the item that
their `spare` bucket holds.
-/

set_option autoImplicit false

namespace TagAos.Hashmap

open RobinHood (Bucket)

/-! ## Memory

`struct hashmap`, with the array of buckets as a function from positions.  The allocator is a
parameter only in so far as it can fail. -/

/-- The functions that a map is made with. -/
structure Ops (α : Type) where
  /-- `hash`, of an item and the two seeds. -/
  hash : α → UInt64 → UInt64 → UInt64
  /-- `compare`: zero if the items have the same key. -/
  compare : α → α → ℤ

/-- `struct hashmap`, with the buckets it points to. -/
structure HashMap (α : Type) where
  oom : Bool
  cap : ℕ
  seed0 : UInt64
  seed1 : UInt64
  nbuckets : ℕ
  count : ℕ
  mask : ℕ
  growat : ℕ
  shrinkat : ℕ
  buckets : ℕ → Bucket UInt64 α

variable {α : Type} (ops : Ops α)

/-- `get_hash`: the hash is cut to the 48 bits that a bucket has for it. -/
def getHash (map : HashMap α) (key : α) : UInt64 :=
  ops.hash key map.seed0 map.seed1 <<< 16 >>> 16

/-- The bucket where the search for a hash begins. -/
def first (hash : UInt64) (mask : ℕ) : ℕ := hash.toNat &&& mask

/-- The bucket that is looked at after the bucket `i`. -/
def after (i mask : ℕ) : ℕ := (i + 1) &&& mask

/-- `dib += 1`, in 16 bits. -/
def moved (entry : Bucket UInt64 α) : Bucket UInt64 α :=
  { entry with dib := (entry.dib + 1) % 2 ^ 16 }

/-! ## The loops over buckets

Each loop ends at an empty bucket at the latest.  The rounds are counted, and a loop that has used
them up gives `none`; that this does not happen is shown in `TagAos.Hashmap.Probing`. -/

/-- The loop of `resize` that finds a bucket for one entry. -/
def placeLoop (mask : ℕ) :
    ℕ → (ℕ → Bucket UInt64 α) → Bucket UInt64 α → ℕ → Option (ℕ → Bucket UInt64 α)
  | 0, _, _, _ => none
  | fuel + 1, buckets, entry, j =>
    let bucket := buckets j
    if bucket.dib = 0 then some (Function.update buckets j entry)
    else if bucket.dib < entry.dib then
      placeLoop mask fuel (Function.update buckets j entry) (moved bucket) (after j mask)
    else placeLoop mask fuel buckets (moved entry) (after j mask)

/-- The loop of `resize` over the old buckets. -/
def moveAll (mask fuel : ℕ) (old : ℕ → Bucket UInt64 α) :
    List ℕ → (ℕ → Bucket UInt64 α) → Option (ℕ → Bucket UInt64 α)
  | [], buckets => some buckets
  | i :: is, buckets =>
    let entry := old i
    if entry.dib = 0 then moveAll mask fuel old is buckets
    else
      (placeLoop mask fuel buckets { entry with dib := 1 } (first entry.hash mask)).bind
        (moveAll mask fuel old is)

/-- The loop of `hashmap_set`: the buckets it leaves, and the item that has been replaced. -/
def setLoop (mask : ℕ) : ℕ → (ℕ → Bucket UInt64 α) → Bucket UInt64 α → ℕ →
    Option ((ℕ → Bucket UInt64 α) × Option α)
  | 0, _, _, _ => none
  | fuel + 1, buckets, entry, i =>
    let bucket := buckets i
    if bucket.dib = 0 then some (Function.update buckets i entry, none)
    else if entry.hash = bucket.hash ∧ ops.compare entry.item bucket.item = 0 then
      some (Function.update buckets i { bucket with item := entry.item }, some bucket.item)
    else if bucket.dib < entry.dib then
      setLoop mask fuel (Function.update buckets i entry) (moved bucket) (after i mask)
    else setLoop mask fuel buckets (moved entry) (after i mask)

/-- The loop of `hashmap_get` and of `hashmap_delete`: the bucket that the key is in. -/
def findLoop (mask : ℕ) (buckets : ℕ → Bucket UInt64 α) (hash : UInt64) (key : α) :
    ℕ → ℕ → Option (Option ℕ)
  | 0, _ => none
  | fuel + 1, i =>
    let bucket := buckets i
    if bucket.dib = 0 then some none
    else if bucket.hash = hash ∧ ops.compare key bucket.item = 0 then some (some i)
    else findLoop mask buckets hash key fuel (after i mask)

/-- The loop of `hashmap_delete` that moves entries back; `i` is the bucket `prev`. -/
def shiftLoop (mask : ℕ) : ℕ → (ℕ → Bucket UInt64 α) → ℕ → Option (ℕ → Bucket UInt64 α)
  | 0, _, _ => none
  | fuel + 1, buckets, i =>
    let bucket := buckets (after i mask)
    if bucket.dib ≤ 1 then some (Function.update buckets i (buckets i).clear)
    else shiftLoop mask fuel (Function.update buckets i bucket.nearer) (after i mask)

/-- The loop of `hashmap_scan`; `iter` may keep a state of its own. -/
def scanLoop {σ : Type} (iter : σ → α → σ × Bool) (buckets : ℕ → Bucket UInt64 α) :
    List ℕ → σ → σ × Bool
  | [], x => (x, true)
  | i :: is, x =>
    let bucket := buckets i
    if bucket.dib = 0 then scanLoop iter buckets is x
    else
      let r := iter x bucket.item
      if r.2 then scanLoop iter buckets is r.1 else (r.1, false)

/-! ## Lookup

`hashmap_get`, `hashmap_probe` and the functions that only look. -/

/-- The search for a key, from the bucket its hash names. -/
def find (map : HashMap α) (key : α) : Option (Option ℕ) :=
  let hash := getHash ops map key
  findLoop ops map.mask map.buckets hash key map.nbuckets (first hash map.mask)

/-- `hashmap_get`. -/
def hashmapGet (map : HashMap α) (key : α) : Option (Option α) :=
  (find ops map key).map fun found => found.map fun i => (map.buckets i).item

/-- `hashmap_count`. -/
def hashmapCount (map : HashMap α) : ℕ := map.count

/-- `hashmap_probe`. -/
def hashmapProbe (map : HashMap α) (position : ℕ) : Option α :=
  let bucket := map.buckets (position &&& map.mask)
  if bucket.dib = 0 then none else some bucket.item

/-- `hashmap_scan`. -/
def hashmapScan {σ : Type} (iter : σ → α → σ × Bool) (map : HashMap α) (x : σ) : σ × Bool :=
  scanLoop iter map.buckets (List.range map.nbuckets) x

/-! ## Making a map

Also the resizing, which makes a second map and moves the entries there. -/

/-- `while (ncap < cap) ncap *= 2`, in at most `fuel` rounds. -/
def double (cap : ℕ) : ℕ → ℕ → ℕ
  | 0, ncap => ncap
  | fuel + 1, ncap => if ncap < cap then double cap fuel (ncap * 2) else ncap

/-- The number of buckets of a map that is made with `cap`. -/
def roundCap (cap : ℕ) : ℕ := if cap < 16 then 16 else double cap cap 16

variable [Inhabited α]

/-- Memory that has been filled with zeros. -/
def zeroed : ℕ → Bucket UInt64 α := fun _ => ⟨0, 0, default⟩

/-- `hashmap_new_with_allocator`.  `ok` says which of its two allocations succeed. -/
def hashmapNew (ok : Bool × Bool) (cap : ℕ) (seed0 seed1 : UInt64) : Option (HashMap α) :=
  let cap := roundCap cap
  if ok.1 && ok.2 then
    some {
      oom := false
      cap := cap
      seed0 := seed0
      seed1 := seed1
      nbuckets := cap
      count := 0
      mask := cap - 1
      growat := cap * 3 / 4
      shrinkat := cap / 10
      buckets := zeroed }
  else none

/-- `hashmap_clear`.  Where it allocates, the old buckets are as many at least, and it goes on with
them if the allocation fails. -/
def hashmapClear (updateCap : Bool) (map : HashMap α) : HashMap α :=
  let nbuckets := if updateCap then map.nbuckets else map.cap
  { map with
    count := 0
    cap := nbuckets
    nbuckets := nbuckets
    buckets := zeroed
    mask := nbuckets - 1
    growat := nbuckets * 3 / 4
    shrinkat := nbuckets / 10 }

/-- `resize`.  The new table is given the second seed of the map twice, and nothing is hashed with
it. -/
def resize (ok : Bool × Bool) (map : HashMap α) (newCap : ℕ) : Option (HashMap α × Bool) :=
  match hashmapNew ok newCap map.seed1 map.seed1 with
  | none => some (map, false)
  | some map2 =>
    (moveAll map2.mask map2.nbuckets map.buckets (List.range map.nbuckets) map2.buckets).map
      fun buckets =>
        ({ map with
            buckets := buckets
            nbuckets := map2.nbuckets
            mask := map2.mask
            growat := map2.growat
            shrinkat := map2.shrinkat }, true)

/-! ## Insertion and removal

`hashmap_set` and `hashmap_delete`, each of which may resize the table. -/

/-- `hashmap_set` once there is room: the item goes into the buckets. -/
def insertItem (map : HashMap α) (item : α) : Option (HashMap α × Option α) :=
  let hash := getHash ops map item
  (setLoop ops map.mask map.nbuckets map.buckets ⟨hash, 1, item⟩ (first hash map.mask)).map
    fun r =>
      match r.2 with
      | none => ({ map with buckets := r.1, count := map.count + 1 }, none)
      | some old => ({ map with buckets := r.1 }, some old)

/-- `hashmap_set`, and what it returns: the item that has been replaced. -/
def hashmapSet (ok : Bool × Bool) (map : HashMap α) (item : α) :
    Option (HashMap α × Option α) :=
  let map := { map with oom := false }
  if map.count = map.growat then
    (resize ok map (map.nbuckets * 2)).bind fun r =>
      if r.2 then insertItem ops r.1 item else some ({ r.1 with oom := true }, none)
  else insertItem ops map item

/-- `hashmap_delete` once the item has been found in the bucket `i`. -/
def removeAt (ok : Bool × Bool) (map : HashMap α) (i : ℕ) : Option (HashMap α) :=
  (shiftLoop map.mask map.nbuckets (Function.update map.buckets i (map.buckets i).clear) i).bind
    fun buckets =>
      let map := { map with buckets := buckets, count := map.count - 1 }
      if map.cap < map.nbuckets ∧ map.count ≤ map.shrinkat then
        -- what `resize` returns is ignored
        (resize ok map (map.nbuckets / 2)).map Prod.fst
      else some map

/-- `hashmap_delete`, and what it returns: the item that has been removed. -/
def hashmapDelete (ok : Bool × Bool) (map : HashMap α) (key : α) :
    Option (HashMap α × Option α) :=
  let map := { map with oom := false }
  (find ops map key).bind fun found =>
    match found with
    | none => some (map, none)
    | some i => (removeAt ok map i).map fun map' => (map', some (map.buckets i).item)

end TagAos.Hashmap
