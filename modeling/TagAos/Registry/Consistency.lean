import TagAos.Registry.Locks

/-!
# The registry is consistent

The three structures of the registry are changed at different moments, and only two of them under
`common_lock`.  What keeps them together is that a descriptor whose bit is set has at most one
owner: the tag that `tags` holds there, or one call, either a creation that has reserved the
descriptor and not yet published a tag, or a deletion that has taken the tag out of `tags` and not
yet given the descriptor back (`Thread.owns`).

* `Effect` — the five things a step can do to the registry, with who owns what.
* `Inv` — whatever has an owner is in use, and the table knows exactly the key of its owner.
* `registry_consistent` — the structures agree in every reachable state, and `TAG_OPEN` returns
  only descriptors it has found live.
-/

set_option autoImplicit false

namespace TagAos.Registry

open Conc

/-! ## Ownership

A descriptor whose bit is set belongs to somebody: to the tag in `tags`, or to the one call that is
about to put a tag there or to give the descriptor back.  That is the bridge over the moments at
which the three structures do not agree. -/

/-- The descriptor that a creation has reserved and neither published nor given back. -/
def GetState.owns : GetState → Option ℕ
  | unlockCreate (.ok d) | allocLevels d | addLevel d _ | allocEntry d | publish d | lockClear d
  | clearCommon d => some d
  | _ => none

/-- The tag that a deletion has found and is about to take out of `tags`. -/
def DeleteState.sees : DeleteState → Option Entry
  | checkPerm e | clearTag e => some e
  | _ => none

/-- The tag that a deletion has taken out of `tags` and neither given up nor put back. -/
def DeleteState.owns : DeleteState → Option Entry
  | unlockTag e | testWaiting e | lockClear e | clearCommon e | restore e _ => some e
  | _ => none

/-- The descriptor a call owns, and the key it is for. -/
def Thread.owns : Thread → Option (ℕ × ℤ)
  | get a p => p.owns.map fun d => (d, a.key)
  | delete tag _ p => p.owns.map fun e => (tag.toNat, e.key)

/-- The descriptor `d` is in the table under `key`, if that is a key for the table, and under no
other key. -/
def Names (t : AList fun _ : ℤ => ℕ) (d : ℕ) (key : ℤ) : Prop :=
  ∀ k, t.lookup k = some d ↔ k = key ∧ key ≠ ipcPrivate

/-! ## What the sections under `common_lock` do

Of the two sections that change the bitmask and the table each is described by what it does to both,
with the branches for errors included. -/

/-- The bitmask and the table stand for the same as before. -/
structure Same (m m' : Mem) : Prop where
  bits : ∀ k, m'.bitmask.bit k = m.bitmask.bit k
  nBits : m'.bitmask.nBits = m.bitmask.nBits
  table : m'.table = m.table

/-- `d` has been reserved for `key`. -/
structure Reserves (m m' : Mem) (d : ℕ) (key : ℤ) : Prop where
  lt : d < m.bitmask.nBits
  clear : m.bitmask.bit d = false
  bits : ∀ k, m'.bitmask.bit k = (decide (k = d) || m.bitmask.bit k)
  nBits : m'.bitmask.nBits = m.bitmask.nBits
  table : ∀ k x, m'.table.lookup k = some x ↔
    m.table.lookup k = some x ∨ (k = key ∧ key ≠ ipcPrivate ∧ x = d)
  /-- The key was not in use. -/
  new : key ≠ ipcPrivate → m.table.lookup key = none
  tags : m'.tags = m.tags

/-- `d` has been given back. -/
structure GivesBack (m m' : Mem) (d : ℕ) : Prop where
  bits : ∀ k, m'.bitmask.bit k = (!decide (k = d) && m.bitmask.bit k)
  nBits : m'.bitmask.nBits = m.bitmask.nBits
  table : ∀ k x, m'.table.lookup k = some x ↔ m.table.lookup k = some x ∧ x ≠ d
  tags : m'.tags = m.tags

/-- A number that has been handed out and given back leaves no trace. -/
theorem Bitmask.clear_avail {b b' : Bitmask} {d : ℕ} (h : b.getAvailNumber = some (d, b')) :
    (∀ k, (b'.clearNumber d).2.bit k = b.bit k) ∧ (b'.clearNumber d).2.nBits = b.nBits := by
  obtain ⟨hlt, hn, hclear, hbits⟩ := getAvailNumber_spec h
  have hlt' : d < b'.nBits := by rw [hn]; exact hlt
  obtain ⟨-, hn', hbits'⟩ := clearNumber_spec hlt' (by simp [hbits])
  refine ⟨fun k => ?_, hn'.trans hn⟩
  rw [hbits', hbits]
  by_cases hk : k = d
  · subst hk; simp [hclear]
  · simp [hk]

/-- A reservation fails and changes nothing, or takes a number that was free, for a key that had
none. -/
theorem Mem.reserve_spec {m m' : Mem} {key : ℤ} {oom : Bool} {r : Except ℤ ℕ}
    (hn : m.bitmask.nBits = maxTags) (h : m.reserve key oom = (m', r)) :
    (Same m m' ∧ m'.tags = m.tags ∧ ∃ e, r = .error e) ∨
      ∃ d, r = .ok d ∧ Reserves m m' d key := by
  rw [reserve] at h
  split at h
  · cases h; exact .inl ⟨⟨fun _ => rfl, rfl, rfl⟩, rfl, _, rfl⟩
  · split at h
    · cases h; exact .inl ⟨⟨fun _ => rfl, rfl, rfl⟩, rfl, _, rfl⟩
    · rename_i d b havail
      obtain ⟨hlt, hnb, hclear, hbits⟩ := Bitmask.getAvailNumber_spec havail
      obtain ⟨hundo, hundon⟩ := Bitmask.clear_avail havail
      split_ifs at h with hmax hkey hin hoom
      · exact absurd hmax (not_le.2 (hn ▸ hlt))
      · cases h
        refine .inr ⟨d, rfl, hlt, hclear, hbits, hnb, fun k x => ?_, fun h => absurd hkey h, rfl⟩
        simp [hkey]
      · cases h; exact .inl ⟨⟨hundo, hundon, rfl⟩, rfl, _, rfl⟩
      · cases h; exact .inl ⟨⟨hundo, hundon, rfl⟩, rfl, _, rfl⟩
      · cases h
        have hnone : m.table.lookup key = none := by simpa using hin
        refine .inr ⟨d, rfl, hlt, hclear, hbits, hnb, fun k x => ?_, fun _ => hnone, rfl⟩
        by_cases hk : k = key
        · subst hk; simp [hnone, hkey, eq_comm]
        · simp [hk, AList.lookup_insert_ne hk]

/-- **`clear_tag_common` gives back** a descriptor that is in use, with the key it is for. -/
theorem Mem.clearCommon_spec {m : Mem} {key : ℤ} {d : ℕ} (hlt : d < m.bitmask.nBits)
    (hbit : m.bitmask.bit d = true) (hnames : Names m.table d key) :
    GivesBack m (m.clearCommon key d) d := by
  obtain ⟨hone, hn, hbits⟩ := Bitmask.clearNumber_spec hlt hbit
  have heq : m.clearCommon key d = { m with
      bitmask := (m.bitmask.clearNumber d).2
      table := if key ≠ ipcPrivate ∧ m.table.lookup key = some d then m.table.erase key
        else m.table } := by
    simp only [clearCommon, if_pos hone]
  rw [heq]
  refine ⟨hbits, hn, fun k x => ?_, rfl⟩
  by_cases hkey : key = ipcPrivate
  · -- a private descriptor is not in the table
    have hno : ∀ k, m.table.lookup k ≠ some d := fun k hk => (hnames k).1 hk |>.2 hkey
    simp only [hkey, ne_eq, not_true_eq_false, false_and, if_false]
    exact ⟨fun h => ⟨h, fun hx => hno k (hx ▸ h)⟩, fun h => h.1⟩
  · have hin : m.table.lookup key = some d := (hnames key).2 ⟨rfl, hkey⟩
    simp only [ne_eq, hkey, not_false_eq_true, hin, and_self, if_true]
    by_cases hk : k = key
    · subst hk; simp [hin, eq_comm]
    · rw [AList.lookup_erase_ne hk]
      exact ⟨fun h => ⟨h, fun hx => hk ((hnames k).1 (hx ▸ h)).1⟩, fun h => h.1⟩

/-! ## What a step does to the registry

All operations of both calls as one list.  The proof that the invariant is kept goes through this
list and does not come back to the code. -/

/-- The things a step can do, where `t` and `t'` are the mover before and after it. -/
inductive Effect (m m' : Mem) (t t' : Thread) : Prop
  /-- Nothing, except that the mover may give up a descriptor. -/
  | quiet (same : Same m m') (tags : m'.tags = m.tags)
      (owns : t'.owns = none ∨ t'.owns = t.owns)
  /-- A creation has reserved a descriptor. -/
  | reserved (d : ℕ) (key : ℤ) (mem : Reserves m m' d key) (owns : t'.owns = some (d, key))
  /-- A descriptor has been given back. -/
  | cleared (d : ℕ) (key : ℤ) (lock : t.held = some (.common, .write))
      (owns : t.owns = some (d, key)) (mem : GivesBack m m' d) (owns' : t'.owns = none)
  /-- A tag has been published, or put back. -/
  | linked (d : ℕ) (e : Entry) (owns : t.owns = some (d, e.key)) (tagKey : e.tagKey = d)
      (same : Same m m') (tags : m'.tags = Function.update m.tags d (some e))
      (owns' : t'.owns = none)
  /-- A tag has been taken out by its deletion. -/
  | taken (d : ℕ) (e : Entry) (lock : t.held = some (.tag d, .write)) (seen : m.tags d = some e)
      (same : Same m m') (tags : m'.tags = Function.update m.tags d none)
      (owns' : t'.owns = some (d, e.key))

/-- The registry and its calls agree. -/
structure Inv (s : State) : Prop where
  locks : LocksHeld s
  nBits : s.mem.bitmask.nBits = maxTags
  used : ∀ d, s.mem.bitmask.bit d = true → d < maxTags
  /-- A live tag is in use. -/
  live : ∀ d e, s.mem.tags d = some e →
    e.tagKey = d ∧ s.mem.bitmask.bit d = true ∧ Names s.mem.table d e.key
  /-- What a call owns is in use and is not live. -/
  owned : ∀ c d key, (s.thread c).owns = some (d, key) →
    s.mem.tags d = none ∧ s.mem.bitmask.bit d = true ∧ Names s.mem.table d key
  /-- No two calls own the same descriptor. -/
  alone : ∀ c c' d key key', (s.thread c).owns = some (d, key) →
    (s.thread c').owns = some (d, key') → c = c'
  /-- What the table knows is in use. -/
  named : ∀ k d, s.mem.table.lookup k = some d → s.mem.bitmask.bit d = true
  inj : ∀ k k' d, s.mem.table.lookup k = some d → s.mem.table.lookup k' = some d → k = k'
  /-- A deletion owns a tag with the descriptor it was called for. -/
  entry : ∀ c tag u p e, s.thread c = .delete tag u p → p.owns = some e → e.tagKey = tag.toNat
  /-- A tag that a deletion has found is still there. -/
  seen : ∀ c tag u p e, s.thread c = .delete tag u p → p.sees = some e →
    s.mem.tags tag.toNat = some e
  /-- A descriptor that a `TAG_OPEN` has looked up is still in the table. -/
  found : ∀ c a d, s.thread c = .get a (.loadTag d) → s.mem.table.lookup a.key = some d

/-- Nothing but a semaphore has changed. -/
theorem Effect.silent {m m' : Mem} {t t' : Thread} (bitmask : m'.bitmask = m.bitmask)
    (table : m'.table = m.table) (tags : m'.tags = m.tags)
    (owns : t'.owns = none ∨ t'.owns = t.owns) : Effect m m' t t' :=
  .quiet ⟨fun _ => by rw [bitmask], by rw [bitmask], table⟩ tags owns

theorem Same.of_downWrite {m m' : Mem} {c : CallId} {l : Lock} (h : m.downWrite c l = some m') :
    Same m m' ∧ m'.tags = m.tags := by
  simp only [Mem.downWrite, Option.map_eq_some_iff] at h
  obtain ⟨s, -, rfl⟩ := h
  exact ⟨⟨fun _ => rfl, rfl, rfl⟩, rfl⟩

theorem Same.of_downRead {m m' : Mem} {c : CallId} {l : Lock} (h : m.downRead c l = some m') :
    Same m m' ∧ m'.tags = m.tags := by
  simp only [Mem.downRead, Option.map_eq_some_iff] at h
  obtain ⟨s, -, rfl⟩ := h
  exact ⟨⟨fun _ => rfl, rfl, rfl⟩, rfl⟩

section Effect

variable {s s' : State} {c : CallId} {m m' : Mem}

/-- Each step of a `tag_get` has one of the effects of `Effect`. -/
theorem get_effect {a : GetArgs} {p p' : GetState} {o : Outcome} (hi : Inv s)
    (hc : s.thread c = .get a p) (h : getStep c s.mem a p o = some (m', p')) :
    Effect s.mem m' (.get a p) (.get a p') := by
  cases p
  case start =>
    cases o <;> simp only [getStep, reduceCtorEq, Option.some.injEq, Prod.mk.injEq] at h
    obtain ⟨rfl, rfl⟩ := h
    refine .silent rfl rfl rfl (.inl ?_)
    rw [getStart]
    split_ifs <;> rfl
  case lockCreate =>
    cases o <;> simp only [getStep, reduceCtorEq, Option.some.injEq, Prod.mk.injEq,
      Option.map_eq_some_iff] at h
    · obtain ⟨m₁, h, rfl, rfl⟩ := h
      exact .quiet (Same.of_downWrite h).1 (Same.of_downWrite h).2 (.inl rfl)
    · obtain ⟨rfl, rfl⟩ := h; exact .silent rfl rfl rfl (.inl rfl)
  case lockClear d =>
    cases o <;> simp only [getStep, reduceCtorEq, Option.some.injEq, Prod.mk.injEq,
      Option.map_eq_some_iff] at h
    · obtain ⟨m₁, h, rfl, rfl⟩ := h
      exact .quiet (Same.of_downWrite h).1 (Same.of_downWrite h).2 (.inr rfl)
    · obtain ⟨rfl, rfl⟩ := h; exact .silent rfl rfl rfl (.inl rfl)
  case lockOpen =>
    cases o <;> simp only [getStep, reduceCtorEq, Option.some.injEq, Prod.mk.injEq,
      Option.map_eq_some_iff] at h
    · obtain ⟨m₁, h, rfl, rfl⟩ := h
      exact .quiet (Same.of_downRead h).1 (Same.of_downRead h).2 (.inl rfl)
    · obtain ⟨rfl, rfl⟩ := h; exact .silent rfl rfl rfl (.inl rfl)
  case reserve =>
    have key : ∀ oom, Effect s.mem (s.mem.reserve a.key oom).1 (.get a .reserve)
        (.get a (.unlockCreate (s.mem.reserve a.key oom).2)) := by
      intro oom
      cases hr : s.mem.reserve a.key oom with
      | mk m₁ r =>
        rcases Mem.reserve_spec hi.nBits hr with ⟨hsame, htags, e, rfl⟩ | ⟨d, rfl, hres⟩
        · exact .quiet hsame htags (.inl rfl)
        · exact .reserved d a.key hres rfl
    cases o <;> simp only [getStep, reduceCtorEq, Option.some.injEq, Prod.mk.injEq] at h
    · obtain ⟨rfl, rfl⟩ := h; exact key false
    · obtain ⟨rfl, rfl⟩ := h; exact key true
  case unlockCreate r =>
    cases r <;> cases o <;>
      simp only [getStep, reduceCtorEq, Option.some.injEq, Prod.mk.injEq] at h
    · obtain ⟨rfl, rfl⟩ := h; exact .silent rfl rfl rfl (.inl rfl)
    · obtain ⟨rfl, rfl⟩ := h; exact .silent rfl rfl rfl (.inr rfl)
  case addLevel d i =>
    cases o <;> simp only [getStep, reduceCtorEq, Option.some.injEq, Prod.mk.injEq] at h
    · obtain ⟨rfl, rfl⟩ := h
      refine .silent rfl rfl rfl (.inr ?_)
      split_ifs <;> rfl
    · obtain ⟨rfl, rfl⟩ := h; exact .silent rfl rfl rfl (.inr rfl)
  case publish d =>
    cases o <;> simp only [getStep, reduceCtorEq, Option.some.injEq, Prod.mk.injEq] at h
    obtain ⟨rfl, rfl⟩ := h
    exact .linked d ⟨a.key, d, a.permission, a.euid⟩ rfl rfl ⟨fun _ => rfl, rfl, rfl⟩ rfl rfl
  case clearCommon d =>
    cases o <;> simp only [getStep, reduceCtorEq, Option.some.injEq, Prod.mk.injEq] at h
    obtain ⟨rfl, rfl⟩ := h
    obtain ⟨-, hbit, hnames⟩ := hi.owned c d a.key (by rw [hc]; rfl)
    exact .cleared d a.key rfl rfl
      (Mem.clearCommon_spec (by rw [hi.nBits]; exact hi.used d hbit) hbit hnames) rfl
  case lookup =>
    cases o <;> simp only [getStep, reduceCtorEq] at h
    split at h <;> cases h <;> exact .silent rfl rfl rfl (.inl rfl)
  all_goals
    cases o <;> simp only [getStep, reduceCtorEq, Option.some.injEq, Prod.mk.injEq] at h <;>
      obtain ⟨rfl, rfl⟩ := h <;>
      first | exact .silent rfl rfl rfl (.inl rfl) | exact .silent rfl rfl rfl (.inr rfl)

/-- So has each step of a deletion. -/
theorem delete_effect {tag : ℤ} {u : ℕ} {p p' : DeleteState} {o : Outcome} (hi : Inv s)
    (hc : s.thread c = .delete tag u p) (h : deleteStep c s.mem tag u p o = some (m', p')) :
    Effect s.mem m' (.delete tag u p) (.delete tag u p') := by
  cases p
  case start =>
    cases o <;> simp only [deleteStep, reduceCtorEq, Option.some.injEq, Prod.mk.injEq] at h
    obtain ⟨rfl, rfl⟩ := h
    refine .silent rfl rfl rfl (.inl ?_)
    split_ifs <;> rfl
  case tryLock =>
    cases o <;> simp only [deleteStep, reduceCtorEq] at h
    · split at h
      · rename_i hm; cases h
        exact .quiet (Same.of_downWrite hm).1 (Same.of_downWrite hm).2 (.inl rfl)
      · cases h; exact .silent rfl rfl rfl (.inl rfl)
    · cases h; exact .silent rfl rfl rfl (.inl rfl)
  case loadTag =>
    cases o <;> simp only [deleteStep, reduceCtorEq] at h
    split at h <;> cases h <;> exact .silent rfl rfl rfl (.inl rfl)
  case checkPerm e =>
    cases o <;> simp only [deleteStep, reduceCtorEq, Option.some.injEq, Prod.mk.injEq] at h
    obtain ⟨rfl, rfl⟩ := h
    refine .silent rfl rfl rfl (.inl ?_)
    split_ifs <;> rfl
  case clearTag e =>
    cases o <;> simp only [deleteStep, reduceCtorEq, Option.some.injEq, Prod.mk.injEq] at h
    obtain ⟨rfl, rfl⟩ := h
    exact .taken tag.toNat e rfl (hi.seen c tag u _ e hc rfl) ⟨fun _ => rfl, rfl, rfl⟩ rfl rfl
  case lockClear e =>
    cases o <;> simp only [deleteStep, reduceCtorEq, Option.some.injEq, Prod.mk.injEq,
      Option.map_eq_some_iff] at h
    · obtain ⟨m₁, h, rfl, rfl⟩ := h
      exact .quiet (Same.of_downWrite h).1 (Same.of_downWrite h).2 (.inr rfl)
    · obtain ⟨rfl, rfl⟩ := h; exact .silent rfl rfl rfl (.inr rfl)
  case clearCommon e =>
    cases o <;> simp only [deleteStep, reduceCtorEq, Option.some.injEq, Prod.mk.injEq] at h
    obtain ⟨rfl, rfl⟩ := h
    obtain ⟨-, hbit, hnames⟩ := hi.owned c tag.toNat e.key (by rw [hc]; rfl)
    rw [hi.entry c tag u _ e hc rfl]
    exact .cleared tag.toNat e.key rfl rfl
      (Mem.clearCommon_spec (by rw [hi.nBits]; exact hi.used _ hbit) hbit hnames) rfl
  case restore e rc =>
    cases o <;> simp only [deleteStep, reduceCtorEq, Option.some.injEq, Prod.mk.injEq] at h
    obtain ⟨rfl, rfl⟩ := h
    exact .linked tag.toNat e rfl (hi.entry c tag u _ e hc rfl) ⟨fun _ => rfl, rfl, rfl⟩ rfl rfl
  all_goals
    cases o <;> simp only [deleteStep, reduceCtorEq, Option.some.injEq, Prod.mk.injEq] at h <;>
      obtain ⟨rfl, rfl⟩ := h <;>
      first | exact .silent rfl rfl rfl (.inl rfl) | exact .silent rfl rfl rfl (.inr rfl)

/-- So has every step.  All that follows argues from `Effect`, and does not look at the code of the
calls. -/
theorem Step.effect (hi : Inv s) (hs : Step s c s') :
    Effect s.mem s'.mem (s.thread c) (s'.thread c) := by
  cases hc : s.thread c with
  | get a p =>
    obtain ⟨o, m, p', hx, rfl⟩ := hs.get hc
    rw [Config.set_thread_self]
    exact get_effect hi hc hx
  | delete tag u p =>
    obtain ⟨o, m, p', hx, rfl⟩ := hs.delete hc
    rw [Config.set_thread_self]
    exact delete_effect hi hc hx

end Effect

/-! ## Every step keeps the invariant

One lemma for each field of the invariant.  In most of them the mover is set apart from the calls
that do not move. -/

/-- Whether a table names a number depends only on the keys that lead to this number. -/
theorem Names.congr {t t' : AList fun _ : ℤ => ℕ} {d : ℕ} {key : ℤ} (h : Names t d key)
    (ht : ∀ k, t'.lookup k = some d ↔ t.lookup k = some d) : Names t' d key :=
  fun k => (ht k).trans (h k)

namespace Reserves

variable {m m' : Mem} {d x : ℕ} {key key' : ℤ}

theorem bit (h : Reserves m m' d key) (hx : m.bitmask.bit x = true) :
    m'.bitmask.bit x = true := by rw [h.bits, hx, Bool.or_true]

/-- What is in use already keeps its key. -/
theorem names (h : Reserves m m' d key) (hx : m.bitmask.bit x = true) (hn : Names m.table x key') :
    Names m'.table x key' := by
  have hne : x ≠ d := by
    rintro rfl
    rw [h.clear] at hx; cases hx
  exact hn.congr fun k => by simp [h.table, hne]

end Reserves

namespace GivesBack

variable {m m' : Mem} {d x : ℕ} {key : ℤ}

theorem bit (h : GivesBack m m' d) (hne : x ≠ d) (hx : m.bitmask.bit x = true) :
    m'.bitmask.bit x = true := by simp [h.bits, hne, hx]

theorem names (h : GivesBack m m' d) (hne : x ≠ d) (hn : Names m.table x key) :
    Names m'.table x key := hn.congr fun k => by simp [h.table, hne]

end GivesBack

namespace Inv

variable {s s' : State} {c d : CallId}

/-- What a live tag is called. -/
theorem not_owned (h : Inv s) {x : ℕ} {e : Entry} (hx : s.mem.tags x = some e) (key : ℤ) :
    (s.thread c).owns ≠ some (x, key) := by
  intro hown
  rw [(h.owned c x key hown).1] at hx; cases hx

section Step

variable (h : Inv s) (he : Effect s.mem s'.mem (s.thread c) (s'.thread c))
  (ho : ∀ d, d ≠ c → s'.thread d = s.thread d)

include h he

/-- The numbers in use are below the bound. -/
theorem used_step : s'.mem.bitmask.nBits = maxTags ∧
    ∀ x, s'.mem.bitmask.bit x = true → x < maxTags := by
  cases he with
  | quiet same => exact ⟨same.nBits.trans h.nBits, fun x hx => h.used x (same.bits x ▸ hx)⟩
  | reserved d key mem =>
    refine ⟨mem.nBits.trans h.nBits, fun x hx => ?_⟩
    by_cases hxd : x = d
    · subst hxd; exact h.nBits ▸ mem.lt
    · exact h.used x (by simpa [mem.bits, hxd] using hx)
  | cleared d key lock owns mem =>
    refine ⟨mem.nBits.trans h.nBits, fun x hx => h.used x ?_⟩
    rw [mem.bits] at hx
    exact (Bool.and_eq_true _ _ ▸ hx).2
  | linked d e owns tagKey same =>
    exact ⟨same.nBits.trans h.nBits, fun x hx => h.used x (same.bits x ▸ hx)⟩
  | taken d e lock seen same =>
    exact ⟨same.nBits.trans h.nBits, fun x hx => h.used x (same.bits x ▸ hx)⟩

/-- A published tag has its number and its name.  Both are taken away only by the call that has
taken the tag out of `tags` before. -/
theorem live_step (x : ℕ) (e : Entry) (hx : s'.mem.tags x = some e) :
    e.tagKey = x ∧ s'.mem.bitmask.bit x = true ∧ Names s'.mem.table x e.key := by
  cases he with
  | quiet same tags =>
    rw [tags] at hx
    rw [same.bits, same.table]
    exact h.live x e hx
  | reserved d key mem =>
    rw [mem.tags] at hx
    obtain ⟨h1, h2, h3⟩ := h.live x e hx
    exact ⟨h1, mem.bit h2, mem.names h2 h3⟩
  | cleared d key lock owns mem =>
    rw [mem.tags] at hx
    obtain ⟨h1, h2, h3⟩ := h.live x e hx
    have hne : x ≠ d := by
      rintro rfl
      exact h.not_owned hx key owns
    exact ⟨h1, mem.bit hne h2, mem.names hne h3⟩
  | linked d e₀ owns tagKey same tags =>
    rw [tags] at hx
    rw [same.bits, same.table]
    by_cases hxd : x = d
    · subst hxd
      simp only [Function.update_self, Option.some.injEq] at hx
      subst hx
      exact ⟨tagKey, (h.owned c x _ owns).2⟩
    · rw [Function.update_of_ne hxd] at hx
      exact h.live x e hx
  | taken d e₀ lock seen same tags =>
    rw [tags] at hx
    rw [same.bits, same.table]
    by_cases hxd : x = d
    · subst hxd; simp at hx
    · rw [Function.update_of_ne hxd] at hx
      exact h.live x e hx

include ho

/-- So has a tag that a call has reserved and not published, or has taken out and not given back; it
is not in `tags`. -/
theorem owned_step (f : CallId) (x : ℕ) (key : ℤ) (hf : (s'.thread f).owns = some (x, key)) :
    s'.mem.tags x = none ∧ s'.mem.bitmask.bit x = true ∧ Names s'.mem.table x key := by
  cases he with
  | quiet same tags owns =>
    rw [tags, same.bits, same.table]
    refine h.owned f x key ?_
    by_cases hfc : f = c
    · subst hfc
      rcases owns with owns | owns
      · rw [owns] at hf; cases hf
      · rwa [← owns]
    · rwa [← ho f hfc]
  | reserved d key₀ mem owns =>
    rw [mem.tags]
    by_cases hfc : f = c
    · subst hfc
      rw [owns] at hf
      cases hf
      have hnone : s.mem.tags x = none := by
        by_contra hne
        obtain ⟨e, he⟩ := Option.ne_none_iff_exists'.1 hne
        have := (h.live x e he).2.1
        rw [mem.clear] at this; cases this
      refine ⟨hnone, by simp [mem.bits], fun k => ?_⟩
      have hold : s.mem.table.lookup k ≠ some x := by
        intro hk
        have := h.named k x hk
        rw [mem.clear] at this; cases this
      simp [mem.table, hold]
    · rw [ho f hfc] at hf
      obtain ⟨h1, h2, h3⟩ := h.owned f x key hf
      exact ⟨h1, mem.bit h2, mem.names h2 h3⟩
  | cleared d key₀ lock owns mem owns' =>
    rw [mem.tags]
    have hfc : f ≠ c := by
      rintro rfl
      rw [owns'] at hf; cases hf
    rw [ho f hfc] at hf
    obtain ⟨h1, h2, h3⟩ := h.owned f x key hf
    have hne : x ≠ d := by
      rintro rfl
      exact hfc (h.alone f c x key key₀ hf owns)
    exact ⟨h1, mem.bit hne h2, mem.names hne h3⟩
  | linked d e owns tagKey same tags owns' =>
    rw [tags, same.bits, same.table]
    have hfc : f ≠ c := by
      rintro rfl
      rw [owns'] at hf; cases hf
    rw [ho f hfc] at hf
    have hne : x ≠ d := by
      rintro rfl
      exact hfc (h.alone f c x key _ hf owns)
    rw [Function.update_of_ne hne]
    exact h.owned f x key hf
  | taken d e lock seen same tags owns' =>
    rw [tags, same.bits, same.table]
    by_cases hfc : f = c
    · subst hfc
      rw [owns'] at hf
      cases hf
      exact ⟨Function.update_self .., (h.live x e seen).2⟩
    · rw [ho f hfc] at hf
      have hne : x ≠ d := by
        rintro rfl
        exact h.not_owned seen key hf
      rw [Function.update_of_ne hne]
      exact h.owned f x key hf

/-- Nobody owns yet what the mover has just come to own. -/
theorem owns_new {f : CallId} {x : ℕ} {key key' : ℤ} (hfc : f ≠ c)
    (hc : (s'.thread c).owns = some (x, key)) (hf : (s'.thread f).owns = some (x, key')) :
    False := by
  rw [ho f hfc] at hf
  cases he with
  | quiet same tags owns =>
    rcases owns with owns | owns
    · rw [owns] at hc; cases hc
    · rw [owns] at hc
      exact hfc (h.alone f c x key' key hf hc)
  | reserved d key₀ mem owns =>
    rw [owns] at hc
    cases hc
    have := (h.owned f x key' hf).2.1
    rw [mem.clear] at this; cases this
  | cleared _ _ _ _ _ owns' => rw [owns'] at hc; cases hc
  | linked _ _ _ _ _ _ owns' => rw [owns'] at hc; cases hc
  | taken d e lock seen same tags owns' =>
    rw [owns'] at hc
    cases hc
    exact h.not_owned seen key' hf

/-- No two calls own the same number: it is reserved when its bit is clear, and taken out of `tags`
by one of them. -/
theorem alone_step (f g : CallId) (x : ℕ) (key key' : ℤ)
    (hf : (s'.thread f).owns = some (x, key)) (hg : (s'.thread g).owns = some (x, key')) :
    f = g := by
  by_contra hfg
  by_cases hfc : f = c
  · subst hfc; exact h.owns_new he ho (Ne.symm hfg) hf hg
  · by_cases hgc : g = c
    · subst hgc; exact h.owns_new he ho hfc hg hf
    · rw [ho f hfc] at hf
      rw [ho g hgc] at hg
      exact hfg (h.alone f g x key key' hf hg)

omit ho

/-- What the table leads to is in use. -/
theorem named_step (k : ℤ) (x : ℕ) (hk : s'.mem.table.lookup k = some x) :
    s'.mem.bitmask.bit x = true := by
  cases he with
  | quiet same => rw [same.table] at hk; rw [same.bits]; exact h.named k x hk
  | reserved d key mem =>
    rcases (mem.table k x).1 hk with hk | ⟨-, -, rfl⟩
    · exact mem.bit (h.named k x hk)
    · simp [mem.bits]
  | cleared d key lock owns mem =>
    obtain ⟨hk, hne⟩ := (mem.table k x).1 hk
    exact mem.bit hne (h.named k x hk)
  | linked d e owns tagKey same => rw [same.table] at hk; rw [same.bits]; exact h.named k x hk
  | taken d e lock seen same => rw [same.table] at hk; rw [same.bits]; exact h.named k x hk

/-- No two keys lead to the same number. -/
theorem inj_step (k k' : ℤ) (x : ℕ) (hk : s'.mem.table.lookup k = some x)
    (hk' : s'.mem.table.lookup k' = some x) : k = k' := by
  cases he with
  | quiet same => rw [same.table] at hk hk'; exact h.inj k k' x hk hk'
  | reserved d key mem =>
    -- a descriptor that was free is in the table once
    have hold : ∀ k, s.mem.table.lookup k = some x → x ≠ d := by
      rintro k hk rfl
      have := h.named k x hk
      rw [mem.clear] at this; cases this
    rcases (mem.table k x).1 hk with hk | ⟨rfl, -, hx⟩
    · rcases (mem.table k' x).1 hk' with hk' | ⟨-, -, hx⟩
      · exact h.inj k k' x hk hk'
      · exact absurd hx (hold k hk)
    · rcases (mem.table k' x).1 hk' with hk' | ⟨rfl, -, -⟩
      · exact absurd hx (hold k' hk')
      · rfl
  | cleared d key lock owns mem =>
    exact h.inj k k' x ((mem.table k x).1 hk).1 ((mem.table k' x).1 hk').1
  | linked d e owns tagKey same => rw [same.table] at hk hk'; exact h.inj k k' x hk hk'
  | taken d e lock seen same => rw [same.table] at hk hk'; exact h.inj k k' x hk hk'

/-- A live tag is taken out only by the call that holds its `tag_lock`. -/
theorem tags_step {x : ℕ} {e : Entry} (hx : s.mem.tags x = some e) :
    s'.mem.tags x = some e ∨ (s.thread c).held = some (.tag x, .write) := by
  cases he with
  | quiet same tags => rw [tags]; exact .inl hx
  | reserved d key mem => rw [mem.tags]; exact .inl hx
  | cleared d key lock owns mem => rw [mem.tags]; exact .inl hx
  | linked d e₀ owns tagKey same tags =>
    have hne : x ≠ d := by
      rintro rfl
      exact h.not_owned hx _ owns
    rw [tags, Function.update_of_ne hne]
    exact .inl hx
  | taken d e₀ lock seen same tags =>
    by_cases hxd : x = d
    · subst hxd; exact .inr lock
    · rw [tags, Function.update_of_ne hxd]
      exact .inl hx

omit h in
/-- An entry leaves the table only under `common_lock`. -/
theorem table_step {k : ℤ} {x : ℕ} (hk : s.mem.table.lookup k = some x) :
    s'.mem.table.lookup k = some x ∨ (s.thread c).held = some (.common, .write) := by
  cases he with
  | quiet same => rw [same.table]; exact .inl hk
  | reserved d key mem => exact .inl ((mem.table k x).2 (.inl hk))
  | cleared d key lock => exact .inr lock
  | linked d e owns tagKey same => rw [same.table]; exact .inl hk
  | taken d e lock seen same => rw [same.table]; exact .inl hk

end Step

end Inv

/-! ## What the calls know

Local variables that were loaded earlier are used later; what was true of them then has to be true
still, or not to matter. -/

section Step

variable {c : CallId} {m m' : Mem} {tag : ℤ} {u : ℕ} {p p' : DeleteState} {o : Outcome} {e : Entry}

/-- A deletion comes to own the tag it has found. -/
theorem DeleteState.owns_succ (h : deleteStep c m tag u p o = some (m', p'))
    (he : p'.owns = some e) : p.owns = some e ∨ p.sees = some e := by
  cases p
  case start =>
    cases o <;> simp only [deleteStep, reduceCtorEq, Option.some.injEq, Prod.mk.injEq] at h
    obtain ⟨rfl, rfl⟩ := h
    split_ifs at he <;> cases he
  case tryLock | loadTag =>
    cases o <;> simp only [deleteStep, reduceCtorEq] at h
    all_goals first
      | (split at h <;> cases h <;> cases he)
      | (cases h; cases he)
  case checkPerm e₀ =>
    cases o <;> simp only [deleteStep, reduceCtorEq, Option.some.injEq, Prod.mk.injEq] at h
    obtain ⟨rfl, rfl⟩ := h
    split_ifs at he <;> cases he
  case lockClear e₀ =>
    cases o <;> simp only [deleteStep, reduceCtorEq, Option.some.injEq, Prod.mk.injEq,
      Option.map_eq_some_iff] at h
    · obtain ⟨m₁, -, -, rfl⟩ := h; exact .inl he
    · obtain ⟨-, rfl⟩ := h; exact .inl he
  all_goals
    cases o <;> simp only [deleteStep, reduceCtorEq, Option.some.injEq, Prod.mk.injEq] at h <;>
      obtain ⟨-, rfl⟩ := h <;> first | exact .inl he | exact .inr he

/-- A deletion finds a tag by loading it. -/
theorem DeleteState.sees_succ (h : deleteStep c m tag u p o = some (m', p'))
    (he : p'.sees = some e) : m.tags tag.toNat = some e ∧ m'.tags = m.tags ∨
      p.sees = some e ∧ m'.tags = m.tags := by
  cases p
  case start =>
    cases o <;> simp only [deleteStep, reduceCtorEq, Option.some.injEq, Prod.mk.injEq] at h
    obtain ⟨rfl, rfl⟩ := h
    split_ifs at he <;> cases he
  case tryLock =>
    cases o <;> simp only [deleteStep, reduceCtorEq] at h
    · split at h <;> cases h <;> cases he
    · cases h; cases he
  case loadTag =>
    cases o <;> simp only [deleteStep, reduceCtorEq] at h
    split at h
    · cases h; cases he
    · rename_i e₀ hm; cases h; cases he; exact .inl ⟨hm, rfl⟩
  case checkPerm e₀ =>
    cases o <;> simp only [deleteStep, reduceCtorEq, Option.some.injEq, Prod.mk.injEq] at h
    obtain ⟨rfl, rfl⟩ := h
    split_ifs at he
    · cases he
    · exact .inr ⟨he, rfl⟩
  case lockClear e₀ =>
    cases o <;> simp only [deleteStep, reduceCtorEq, Option.some.injEq, Prod.mk.injEq,
      Option.map_eq_some_iff] at h
    · obtain ⟨m₁, -, -, rfl⟩ := h; cases he
    · obtain ⟨-, rfl⟩ := h; cases he
  all_goals
    cases o <;> simp only [deleteStep, reduceCtorEq, Option.some.injEq, Prod.mk.injEq] at h <;>
      obtain ⟨-, rfl⟩ := h <;> cases he

/-- A `TAG_OPEN` comes by a descriptor by looking up its key. -/
theorem GetState.loadTag_succ {a : GetArgs} {p : GetState} {d : ℕ}
    (h : getStep c m a p o = some (m', .loadTag d)) :
    m.table.lookup a.key = some d ∧ m'.table = m.table := by
  cases p
  case start =>
    cases o <;> simp only [getStep, reduceCtorEq, Option.some.injEq, Prod.mk.injEq] at h
    rw [getStart] at h
    split_ifs at h <;> cases h.2
  case lookup =>
    cases o <;> simp only [getStep, reduceCtorEq] at h
    split at h
    · cases h
    · rename_i d₀ hd; cases h; exact ⟨hd, rfl⟩
  case unlockCreate r =>
    cases r <;> cases o <;>
      simp only [getStep, reduceCtorEq, Option.some.injEq, Prod.mk.injEq, and_false] at h
  case addLevel d₀ i =>
    cases o <;> simp only [getStep, reduceCtorEq, Option.some.injEq, Prod.mk.injEq,
      and_false] at h
    split_ifs at h <;> cases h.2
  all_goals
    cases o <;> simp only [getStep, reduceCtorEq, Option.some.injEq, Prod.mk.injEq, and_false,
      Option.map_eq_some_iff, exists_false] at h

end Step

/-! ## The invariant of every run

From the registry that `initialize` makes. -/

/-- A step keeps the invariant. -/
theorem Step.inv {s s' : State} {c : CallId} (hs : Step s c s') (h : Inv s) : Inv s' := by
  have he := hs.effect h
  have ho : ∀ d, d ≠ c → s'.thread d = s.thread d := fun d hd => hs.thread_of_ne hd
  refine ⟨h.locks.step hs, (h.used_step he).1, (h.used_step he).2, h.live_step he,
    h.owned_step he ho, h.alone_step he ho, h.named_step he, h.inj_step he, ?_, ?_, ?_⟩
  · intro d tag u p e hd hp
    by_cases hdc : d = c
    · subst hdc
      cases ht : s.thread d with
      | get a q =>
        obtain ⟨o, m, q', -, rfl⟩ := hs.get ht
        rw [Config.set_thread_self] at hd; cases hd
      | delete tag₀ u₀ q =>
        obtain ⟨o, m, q', hx, rfl⟩ := hs.delete ht
        rw [Config.set_thread_self] at hd
        cases hd
        rcases DeleteState.owns_succ hx hp with hq | hq
        · exact h.entry d _ _ q e ht hq
        · exact (h.live _ e (h.seen d _ _ q e ht hq)).1
    · rw [ho d hdc] at hd
      exact h.entry d tag u p e hd hp
  · intro d tag u p e hd hp
    by_cases hdc : d = c
    · subst hdc
      cases ht : s.thread d with
      | get a q =>
        obtain ⟨o, m, q', -, rfl⟩ := hs.get ht
        rw [Config.set_thread_self] at hd; cases hd
      | delete tag₀ u₀ q =>
        obtain ⟨o, m, q', hx, rfl⟩ := hs.delete ht
        rw [Config.set_thread_self] at hd
        cases hd
        rcases DeleteState.sees_succ hx hp with ⟨hm, htags⟩ | ⟨hq, htags⟩
        · rw [Config.set_mem, htags]; exact hm
        · rw [Config.set_mem, htags]; exact h.seen d _ _ q e ht hq
    · rw [ho d hdc] at hd
      rcases h.tags_step he (h.seen d tag u p e hd hp) with hx | hlock
      · exact hx
      · -- the deletion that has found the tag keeps every other one out
        have hheld : (s.thread d).held = some (.tag tag.toNat, .write) := by
          rw [hd]
          cases p <;> first | rfl | cases hp
        exact absurd (h.locks.alone hlock hheld).1 hdc
  · intro d a x hd
    by_cases hdc : d = c
    · subst hdc
      cases ht : s.thread d with
      | get a₀ q =>
        obtain ⟨o, m, q', hx, rfl⟩ := hs.get ht
        rw [Config.set_thread_self] at hd
        cases hd
        obtain ⟨hk, htable⟩ := GetState.loadTag_succ hx
        rw [Config.set_mem, htable]
        exact hk
      | delete tag u q =>
        obtain ⟨o, m, q', -, rfl⟩ := hs.delete ht
        rw [Config.set_thread_self] at hd; cases hd
    · rw [ho d hdc] at hd
      rcases Inv.table_step he (h.found d a x hd) with hk | hlock
      · exact hk
      · -- the reader of `common_lock` keeps writers out
        exact Mode.noConfusion (h.locks.alone hlock (by rw [hd]; rfl)).2

/-- The empty registry satisfies it. -/
theorem Init.inv {s : State} (h : Init s) : Inv s := by
  have howns : ∀ c, (s.thread c).owns = none := by
    intro c
    have hidle := h.idle c
    cases hc : s.thread c with
    | get a p => rw [hc] at hidle; cases p <;> first | rfl | cases hidle
    | delete tag u p => rw [hc] at hidle; cases p <;> first | rfl | cases hidle
  refine ⟨h.locksHeld, ?_, ?_, ?_, ?_, ?_, ?_, ?_, ?_, ?_, ?_⟩
  · rw [h.mem]; rfl
  · simp [h.mem, Mem.initial, Bitmask.bit_initializeBitmask]
  · simp [h.mem, Mem.initial]
  · simp [howns]
  · simp [howns]
  · simp [h.mem, Mem.initial]
  · simp [h.mem, Mem.initial]
  · intro c tag u p e hc hp
    have hidle := h.idle c
    rw [hc] at hidle
    cases p
    case start => cases hp
    all_goals cases hidle
  · intro c tag u p e hc hp
    have hidle := h.idle c
    rw [hc] at hidle
    cases p
    case start => cases hp
    all_goals cases hidle
  · intro c a d hc
    have hidle := h.idle c
    rw [hc] at hidle
    cases hidle

/-- **The invariant holds in every reachable state.** -/
theorem inv_of_run {s₀ s : State} (h0 : Init s₀) (h : Run Step s₀ s) : Inv s :=
  h.invariant h0.inv fun _ _ _ hu _ hs => hs.inv hu

/-! ## What a `TAG_OPEN` returns

A `TAG_OPEN` looks the key up under one lock and loads the tag under another, so a tag can be
deleted and its descriptor given to another key in between; it checks the key again for that reason.
What it returns is about the moment of the load. -/

/-- The points of a `TAG_CREAT`. -/
def GetState.creates : GetState → Bool
  | lockCreate | reserve | unlockCreate _ | allocLevels _ | addLevel _ _ | allocEntry _
  | publish _ | lockClear _ | clearCommon _ | unlockClear => true
  | _ => false

/-- What the call is going to return, at the points of a `TAG_OPEN` and at the end. -/
def GetState.code : GetState → Option ℤ
  | unlockOpen rc | done rc => some rc
  | _ => none

/-- Between `s₀` and `s` the call has loaded `tags[d]` and has found a tag with its key. -/
def FoundLive (s₀ s : State) (c : CallId) (a : GetArgs) (d : ℕ) : Prop :=
  ∃ t e, Run Step s₀ t ∧ Run Step t s ∧ t.thread c = .get a (.loadTag d) ∧
    t.mem.tags d = some e ∧ e.key = a.key

/-- That a tag was there at some moment of the call stays true. -/
theorem FoundLive.step {s₀ s s' : State} {c f : CallId} {a : GetArgs} {d : ℕ}
    (h : FoundLive s₀ s c a d) (hs : Step s f s') : FoundLive s₀ s' c a d := by
  obtain ⟨t, e, h1, h2, h3⟩ := h
  exact ⟨t, e, h1, h2.step hs, h3⟩

section Step

variable {c : CallId} {m m' : Mem} {a : GetArgs} {p p' : GetState} {o : Outcome}

theorem getStart_creates (h : (getStart a).creates = true) : a.command = tagCreat := by
  rw [getStart] at h
  split_ifs at h with h1 h2
  all_goals first | exact h2 | cases h

theorem getStart_code {rc : ℤ} (h : (getStart a).code = some rc) : rc = -EINVAL := by
  rw [getStart] at h
  split_ifs at h <;> first | exact (Option.some.inj h).symm | cases h

theorem GetState.creates_succ (h : getStep c m a p o = some (m', p')) (hp : p'.creates = true) :
    p.creates = true ∨ a.command = tagCreat := by
  cases p
  case start =>
    cases o <;> simp only [getStep, reduceCtorEq, Option.some.injEq, Prod.mk.injEq] at h
    obtain ⟨-, rfl⟩ := h
    exact .inr (getStart_creates hp)
  case lockOpen =>
    cases o <;> simp only [getStep, reduceCtorEq, Option.some.injEq, Prod.mk.injEq,
      Option.map_eq_some_iff] at h
    · obtain ⟨m₁, -, -, rfl⟩ := h; cases hp
    · obtain ⟨-, rfl⟩ := h; cases hp
  case lookup =>
    cases o <;> simp only [getStep, reduceCtorEq] at h
    split at h <;> cases h <;> cases hp
  case loadTag d =>
    cases o <;> simp only [getStep, reduceCtorEq, Option.some.injEq, Prod.mk.injEq] at h
    obtain ⟨-, rfl⟩ := h
    cases hp
  case unlockOpen rc =>
    cases o <;> simp only [getStep, reduceCtorEq, Option.some.injEq, Prod.mk.injEq] at h
    obtain ⟨-, rfl⟩ := h
    cases hp
  case done rc => cases o <;> cases h
  all_goals exact .inl rfl

/-- A `tag_get` that does not fail has created a tag, or has found one. -/
theorem GetState.code_succ {rc : ℤ} (h : getStep c m a p o = some (m', p'))
    (hp : p'.code = some rc) (hrc : 0 ≤ rc) :
    p.code = some rc ∨ p.creates = true ∨
      ∃ d e, p = .loadTag d ∧ rc = d ∧ m.tags d = some e := by
  cases p
  case start =>
    cases o <;> simp only [getStep, reduceCtorEq, Option.some.injEq, Prod.mk.injEq] at h
    obtain ⟨-, rfl⟩ := h
    rw [getStart_code hp] at hrc
    exact absurd hrc (by decide)
  case lockOpen =>
    cases o <;> simp only [getStep, reduceCtorEq, Option.some.injEq, Prod.mk.injEq,
      Option.map_eq_some_iff] at h
    · obtain ⟨m₁, -, -, rfl⟩ := h; cases hp
    · obtain ⟨-, rfl⟩ := h
      cases hp
      exact absurd hrc (by decide)
  case lookup =>
    cases o <;> simp only [getStep, reduceCtorEq] at h
    split at h <;> cases h <;> cases hp
    exact absurd hrc (by decide)
  case loadTag d =>
    cases o <;> simp only [getStep, reduceCtorEq, Option.some.injEq, Prod.mk.injEq] at h
    obtain ⟨-, rfl⟩ := h
    simp only [code, Option.some.injEq] at hp
    split at hp
    · rw [← hp] at hrc
      exact absurd hrc (by decide)
    · rename_i hne
      obtain ⟨e, he⟩ := Option.ne_none_iff_exists'.1 hne
      exact .inr (.inr ⟨d, e, rfl, hp.symm, he⟩)
  case unlockOpen rc₀ =>
    cases o <;> simp only [getStep, reduceCtorEq, Option.some.injEq, Prod.mk.injEq] at h
    obtain ⟨-, rfl⟩ := h
    exact .inl hp
  case done rc₀ => cases o <;> cases h
  all_goals exact .inr (.inl rfl)

end Step

/-- What a `tag_get` has done so far. -/
structure Sound (s₀ s : State) : Prop where
  /-- Only a `TAG_CREAT` creates. -/
  command : ∀ c a p, s.thread c = .get a p → p.creates = true → a.command = tagCreat
  /-- A `TAG_OPEN` that returns a descriptor has found the tag live. -/
  opened : ∀ c a p rc, s.thread c = .get a p → a.command = tagOpen → p.code = some rc → 0 ≤ rc →
    FoundLive s₀ s c a rc.toNat

/-- A step keeps what the results of the calls mean. -/
theorem Sound.step {s₀ s s' : State} {c : CallId} (hi : Inv s) (hr : Run Step s₀ s)
    (hs : Step s c s') (h : Sound s₀ s) : Sound s₀ s' := by
  constructor
  · intro d a p hd hp
    by_cases hdc : d = c
    · subst hdc
      cases ht : s.thread d with
      | get a₀ q =>
        obtain ⟨o, m, q', hx, rfl⟩ := hs.get ht
        rw [Config.set_thread_self] at hd
        cases hd
        rcases GetState.creates_succ hx hp with hq | hcmd
        · exact h.command d _ q ht hq
        · exact hcmd
      | delete tag u q =>
        obtain ⟨o, m, q', -, rfl⟩ := hs.delete ht
        rw [Config.set_thread_self] at hd; cases hd
    · rw [hs.thread_of_ne hdc] at hd
      exact h.command d a p hd hp
  · intro d a p rc hd hcmd hp hrc
    by_cases hdc : d = c
    · subst hdc
      cases ht : s.thread d with
      | get a₀ q =>
        obtain ⟨o, m, q', hx, heq⟩ := hs.get ht
        rw [heq, Config.set_thread_self] at hd
        cases hd
        rcases GetState.code_succ hx hp hrc with hq | hq | ⟨x, e, rfl, rfl, hlive⟩
        · exact (h.opened d _ q rc ht hcmd hq hrc).step hs
        · -- a `TAG_CREAT` is not a `TAG_OPEN`
          have := h.command d _ q ht hq
          rw [hcmd] at this
          cases this
        · refine FoundLive.step ⟨s, e, hr, RunUnder.refl s, ht, hlive, ?_⟩ hs
          exact ((hi.live x e hlive).2.2 _ |>.1 (hi.found d _ x ht)).1.symm
      | delete tag u q =>
        obtain ⟨o, m, q', -, heq⟩ := hs.delete ht
        rw [heq, Config.set_thread_self] at hd; cases hd
    · rw [hs.thread_of_ne hdc] at hd
      exact (h.opened d a p rc hd hcmd hp hrc).step hs

/-- The results mean this after every run. -/
theorem sound_of_run {s₀ s : State} (h0 : Init s₀) (h : Run Step s₀ s) : Sound s₀ s := by
  refine h.invariant_run ⟨?_, ?_⟩ fun u c v hu hi _ hs => hi.step (inv_of_run h0 hu) hu hs
  · intro c a p hc hp
    have hidle := h0.idle c
    rw [hc] at hidle
    cases p
    case start => cases hp
    all_goals cases hidle
  · intro c a p rc hc _ hp
    have hidle := h0.idle c
    rw [hc] at hidle
    cases p
    case start => cases hp
    all_goals cases hidle

/-! ## Consistency

The invariant in terms of the data alone, for a reader who does not care which call owns what. -/

/-- The descriptor a call is at work on: a creation from reserving it until it has published the
tag or given the descriptor back, a deletion from finding the tag until it has given the descriptor
back or put the tag back. -/
def Thread.claims : Thread → Option ℕ
  | get _ p => p.owns
  | delete tag _ p => if p.sees.isSome || p.owns.isSome then some tag.toNat else none

/-- The three structures of the registry agree, and every descriptor is at most one call's. -/
structure Consistent (s : State) : Prop where
  /-- A live tag has its descriptor, whose bit is set, and its key is in the table. -/
  live : ∀ d e, s.mem.tags d = some e → e.tagKey = d ∧ s.mem.bitmask.bit d = true ∧
    (e.key ≠ ipcPrivate → s.mem.table.lookup e.key = some d)
  /-- The table is injective. -/
  injective : ∀ k k' d, s.mem.table.lookup k = some d → s.mem.table.lookup k' = some d → k = k'
  /-- Every descriptor in the table has its bit set. -/
  used : ∀ k d, s.mem.table.lookup k = some d → s.mem.bitmask.bit d = true
  /-- A live tag has the key that the table has for it. -/
  key : ∀ k d e, s.mem.table.lookup k = some d → s.mem.tags d = some e → e.key = k
  /-- No two calls are at work on the same descriptor. -/
  alone : ∀ c c' d, (s.thread c).claims = some d → (s.thread c').claims = some d → c = c'
  /-- No two live tags share a key, unless it is private. -/
  distinct : ∀ d d' e e', s.mem.tags d = some e → s.mem.tags d' = some e' → e.key = e'.key →
    e.key ≠ ipcPrivate → d = d'

/-- A call that is at work on a descriptor owns it, or keeps its tag locked. -/
theorem Inv.claims {s : State} (h : Inv s) {c : CallId} {d : ℕ}
    (hc : (s.thread c).claims = some d) :
    (∃ key, (s.thread c).owns = some (d, key)) ∨
      ∃ e, s.mem.tags d = some e ∧ (s.thread c).held = some (.tag d, .write) := by
  cases ht : s.thread c with
  | get a p =>
    rw [ht, Thread.claims] at hc
    exact .inl ⟨a.key, by simp [Thread.owns, hc]⟩
  | delete tag u p =>
    rw [ht, Thread.claims] at hc
    simp only [Option.ite_none_right_eq_some, Option.some.injEq, Bool.or_eq_true] at hc
    obtain ⟨hp, rfl⟩ := hc
    rcases hp with hp | hp
    · obtain ⟨e, he⟩ := Option.isSome_iff_exists.1 hp
      refine .inr ⟨e, h.seen c tag u p e ht he, ?_⟩
      cases p <;> first | rfl | cases he
    · obtain ⟨e, he⟩ := Option.isSome_iff_exists.1 hp
      exact .inl ⟨e.key, by simp [Thread.owns, he]⟩

/-- The invariant says what consistency asks for. -/
theorem Inv.consistent {s : State} (h : Inv s) : Consistent s where
  live d e he := ⟨(h.live d e he).1, (h.live d e he).2.1,
    fun hkey => ((h.live d e he).2.2 e.key).2 ⟨rfl, hkey⟩⟩
  injective := h.inj
  used := h.named
  key k d e hk he := (((h.live d e he).2.2 k).1 hk).1.symm
  alone c c' d hc hc' := by
    rcases h.claims hc with ⟨key, hown⟩ | ⟨e, he, hheld⟩
    · rcases h.claims hc' with ⟨key', hown'⟩ | ⟨e', he', -⟩
      · exact h.alone c c' d key key' hown hown'
      · exact absurd hown (h.not_owned he' key)
    · rcases h.claims hc' with ⟨key', hown'⟩ | ⟨-, -, hheld'⟩
      · exact absurd hown' (h.not_owned he key')
      · exact (h.locks.alone hheld' hheld).1
  distinct d d' e e' he he' hkey hne := by
    have h1 := ((h.live d e he).2.2 e.key).2 ⟨rfl, hne⟩
    have h2 := ((h.live d' e' he').2.2 e'.key).2 ⟨rfl, hkey ▸ hne⟩
    rw [← hkey, h1] at h2
    exact Option.some.inj h2

/-- **The registry is consistent** in every reachable state, and a `TAG_OPEN` that returns a
descriptor has found a tag with its key there. -/
theorem registry_consistent {s₀ s : State} (h0 : Init s₀) (h : Run Step s₀ s) :
    Consistent s ∧
      ∀ c a rc, s.thread c = .get a (.done rc) → a.command = tagOpen → 0 ≤ rc →
        FoundLive s₀ s c a rc.toNat :=
  ⟨(inv_of_run h0 h).consistent,
    fun c a rc hc hcmd => (sound_of_run h0 h).opened c a _ rc hc hcmd rfl⟩

/-- A creation with key 5 (call 0), then a `TAG_OPEN` of that key (call 1), and then a deletion
(call 2) that has taken the tag out of `tags`. -/
def lifetime : State :=
  let calls : CallId → Thread
    | 1 => .get ⟨5, tagOpen, 0, 0⟩ .start
    | 2 => .delete 0 0 .start
    | _ => .get ⟨5, tagCreat, tagPermAll, 0⟩ .start
  after step ⟨Mem.initial, calls⟩
    (List.replicate 39 (0, .go) ++ List.replicate 5 (1, .go) ++ List.replicate 6 (2, .go))

/-- The opening has found the tag, and the deletion has taken it out. -/
theorem registry_consistent_lifetime :
    lifetime.thread 1 = .get ⟨5, tagOpen, 0, 0⟩ (.done 0) ∧ Consistent lifetime :=
  ⟨by decide +kernel, (registry_consistent
    ⟨rfl, fun c => by dsimp only; split <;> rfl⟩ (run_after _ _)).1⟩

end TagAos.Registry
