import TagAos.Conc.Trace
import TagAos.Device.Offset
import TagAos.Service.OneTag
import TagAos.Tag.Delivery

/-!
# What a `dev_read` returns while the service is in use

`TagAos.Device.Read` says what `dev_read` returns on a table of tags that does not change, and
`TagAos.Service.DevRead` which operations it performs beside the other calls.  Here the two are
connected.  Whatever the other calls do, a `dev_read` that gets its locks and its memory returns
what it returns on a table that does not change, each entry and each counter of which was the true
one at some moment of the run that is taken (`read_sees`).

`ReadState.rest` is what is left of `dev_read` at a point, on a table; an operation of the call does
not change it if the table agrees with what is read there (`Foretold.own`).  The table is put
together from the end of the run to its beginning: at each moment it holds what the rest of the call
is going to see (`Foretold`).
-/

set_option autoImplicit false

namespace TagAos.Service

open Conc
open Registry (maxTags GetArgs GetState)

/-! ## What is left of `dev_read`

`dev_read` on a table that does not change is a fold over the descriptors and, in each, over the
levels.  Cut at any point of the call, the rest of the fold is a function of the table and of the
local variables there. -/

/-- The end of `dev_read`, with the text and the offset that is left. -/
def ReadArgs.result (a : ReadArgs) (r : Device.Reading) (relativeOff : ℕ) : Device.Outcome :=
  if r.buffer.length ≤ relativeOff then ⟨[], 0, a.off⟩
  else
    let text := (r.buffer.drop relativeOff).take (min a.size (r.buffer.length - relativeOff))
    ⟨text, text.length, a.off + text.length⟩

/-- What is left from the descriptor `i` on. -/
def restTags (t : Device.Table) (a : ReadArgs) (i relativeOff : ℕ) (r : Device.Reading) :
    Device.Outcome :=
  let q := Device.readTags t a.size (List.range' i (maxTags - i)) relativeOff r
  a.result q.1 q.2

/-- What is left from the level `j` of a tag on. -/
def restLevels (t : Device.Table) (a : ReadArgs) (v : ReadVars) (tag : Device.Tag) (j : ℕ)
    (r : Device.Reading) : Device.Outcome :=
  match Device.readLevels tag a.size v.relativeOff (List.range' j (levels - j)) r with
  | .error r => a.result r v.relativeOff
  | .ok r => restTags t a (v.i + 1) v.relativeOff (r.append Device.divider)

/-- What is left after the line of the level `v.j`. -/
def restLine (t : Device.Table) (a : ReadArgs) (v : ReadVars) (tag : Device.Tag)
    (r : Device.Reading) : Device.Outcome :=
  if Device.sumSize a.size v.relativeOff < r.nbytes then a.result r v.relativeOff
  else restLevels t a v tag (v.j + 1) r

/-- What is left at each point.  `tag` is the one that has been loaded. -/
def ReadState.rest (t : Device.Table) (a : ReadArgs) (tag : Device.Tag) :
    ReadState → Device.Outcome
  | start => Device.devRead t a.buf a.size a.off
  | allocBuffer | allocHeader | allocDivider => restTags t a 0 a.off.toNat .start
  | lockTag v | loadTag v => restTags t a v.i v.relativeOff v.reading
  | loadEntry v => restLevels t a v tag 0 v.reading
  | lockLevel v | loadLevel v | lockRcu v _ | unlockLevel v _ | allocTemp v _ | readWaiting v _ =>
    restLevels t a v tag v.j v.reading
  | append v _ temp => restLine t a v tag (v.reading.append temp)
  | unlockRcu v _ => restLine t a v tag v.reading
  | unlockLevelSkip v | unlockRcuSkip v _ => restLevels t a v tag (v.j + 1) v.reading
  | appendDivider v => restTags t a (v.i + 1) v.relativeOff (v.reading.append Device.divider)
  | unlockTag v => restTags t a (v.i + 1) v.relativeOff v.reading
  | unlockTagExit v | copyOut v => a.result v.reading v.relativeOff
  | unlockRcuError _ _ | unlockTagError _ => ⟨[], -1, a.off⟩
  | done r => r

section Rest

variable {t : Device.Table} {a : ReadArgs} {i relativeOff : ℕ} {r : Device.Reading}

theorem restTags_of_le (h : maxTags ≤ i) :
    restTags t a i relativeOff r = a.result r relativeOff := by
  rw [restTags, Nat.sub_eq_zero_of_le h]
  rfl

theorem range'_sub {i n : ℕ} (h : i < n) :
    List.range' i (n - i) = i :: List.range' (i + 1) (n - (i + 1)) := by
  rw [show n - i = n - (i + 1) + 1 by omega, List.range'_succ]

theorem restTags_none (hi : i < maxTags) (ht : t i = none) :
    restTags t a i relativeOff r = restTags t a (i + 1) relativeOff r := by
  rw [restTags, range'_sub hi, Device.readTags, ht]
  rfl

theorem restTags_skip {tag : Device.Tag} (hi : i < maxTags) (ht : t i = some tag)
    (hskip : Device.tagSize < relativeOff) :
    restTags t a i relativeOff r = restTags t a (i + 1) (relativeOff - Device.tagSize) r := by
  rw [restTags, range'_sub hi, Device.readTags, ht]
  dsimp only
  rw [if_pos hskip]
  rfl

theorem restTags_some {tag : Device.Tag} {v : ReadVars} (hi : v.i < maxTags)
    (ht : t v.i = some tag) (hskip : ¬ Device.tagSize < v.relativeOff) :
    restTags t a v.i v.relativeOff r = restLevels t a v tag 0 r := by
  rw [restTags, range'_sub hi, Device.readTags, ht, restLevels]
  dsimp only
  rw [if_neg hskip, List.range_eq_range', Nat.sub_zero]
  cases Device.readLevels tag a.size v.relativeOff (List.range' 0 levels) r <;> rfl

theorem restLevels_of_le {v : ReadVars} {tag : Device.Tag} {j : ℕ} (h : levels ≤ j) :
    restLevels t a v tag j r =
      restTags t a (v.i + 1) v.relativeOff (r.append Device.divider) := by
  rw [restLevels, Nat.sub_eq_zero_of_le h]
  rfl

theorem restLevels_of_lt {v : ReadVars} {tag : Device.Tag} (h : v.j < levels) :
    restLevels t a v tag v.j r = restLine t a v tag (r.append (tag.row v.j)) := by
  rw [restLevels, range'_sub h, Device.readLevels, restLine, restLevels]
  split_ifs <;> rfl

theorem rest_nextTag (v : ReadVars) (tag : Device.Tag) :
    (ReadState.nextTag v).rest t a tag = restTags t a (v.i + 1) v.relativeOff v.reading := by
  rw [ReadState.nextTag]
  split
  · rfl
  · rename_i h
    exact (restTags_of_le (not_lt.1 h)).symm

theorem rest_nextLevel (v : ReadVars) (tag : Device.Tag) :
    (ReadState.nextLevel v).rest t a tag = restLevels t a v tag (v.j + 1) v.reading := by
  rw [ReadState.nextLevel]
  split
  · rfl
  · rename_i h
    exact (restLevels_of_le (not_lt.1 h)).symm

/-- The text of a call that has not begun is that of `devRead`. -/
theorem rest_start (tag : Device.Tag) :
    Device.devRead t a.buf a.size a.off =
      (if a.size = 0 then ReadState.done ⟨[], 0, a.off⟩
        else if a.buf = false ∨ a.off < 0 then a.failed else .allocBuffer).rest t a tag := by
  rw [Device.devRead]
  split_ifs
  · rfl
  · rfl
  · show _ = a.result _ _
    rw [ReadArgs.result, ← List.range_eq_range', Nat.sub_zero]
    dsimp only
    set q := Device.readTags t a.size (List.range maxTags) a.off.toNat .start with hq
    split_ifs with h1 h2
    · rfl
    · rw [min_eq_right h2.le, List.length_take, List.length_drop, min_self]
    · rw [min_eq_left (not_lt.1 h2), List.length_take, List.length_drop, min_eq_left (not_lt.1 h2)]

end Rest

/-! ## What the call reads

What of the table the rest of the call depends on, so that it can be seen which operations fix a
part of it: the load of a pointer in `tags` fixes the tag, the read of a counter fixes a line. -/

/-- The tag a call has loaded, and the first line of it that it has not written yet. -/
structure Inside where
  i : ℕ
  key : ℤ
  euid : ℕ
  line : ℕ

namespace ReadState

/-- The tag the call is in.  `e` are the fields of the tag it has loaded. -/
def inside (e : Registry.Entry) : ReadState → Option Inside
  | loadEntry v => some ⟨v.i, e.key, e.euid, 0⟩
  | lockLevel v | loadLevel v | lockRcu v _ | unlockLevel v _ | allocTemp v _ | readWaiting v _ =>
    some ⟨v.i, v.key, v.euid, v.j⟩
  | append v _ _ | unlockRcu v _ | unlockLevelSkip v | unlockRcuSkip v _ =>
    some ⟨v.i, v.key, v.euid, v.j + 1⟩
  | _ => none

/-- The first descriptor the call has not looked at yet. -/
def ahead : ReadState → ℕ
  | start | allocBuffer | allocHeader | allocDivider => 0
  | lockTag v | loadTag v => v.i
  | loadEntry v | lockLevel v | loadLevel v | lockRcu v _ | unlockLevel v _ | allocTemp v _
  | readWaiting v _ | append v _ _ | unlockRcu v _ | unlockLevelSkip v | unlockRcuSkip v _
  | appendDivider v | unlockTag v => v.i + 1
  | _ => maxTags

/-- The level whose instance the call has loaded, and the instance. -/
def pending : ReadState → Option (ℕ × Addr)
  | lockRcu v l | unlockLevel v l | allocTemp v l | readWaiting v l => some (v.j, l)
  | _ => none

/-- The loop counters are in range. -/
def Counting : ReadState → Prop
  | lockTag v | loadTag v | loadEntry v => v.i < maxTags
  | lockLevel v | loadLevel v | lockRcu v _ | unlockLevel v _ | allocTemp v _ | readWaiting v _ =>
    v.i < maxTags ∧ v.j < levels
  | append v _ _ | unlockRcu v _ | unlockLevelSkip v | unlockRcuSkip v _ | appendDivider v
  | unlockTag v => v.i < maxTags
  | _ => True

end ReadState

section Counting

variable {s s' : State} {c : CallId} {a : ReadArgs} {p q : ReadState}

theorem counting_nextTag {v : ReadVars} : (ReadState.nextTag v).Counting := by
  rw [ReadState.nextTag]
  split
  · assumption
  · trivial

theorem counting_nextLevel {v : ReadVars} (h : v.i < maxTags) :
    (ReadState.nextLevel v).Counting := by
  rw [ReadState.nextLevel]
  split
  · exact ⟨h, by assumption⟩
  · exact h

theorem counting_of_readFails {o : Outcome} (h : readFails a p o = some q) (hp : p.Counting) :
    q.Counting := by
  cases p <;> cases o <;> simp only [readFails, reduceCtorEq, Option.some.injEq,
    Option.ite_none_right_eq_some, ReadArgs.failed] at h
  case allocTemp.nomem => subst h; exact hp.1
  case append.nomem | appendDivider.nomem | copyOut.fault => obtain ⟨-, rfl⟩ := h; trivial
  all_goals subst h; trivial

/-- A `dev_read` keeps its indices in their ranges. -/
theorem counting_of_execOn {e : Registry.Entry} {m m' : Mem} {d : ℕ} {x x' : Option TagAddr}
    (h : ExecOn c m d x (readCode a e p) m' x' q) (hp : p.Counting) : q.Counting := by
  cases p
  case start =>
    cases h
    · rw [ReadArgs.failed]
      split_ifs <;> trivial
    · contradiction
  case allocDivider =>
    cases h
    · show 0 < maxTags
      decide
    · contradiction
  case loadEntry v =>
    cases h
    · exact ⟨hp, by show 0 < levels; decide⟩
    · contradiction
  case lockTag v =>
    cases h
    · exact hp
    · exact counting_nextTag
    · contradiction
  case loadTag v =>
    cases h
    · split <;> exact hp
    · exact hp
    · contradiction
  case unlockTag v =>
    cases h
    · exact counting_nextTag
    · contradiction
  case lockLevel v =>
    rcases h with _ | _ | _ | _ | _ | _ | ⟨_, _, h⟩
    cases h
    · exact hp
    · exact counting_nextLevel hp.1
  case unlockLevelSkip v | unlockRcuSkip v l =>
    rcases h with _ | _ | _ | _ | _ | _ | ⟨_, _, h⟩
    cases h
    exact counting_nextLevel hp
  case unlockRcu v l =>
    rcases h with _ | _ | _ | _ | _ | _ | ⟨_, _, h⟩
    cases h
    split
    · trivial
    · exact counting_nextLevel hp
  case copyOut v =>
    cases h
    · split <;> trivial
    · contradiction
  case readWaiting v l =>
    rcases h with _ | _ | _ | _ | _ | _ | ⟨_, _, h⟩
    cases h
    exact hp.1
  case loadLevel v | lockRcu v l | unlockLevel v l | unlockRcuError v l =>
    rcases h with _ | _ | _ | _ | _ | _ | ⟨_, _, h⟩
    cases h <;> first | exact hp | exact hp.1
  all_goals cases h <;> first | contradiction | exact hp

/-- The loop counters of every `dev_read` are in range. -/
theorem Reachable.counting (h : Reachable s) {x : Option TagAddr}
    (hc : s.thread c = .read a x p) : p.Counting := by
  refine h.induction (P := fun s => ∀ c a x p, s.thread c = .read a x p → p.Counting)
    (fun s h0 c a x p hc => ?_) (fun s c s' _ ih hs d a x p hd => ?_) c a x p hc
  · have hidle := h0.idle c
    rw [hc] at hidle
    cases p <;> trivial
  · by_cases hdc : d = c
    · subst hdc
      cases hc : s.thread d with
      | read a₀ x₀ p₀ =>
        rcases hs.read hc with ⟨o, q, hq, rfl⟩ | ⟨m, x', q, hx, rfl⟩ <;>
          rw [Config.set_thread_self] at hd <;> cases hd
        · exact counting_of_readFails hq (ih d _ _ _ hc)
        · exact counting_of_execOn hx (ih d _ _ _ hc)
      | get a₀ x₀ q =>
        obtain ⟨m, x₁, q₁, hx, rfl⟩ := hs.get hc
        rw [Config.set_thread_self] at hd; cases hd
      | delete tag₀ u x₀ i q =>
        obtain ⟨m, x₁, i₁, q₁, hx, rfl⟩ := hs.delete hc
        rw [Config.set_thread_self] at hd; cases hd
      | user tag₀ x₀ t =>
        obtain ⟨m, x₁, t₁, hx, rfl⟩ := hs.user hc
        rw [Config.set_thread_self] at hd; cases hd
    · rw [hs.thread_of_ne hdc] at hd
      exact ih d a x p hd

end Counting

/-! ## What there was to see

An entry is right at the moment its tag is loaded, and a counter when it is read, which is later.
The moments are those of the run that is taken: a run is given with its states (`Trace`), and what
is seen is something in one of them. -/

/-- What `dev_read` shows of a tag. -/
structure Shown where
  key : ℤ
  euid : ℕ
  /-- The counter in the line of each level. -/
  waiting : Fin levels → ℤ

def shownOf (tag : Device.Tag) : Shown := ⟨tag.key, tag.euid, fun j => tag.waiting j⟩

/-- The table shows the tags `shown`. -/
def Shows (t : Device.Table) (shown : ℕ → Option Shown) : Prop :=
  ∀ i < maxTags, (t i).map shownOf = shown i

/-- The numbers are not too large for their types in the source. -/
def Shown.Typed (sh : Shown) : Prop :=
  sh.key < 2147483648 ∧ sh.euid < 4294967296 ∧ ∀ j, sh.waiting j < 2147483648

section Seen

variable {S : State → CallId → State → Prop} {G : State → CallId → Prop} {n : ℕ}

/-- From the moment `k` on the number `w` is, at some moment of the run, the counter of an instance
of the tag `y`, after the instance has been the current one of the level `j`. -/
def SeenLine (f : Trace S G n) (k : ℕ) (y : TagAddr) (j : ℕ) (w : ℤ) : Prop :=
  ∃ l u v, k ≤ u ∧ u ≤ v ∧ v ≤ n ∧ ((f.state u).mem.obj y).tagLevel j = some l ∧
    w = ((f.state v).mem.obj y).waiting l

/-- From the moment `k` on the descriptor has, at some moment of the run, no tag, or one with the
fields shown, whose counters come later. -/
inductive SeenTag (f : Trace S G n) (k i : ℕ) : Option Shown → Prop
  | absent {u : ℕ} (hk : k ≤ u) (hu : u ≤ n) (h : (f.state u).mem.tags i = none) :
      SeenTag f k i none
  | present {u : ℕ} {y : TagAddr} {waiting : Fin levels → ℤ} (hk : k ≤ u) (hu : u ≤ n)
      (h : (f.state u).mem.tags i = some y)
      (hw : ∀ j : Fin levels, SeenLine f u y j (waiting j)) :
      SeenTag f k i (some ⟨(f.state u).mem.key y, ((f.state u).mem.obj y).euid, waiting⟩)

variable {f : Trace S G n} {k : ℕ} {s : State} {y : TagAddr} {i j : ℕ}

theorem SeenLine.before {w : ℤ} (h : SeenLine f (k + 1) y j w) : SeenLine f k y j w := by
  obtain ⟨l, u, v, hu, h⟩ := h
  exact ⟨l, u, v, Nat.le_of_succ_le hu, h⟩

theorem SeenTag.before {sh : Option Shown} (h : SeenTag f (k + 1) i sh) : SeenTag f k i sh := by
  cases h with
  | absent hu hn h => exact .absent (Nat.le_of_succ_le hu) hn h
  | present hu hn h hw => exact .present (Nat.le_of_succ_le hu) hn h hw

/-- The counter of the current instance of a level. -/
def State.count (s : State) (y : TagAddr) (j : ℕ) : ℤ :=
  match (s.mem.obj y).tagLevel j with
  | none => 0
  | some l => (s.mem.obj y).waiting l

/-- The tag of a descriptor, as it is. -/
def State.shown (s : State) (i : ℕ) : Option Shown :=
  (s.mem.tags i).map fun y => ⟨s.mem.key y, (s.mem.obj y).euid, fun j => s.count y j⟩

/-- A tag has an instance at every level. -/
theorem Reachable.exists_level (hr : Reachable s) (hy : y < s.mem.brk) (hj : j < levels) :
    ∃ l, (s.mem.obj y).tagLevel j = some l := by
  obtain ⟨σ, hσ, hon⟩ := hr.onTag y hy
  obtain ⟨r, hmem⟩ := hon.mem
  have hlevel := hσ.tagLevel hj
  rw [hmem] at hlevel
  exact Option.ne_none_iff_exists'.1 hlevel

/-- What a counter is at this moment has been seen at a moment from now on. -/
theorem seenLine_now (hr : Reachable (f.state k)) (hk : k ≤ n) (hy : y < (f.state k).mem.brk)
    (hj : j < levels) : SeenLine f k y j ((f.state k).count y j) := by
  obtain ⟨l, hl⟩ := hr.exists_level hy hj
  exact ⟨l, k, k, le_rfl, le_rfl, hk, hl, by rw [State.count, hl]⟩

/-- The same for a tag. -/
theorem seenTag_now (hr : Reachable (f.state k)) (hk : k ≤ n) :
    SeenTag f k i ((f.state k).shown i) := by
  rw [State.shown]
  cases hi : (f.state k).mem.tags i with
  | none => exact .absent le_rfl hk hi
  | some y =>
    exact .present le_rfl hk hi fun j => seenLine_now hr hk (hr.bounds.tags i y hi) j.2

end Seen

/-! ## Ranges

The table of `TagAos.Device.Text` has keys and counters that are not negative, as its types in the
source have.  What there is to see is like that in every reachable state. -/

section Ranges

variable {s s' : State} {c : CallId} {y : TagAddr}

/-- `tag_get` has not begun, has checked the key, or has returned. -/
def KeyChecked (a : GetArgs) : GetState → Prop
  | .start | .done _ => True
  | _ => 0 ≤ a.key

theorem keyChecked_of_nonneg {a : GetArgs} (h : 0 ≤ a.key) (p : GetState) : KeyChecked a p := by
  cases p <;> trivial

/-- A key that has been checked stays checked. -/
theorem keyChecked_getStep {m m' : Registry.Mem} {a : GetArgs} {p p' : GetState}
    {o : Registry.Outcome} (h : Registry.getStep c m a p o = some (m', p')) (hp : KeyChecked a p) :
    KeyChecked a p' := by
  cases p
  case start =>
    cases o <;> simp only [Registry.getStep, reduceCtorEq, Option.some.injEq, Prod.mk.injEq] at h
    obtain ⟨-, rfl⟩ := h
    rw [Registry.getStart]
    by_cases hkey : a.key < 0
    · rw [if_pos hkey]
      trivial
    · exact keyChecked_of_nonneg (not_lt.1 hkey) _
  case done => cases o <;> cases h
  all_goals exact keyChecked_of_nonneg hp p'

/-- The key of a tag is not negative. -/
theorem Reachable.key_nonneg (h : Reachable s) (hy : y < s.mem.brk) : 0 ≤ s.mem.key y := by
  suffices hall : (∀ y < s.mem.brk, 0 ≤ s.mem.key y) ∧
      ∀ c a x p, s.thread c = .get a x p → KeyChecked a p from hall.1 y hy
  refine h.induction (P := fun s => (∀ y < s.mem.brk, 0 ≤ s.mem.key y) ∧
    ∀ c a x p, s.thread c = .get a x p → KeyChecked a p)
    (fun s h0 => ⟨fun y hy => ?_, fun c a x p hc => ?_⟩)
    fun s c s' hr ih hs => ⟨fun y hy => ?_, fun d a x p hd => ?_⟩
  · rw [h0.mem] at hy
    cases hy
  · have hidle := h0.idle c
    rw [hc] at hidle
    cases p <;> trivial
  · by_cases hold : y < s.mem.brk
    · have hkey : s'.mem.key y = s.mem.key y := congrArg Registry.Entry.key (hs.entry hold)
      rw [hkey]
      exact ih.1 y hold
    · obtain ⟨a, x, d, hc, rfl⟩ := hs.alloc (lt_of_le_of_lt (not_lt.1 hold) hy)
      obtain rfl : y = s.mem.brk := le_antisymm (Nat.lt_succ_iff.1 hy) (not_lt.1 hold)
      show 0 ≤ Function.update s.mem.key s.mem.brk a.key s.mem.brk
      rw [Function.update_self]
      exact ih.2 c a x _ hc
  · by_cases hdc : d = c
    · subst hdc
      cases hc : s.thread d with
      | get a₀ x₀ q =>
        obtain ⟨m, x₁, q₁, hx, rfl⟩ := hs.get hc
        rw [Config.set_thread_self] at hd
        cases hd
        have hq := ih.2 d a x₀ q hc
        cases hx with
        | alloc => exact hq
        | publish => trivial
        | registry _ _ hstep => exact keyChecked_getStep hstep hq
      | delete tag₀ u x₀ i q =>
        obtain ⟨m, x₁, i₁, q₁, hx, rfl⟩ := hs.delete hc
        rw [Config.set_thread_self] at hd; cases hd
      | user tag₀ x₀ t =>
        obtain ⟨m, x₁, t₁, hx, rfl⟩ := hs.user hc
        rw [Config.set_thread_self] at hd; cases hd
      | read a₀ x₀ q =>
        rcases hs.read hc with ⟨o, q₁, hq, rfl⟩ | ⟨m, x₁, q₁, hx, rfl⟩ <;>
          rw [Config.set_thread_self] at hd <;> cases hd
    · rw [hs.thread_of_ne hdc] at hd
      exact ih.2 d a x p hd

theorem brk_le_of_run (h : Run Step s s') : s.mem.brk ≤ s'.mem.brk :=
  h.invariant (P := fun u => s.mem.brk ≤ u.mem.brk) le_rfl fun _ _ _ hle _ hs =>
    hle.trans hs.brk_le

/-- What there is to see of a tag is not negative. -/
theorem SeenTag.nonneg {S : State → CallId → State → Prop} {G : State → CallId → Prop} {n k i : ℕ}
    {f : Trace S G n} {sh : Shown}
    (hrun : ∀ {j k}, j ≤ k → k ≤ n → Run Step (f.state j) (f.state k))
    (hr : ∀ k ≤ n, Reachable (f.state k)) (h : SeenTag f k i (some sh)) :
    0 ≤ sh.key ∧ ∀ j, 0 ≤ sh.waiting j := by
  cases h with
  | @present u y waiting hk hu h hw =>
    have hy := (hr u hu).bounds.tags i y h
    refine ⟨(hr u hu).key_nonneg hy, fun j => ?_⟩
    obtain ⟨l, v, v', hv, hv', hn, -, hw⟩ := hw j
    show 0 ≤ waiting j
    rw [hw]
    exact ((hr v' hn).tag (hy.trans_le (brk_le_of_run (hrun (hv.trans hv') hn)))).reg l |>.nonneg

end Ranges

/-! ## What the call is going to see

Each operation of the call, and one of any other call, taken backwards.  An operation that reads
nothing of the table changes nothing about what is going to be seen; one that reads something fixes
that part of it, in the present state. -/

/-- The table agrees with what the call is going to see from the point `p` on: with `shown`, and
inside a tag with the counters `w`. -/
structure Fits (t : Device.Table) (tag : Device.Tag) (shown : ℕ → Option Shown) (w : ℕ → ℤ)
    (e : Registry.Entry) (p : ReadState) : Prop where
  tags : ∀ i, p.ahead ≤ i → i < maxTags → (t i).map shownOf = shown i
  inside : ∀ d, p.inside e = some d → tag.key = d.key ∧ tag.euid = d.euid ∧
    ∀ j, d.line ≤ j → j < levels → tag.waiting j = w j

/-- The counter in the line of the level `j` is going to be right: it is that of the instance the
call has loaded, or of one that is going to be current. -/
def RightLine {S : State → CallId → State → Prop} {G : State → CallId → Prop} {n : ℕ}
    (f : Trace S G n) (k : ℕ) (y : TagAddr) (p : ReadState) (j : ℕ) (w : ℤ) : Prop :=
  (∀ l, p.pending = some (j, l) →
    ∃ u, k ≤ u ∧ u ≤ n ∧ w = ((f.state u).mem.obj y).waiting l) ∧
  ((∀ l, p.pending ≠ some (j, l)) → SeenLine f k y j w)

/-- A `dev_read` that is at the point `p` at the moment `k` returns `r` in the end, and that is what
it returns on every table that agrees with something there is going to be. -/
def Foretold {S : State → CallId → State → Prop} {G : State → CallId → Prop} {n : ℕ}
    (f : Trace S G n) (r : Device.Outcome) (a : ReadArgs) (k : ℕ) (x : Option TagAddr)
    (p : ReadState) : Prop :=
  ∃ shown w, (∀ i < maxTags, SeenTag f k i (shown i)) ∧
    (∀ y, x = some y → ∀ j < levels, RightLine f k y p j (w j)) ∧
    ∀ t tag, Fits t tag shown w ((f.state k).mem.entryOf x) p → p.rest t a tag = r

section Foretold

variable {S : State → CallId → State → Prop} {G : State → CallId → Prop} {n k : ℕ} {f : Trace S G n}
  {s s₁ : State} {c : CallId} {a : ReadArgs} {x x' : Option TagAddr} {p p' : ReadState}
  {r : Device.Outcome}

theorem RightLine.before {y : TagAddr} {j : ℕ} {w : ℤ} (h : RightLine f (k + 1) y p j w) :
    RightLine f k y p j w := by
  refine ⟨fun l hl => ?_, fun hne => (h.2 hne).before⟩
  obtain ⟨u, hu, hn, hw⟩ := h.1 l hl
  exact ⟨u, Nat.le_of_succ_le hu, hn, hw⟩

/-- The end of the call. -/
theorem foretold_done (hr : Reachable (f.state n))
    (hx : ∀ y, x = some y → y < (f.state n).mem.brk) : Foretold f r a n x (.done r) := by
  refine ⟨(f.state n).shown, (f.state n).count (x.getD 0), fun i _ => seenTag_now hr le_rfl, ?_,
    fun _ _ _ => rfl⟩
  rintro y rfl j hj
  exact ⟨fun l hl => (by cases hl), fun _ => seenLine_now hr le_rfl (hx y rfl) hj⟩

/-- An operation at which the call reads nothing of the table. -/
theorem Foretold.keep (h : Foretold f r a (k + 1) x p') (hpending : p.pending = p'.pending)
    (hfits : ∀ t tag shown w, Fits t tag shown w ((f.state k).mem.entryOf x) p →
      Fits t tag shown w ((f.state (k + 1)).mem.entryOf x) p')
    (hrest : ∀ t tag, p.rest t a tag = p'.rest t a tag) : Foretold f r a k x p := by
  obtain ⟨shown, w, hshown, hw, h⟩ := h
  refine ⟨shown, w, fun i hi => (hshown i hi).before, fun y hy j hj => ?_, fun t tag ht => ?_⟩
  · have hline := (hw y hy j hj).before
    rw [RightLine, ← hpending] at hline
    exact hline
  · rw [hrest]
    exact h t tag (hfits t tag shown w ht)

theorem Fits.weaken {t : Device.Table} {tag : Device.Tag} {shown : ℕ → Option Shown} {w : ℕ → ℤ}
    {e e' : Registry.Entry} (h : Fits t tag shown w e p) (hahead : p.ahead ≤ p'.ahead)
    (hinside : ∀ d', p'.inside e' = some d' → ∃ d, p.inside e = some d ∧ d.key = d'.key ∧
      d.euid = d'.euid ∧ d.line ≤ d'.line) : Fits t tag shown w e' p' where
  tags i hi := h.tags i (hahead.trans hi)
  inside d' hd' := by
    obtain ⟨d, hd, hkey, heuid, hline⟩ := hinside d' hd'
    obtain ⟨h1, h2, h3⟩ := h.inside d hd
    exact ⟨h1.trans hkey, h2.trans heuid, fun j hj => h3 j (hline.trans hj)⟩

/-- An operation of the call outside of a tag, at which it may get another one. -/
theorem foretold_outside (hr : Reachable (f.state k)) (hc : (f.state k).thread c = .read a x p)
    (hpending : p.pending = none) (hk : k ≤ n) (shown : ℕ → Option Shown)
    (hshown : ∀ i < maxTags, SeenTag f k i (shown i))
    (h : ∀ t tag w, Fits t tag shown w ((f.state k).mem.entryOf x) p → p.rest t a tag = r) :
    Foretold f r a k x p := by
  refine ⟨shown, (f.state k).count (x.getD 0), hshown, ?_, fun t tag ht => h t tag _ ht⟩
  rintro y rfl j hj
  refine ⟨fun l hl => ?_, fun _ => seenLine_now hr hk (hr.bounds.entry c y (by rw [hc]; rfl)) hj⟩
  rw [hpending] at hl
  cases hl

/-- What the call does inside its tag. -/
theorem go_inTag {m m' : Mem} (hi : inTag (readCode a (m.entryOf x) p) = true)
    (h : readStep c m a x p .go = some (m', x', p')) :
    ∃ y μ, x = some y ∧ x' = some y ∧ m' = m.setObj y μ ∧
      exec c (m.obj y) (readCode a (m.entryOf x) p) .go = some (μ, p') := by
  have hgo : execOn c m p.desc x (readCode a (m.entryOf x) p) .go = some (m', x', p') := by
    cases p <;> exact h
  rw [execOn_of_inTag hi] at hgo
  obtain ⟨y, hy, hgo⟩ := Option.bind_eq_some_iff.1 hgo
  obtain ⟨⟨μ, q⟩, hx, heq⟩ := Option.map_eq_some_iff.1 hgo
  cases heq
  exact ⟨y, μ, hy, hy, rfl, hx⟩

/-- The fields of the tag a call has loaded stay. -/
theorem Reachable.entryOf_eq (hr : Reachable s) (hs : Step s c s₁) {d : CallId}
    (hd : s.thread d = .read a x p) (hx : x ≠ none) : s₁.mem.entryOf x = s.mem.entryOf x := by
  cases x with
  | none => exact absurd rfl hx
  | some y => exact hs.entry (hr.bounds.entry d y (by rw [hd]; rfl))

/-- The fields of a tag that a `dev_read` is inside of stay what they are. -/
theorem Reachable.inside_eq (hr : Reachable s) (hs : Step s c s₁) {d : CallId}
    (hd : s.thread d = .read a x p) : p.inside (s₁.mem.entryOf x) = p.inside (s.mem.entryOf x) := by
  cases p
  case loadEntry v =>
    have hx := hr.loaded d (by rw [hd]; rfl)
    rw [hd] at hx
    rw [hr.entryOf_eq hs hd hx]
  all_goals rfl

/-- An operation of another call. -/
theorem Foretold.other (hr : Reachable (f.state k)) (hs : Step (f.state k) c (f.state (k + 1)))
    {d : CallId} (hd : (f.state k).thread d = .read a x p) (h : Foretold f r a (k + 1) x p) :
    Foretold f r a k x p :=
  h.keep rfl (fun _ _ _ _ ht => ht.weaken le_rfl fun d' hd' =>
    ⟨d', by rw [← hr.inside_eq hs hd, hd'], rfl, rfl, le_rfl⟩) fun _ _ => rfl

/-- An operation outside of a tag, at which the call reads nothing of the table. -/
theorem Foretold.keep_outside (hr : Reachable (f.state k))
    (hc : (f.state k).thread c = .read a x p) (hk : k < n) (h : Foretold f r a (k + 1) x' p')
    (hpending : p.pending = none) (hinside : ∀ e, p'.inside e = none)
    (hahead : p.ahead ≤ p'.ahead) (hrest : ∀ t tag, p.rest t a tag = p'.rest t a tag) :
    Foretold f r a k x p := by
  obtain ⟨shown, w, hshown, -, h⟩ := h
  refine foretold_outside hr hc hpending hk.le shown (fun i hi => (hshown i hi).before)
    fun t tag _ ht => ?_
  rw [hrest]
  refine h t tag ⟨fun i hi => ht.tags i (hahead.trans hi), fun d hd => ?_⟩
  rw [hinside] at hd
  cases hd

/-- The call finds no tag. -/
theorem Foretold.noTag {v : ReadVars} (hr : Reachable (f.state k))
    (hc : (f.state k).thread c = .read a x (.loadTag v)) (hk : k < n)
    (htag : (f.state k).mem.tags v.i = none) (h : Foretold f r a (k + 1) x' (.unlockTag v)) :
    Foretold f r a k x (.loadTag v) := by
  have hi : v.i < maxTags := hr.counting hc
  obtain ⟨shown, w, hshown, -, h⟩ := h
  refine foretold_outside hr hc rfl hk.le (Function.update shown v.i none)
    (fun i hi => ?_) fun t tag _ ht => ?_
  · by_cases hiv : i = v.i
    · subst hiv
      rw [Function.update_self]
      exact .absent le_rfl hk.le htag
    · rw [Function.update_of_ne hiv]
      exact (hshown i hi).before
  · have hnone := ht.tags v.i le_rfl hi
    rw [Function.update_self, Option.map_eq_none_iff] at hnone
    refine (restTags_none hi hnone).trans (h t tag ⟨fun i hle hi => ?_, fun d hd => by cases hd⟩)
    rw [ht.tags i (Nat.le_of_succ_le hle) hi, Function.update_of_ne (ne_of_gt hle)]

/-- The call skips a tag. -/
theorem Foretold.skip {v : ReadVars} {y : TagAddr} (hr : Reachable (f.state k))
    (hc : (f.state k).thread c = .read a x (.loadTag v)) (hk : k < n)
    (htag : (f.state k).mem.tags v.i = some y) (hskip : Device.tagSize < v.relativeOff)
    (h : Foretold f r a (k + 1) x'
      (.unlockTag { v with relativeOff := v.relativeOff - Device.tagSize })) :
    Foretold f r a k x (.loadTag v) := by
  have hi : v.i < maxTags := hr.counting hc
  obtain ⟨shown, w, hshown, -, h⟩ := h
  refine foretold_outside hr hc rfl hk.le
    (Function.update shown v.i ((f.state k).shown v.i)) (fun i hi => ?_) fun t tag _ ht => ?_
  · by_cases hiv : i = v.i
    · subst hiv
      rw [Function.update_self]
      exact seenTag_now hr hk.le
    · rw [Function.update_of_ne hiv]
      exact (hshown i hi).before
  · have hsome := ht.tags v.i le_rfl hi
    rw [Function.update_self, State.shown, htag, Option.map_some, Option.map_eq_some_iff] at hsome
    obtain ⟨tag', htag', -⟩ := hsome
    refine (restTags_skip hi htag' hskip).trans
      (h t tag ⟨fun i hle hi => ?_, fun d hd => by cases hd⟩)
    rw [ht.tags i (Nat.le_of_succ_le hle) hi, Function.update_of_ne (ne_of_gt hle)]

/-- The call finds a tag. -/
theorem Foretold.enter {v : ReadVars} {y : TagAddr} (hr : Reachable (f.state k))
    (hc : (f.state k).thread c = .read a x (.loadTag v)) (hk : k < n)
    (hs : Step (f.state k) c (f.state (k + 1))) (htag : (f.state k).mem.tags v.i = some y)
    (hskip : ¬ Device.tagSize < v.relativeOff)
    (h : Foretold f r a (k + 1) (some y) (.loadEntry v)) : Foretold f r a k x (.loadTag v) := by
  have hi : v.i < maxTags := hr.counting hc
  obtain ⟨shown, w, hshown, hw, h⟩ := h
  refine foretold_outside hr hc rfl hk.le
    (Function.update shown v.i
      (some ⟨(f.state k).mem.key y, ((f.state k).mem.obj y).euid, fun j => w j⟩))
    (fun i hi => ?_) fun t tag _ ht => ?_
  · by_cases hiv : i = v.i
    · subst hiv
      rw [Function.update_self]
      exact .present le_rfl hk.le htag fun j =>
        ((hw y rfl j j.2).2 fun l hl => by cases hl).before
    · rw [Function.update_of_ne hiv]
      exact (hshown i hi).before
  · have hsome := ht.tags v.i le_rfl hi
    rw [Function.update_self, Option.map_eq_some_iff] at hsome
    obtain ⟨tag', htag', heq⟩ := hsome
    have hentry : (f.state (k + 1)).mem.entry y = (f.state k).mem.entry y :=
      hs.entry (hr.bounds.tags _ y htag)
    refine (restTags_some hi htag' hskip).trans (h t tag' ⟨fun i hle hi => ?_, fun d hd => ?_⟩)
    · rw [ht.tags i (Nat.le_of_succ_le hle) hi, Function.update_of_ne (ne_of_gt hle)]
    · cases hd
      simp only [shownOf, Shown.mk.injEq] at heq
      obtain ⟨hkey, heuid, hwaiting⟩ := heq
      exact ⟨hkey.trans (congrArg Registry.Entry.key hentry).symm,
        heuid.trans (congrArg Registry.Entry.euid hentry).symm,
        fun j _ hj => congrFun hwaiting ⟨j, hj⟩⟩

/-- The call loads the current instance of a level. -/
theorem Foretold.load {v : ReadVars} {y : TagAddr} {l : Addr}
    (hl : ((f.state k).mem.obj y).tagLevel v.j = some l)
    (h : Foretold f r a (k + 1) (some y) (.lockRcu v l)) :
    Foretold f r a k (some y) (.loadLevel v) := by
  obtain ⟨shown, w, hshown, hw, h⟩ := h
  refine ⟨shown, w, fun i hi => (hshown i hi).before, ?_, fun t tag ht =>
    h t tag (ht.weaken le_rfl fun d hd => ⟨d, hd, rfl, rfl, le_rfl⟩)⟩
  rintro z hz j hj
  cases hz
  refine ⟨fun l hl => (by cases hl), fun _ => ?_⟩
  by_cases hjv : j = v.j
  · subst hjv
    obtain ⟨u, hu, hn, hw⟩ := (hw y rfl v.j hj).1 l rfl
    exact ⟨l, k, u, le_rfl, Nat.le_of_succ_le hu, hn, hl, hw⟩
  · refine ((hw y rfl j hj).2 fun l' hl' => hjv ?_).before
    cases hl'
    rfl

/-- The call reads the counter of an instance. -/
theorem Foretold.count {v : ReadVars} {y : TagAddr} {l : Addr} (hk : k < n) (hj : v.j < levels)
    (h : Foretold f r a (k + 1) (some y)
      (.append v l (Device.rowText v.key v.euid v.j (((f.state k).mem.obj y).waiting l)))) :
    Foretold f r a k (some y) (.readWaiting v l) := by
  obtain ⟨shown, w, hshown, hw, h⟩ := h
  refine ⟨shown, Function.update w v.j (((f.state k).mem.obj y).waiting l),
    fun i hi => (hshown i hi).before, ?_, fun t tag ht => ?_⟩
  · rintro z hz j hj
    cases hz
    by_cases hjv : j = v.j
    · subst hjv
      rw [Function.update_self]
      refine ⟨fun l' hl' => ?_, fun hne => absurd rfl (hne l)⟩
      cases hl'
      exact ⟨k, le_rfl, hk.le, rfl⟩
    · rw [Function.update_of_ne hjv]
      refine ⟨fun l' hl' => ?_, fun _ => ((hw y rfl j hj).2 fun l' hl' => by cases hl').before⟩
      cases hl'
      exact absurd rfl hjv
  · obtain ⟨hkey, heuid, hwaiting⟩ := ht.inside _ rfl
    have hrow : tag.row v.j =
        Device.rowText v.key v.euid v.j (((f.state k).mem.obj y).waiting l) := by
      rw [Device.Tag.row, hkey, heuid, hwaiting v.j le_rfl hj, Function.update_self]
    refine (restLevels_of_lt hj).trans ?_
    rw [hrow]
    refine h t tag ⟨ht.tags, fun d hd => ?_⟩
    cases hd
    refine ⟨hkey, heuid, fun j hle hj => ?_⟩
    rw [hwaiting j (Nat.le_of_succ_le hle) hj, Function.update_of_ne (ne_of_gt hle)]

/-- Inside a tag the call keeps it. -/
theorem Foretold.keep_inside (h : Foretold f r a (k + 1) x p') (hpending : p.pending = p'.pending)
    (hahead : p.ahead ≤ p'.ahead)
    (hinside : ∀ d', p'.inside ((f.state (k + 1)).mem.entryOf x) = some d' → ∃ d,
      p.inside ((f.state k).mem.entryOf x) = some d ∧ d.key = d'.key ∧ d.euid = d'.euid ∧
        d.line ≤ d'.line)
    (hrest : ∀ t tag, p.rest t a tag = p'.rest t a tag) : Foretold f r a k x p :=
  h.keep hpending (fun _ _ _ _ ht => ht.weaken hahead hinside) hrest

theorem nextTag_inside (v : ReadVars) (e : Registry.Entry) :
    (ReadState.nextTag v).inside e = none := by
  rw [ReadState.nextTag]
  split <;> rfl

theorem le_nextTag {v : ReadVars} (h : v.i < maxTags) :
    v.i + 1 ≤ (ReadState.nextTag v).ahead := by
  rw [ReadState.nextTag]
  split
  · exact le_rfl
  · exact h

theorem nextLevel_pending (v : ReadVars) : (ReadState.nextLevel v).pending = none := by
  rw [ReadState.nextLevel]
  split <;> rfl

theorem le_nextLevel (v : ReadVars) : v.i + 1 ≤ (ReadState.nextLevel v).ahead := by
  rw [ReadState.nextLevel]
  split <;> exact le_rfl

theorem nextLevel_inside {v : ReadVars} {e : Registry.Entry} {d : Inside}
    (h : (ReadState.nextLevel v).inside e = some d) : d = ⟨v.i, v.key, v.euid, v.j + 1⟩ := by
  rw [ReadState.nextLevel] at h
  split at h <;> cases h
  rfl

/-- **An operation of the call itself.** -/
theorem Foretold.own {m : Mem} (hr : Reachable (f.state k))
    (hc : (f.state k).thread c = .read a x p) (hk : k < n)
    (hx : readStep c (f.state k).mem a x p .go = some (m, x', p'))
    (hs : Step (f.state k) c (f.state (k + 1))) (h : Foretold f r a (k + 1) x' p') :
    Foretold f r a k x p := by
  have hcount := hr.counting hc
  have hbrk : ∀ y, x = some y → y < (f.state k).mem.brk := fun y hy =>
    hr.bounds.entry c y (by rw [hc]; exact hy)
  cases p
  case start =>
    cases hx
    refine h.keep_outside hr hc hk rfl (fun e => ?_) (Nat.zero_le _)
      fun t tag => rest_start tag
    rw [ReadArgs.failed]
    split_ifs <;> rfl
  case allocBuffer | allocHeader | allocDivider =>
    cases hx
    exact h.keep_outside hr hc hk rfl (fun _ => rfl) le_rfl fun _ _ => rfl
  case lockTag v =>
    obtain ⟨_, -, heq⟩ := Option.map_eq_some_iff.1 hx
    cases heq
    exact h.keep_outside hr hc hk rfl (fun _ => rfl) le_rfl fun _ _ => rfl
  case loadTag v =>
    simp only [readStep, readFails, readCode, execOn, ReadState.desc] at hx
    split at hx
    · rename_i htag
      cases hx
      exact h.noTag hr hc hk htag
    · rename_i y htag
      cases hx
      by_cases hskip : Device.tagSize < v.relativeOff
      · simp only [if_pos hskip] at h
        exact h.skip hr hc hk htag hskip
      · simp only [if_neg hskip] at h
        exact h.enter hr hc hk hs htag hskip
  case loadEntry v =>
    cases hx
    refine h.keep_inside rfl le_rfl (fun d hd => ?_) fun _ _ => rfl
    cases hd
    exact ⟨_, rfl, rfl, rfl, le_rfl⟩
  case lockLevel v =>
    obtain ⟨y, μ, rfl, rfl, rfl, hex⟩ := go_inTag rfl hx
    obtain ⟨_, -, heq⟩ := Option.map_eq_some_iff.1 hex
    cases heq
    exact h.keep_inside rfl le_rfl (fun d hd => ⟨d, hd, rfl, rfl, le_rfl⟩) fun _ _ => rfl
  case loadLevel v =>
    obtain ⟨y, μ, rfl, rfl, rfl, hex⟩ := go_inTag rfl hx
    obtain ⟨l, hl⟩ := hr.exists_level (hbrk y rfl) hcount.2
    dsimp only [readCode, exec] at hex
    rw [hl] at hex
    cases hex
    exact h.load hl
  case unlockLevelSkip v =>
    obtain ⟨y, μ, rfl, rfl, rfl, hex⟩ := go_inTag rfl hx
    cases hex
    exact h.keep_inside (nextLevel_pending v).symm (le_nextLevel v)
      (fun d hd => ⟨_, rfl, by rw [nextLevel_inside hd], by rw [nextLevel_inside hd],
        by rw [nextLevel_inside hd]⟩) fun t tag => (rest_nextLevel v tag).symm
  case lockRcu v l =>
    obtain ⟨y, μ, rfl, rfl, rfl, hex⟩ := go_inTag rfl hx
    obtain ⟨_, -, heq⟩ := Option.map_eq_some_iff.1 hex
    cases heq
    exact h.keep_inside rfl le_rfl (fun d hd => ⟨d, hd, rfl, rfl, le_rfl⟩) fun _ _ => rfl
  case unlockLevel v l =>
    obtain ⟨y, μ, rfl, rfl, rfl, hex⟩ := go_inTag rfl hx
    cases hex
    exact h.keep_inside rfl le_rfl (fun d hd => ⟨d, hd, rfl, rfl, le_rfl⟩) fun _ _ => rfl
  case allocTemp v l =>
    cases hx
    exact h.keep_inside rfl le_rfl (fun d hd => ⟨d, hd, rfl, rfl, le_rfl⟩) fun _ _ => rfl
  case readWaiting v l =>
    obtain ⟨y, μ, rfl, rfl, rfl, hex⟩ := go_inTag rfl hx
    cases hex
    exact h.count hk hcount.2
  case append v l temp =>
    cases hx
    exact h.keep_inside rfl le_rfl (fun d hd => ⟨d, hd, rfl, rfl, le_rfl⟩) fun _ _ => rfl
  case unlockRcuSkip v l =>
    obtain ⟨y, μ, rfl, rfl, rfl, hex⟩ := go_inTag rfl hx
    cases hex
    exact h.keep_inside (nextLevel_pending v).symm (le_nextLevel v)
      (fun d hd => ⟨_, rfl, by rw [nextLevel_inside hd], by rw [nextLevel_inside hd],
        by rw [nextLevel_inside hd]⟩) fun t tag => (rest_nextLevel v tag).symm
  case unlockRcuError v l =>
    obtain ⟨y, μ, rfl, rfl, rfl, hex⟩ := go_inTag rfl hx
    cases hex
    exact h.keep_inside rfl le_rfl (fun d hd => by cases hd) fun _ _ => rfl
  case unlockRcu v l =>
    obtain ⟨y, μ, rfl, rfl, rfl, hex⟩ := go_inTag rfl hx
    cases hex
    by_cases hexit : Device.sumSize a.size v.relativeOff < v.reading.nbytes
    · simp only [if_pos hexit] at h
      exact h.keep_inside rfl hcount (fun d hd => by cases hd) fun t tag => if_pos hexit
    · simp only [if_neg hexit] at h
      exact h.keep_inside (nextLevel_pending v).symm (le_nextLevel v)
        (fun d hd => ⟨_, rfl, by rw [nextLevel_inside hd], by rw [nextLevel_inside hd],
          by rw [nextLevel_inside hd]⟩)
        fun t tag => (if_neg hexit).trans (rest_nextLevel v tag).symm
  case appendDivider v =>
    cases hx
    exact h.keep_outside hr hc hk rfl (fun _ => rfl) le_rfl fun _ _ => rfl
  case unlockTag v =>
    cases hx
    exact h.keep_outside hr hc hk rfl (nextTag_inside v) (le_nextTag hcount)
      fun t tag => (rest_nextTag v tag).symm
  case unlockTagError v | unlockTagExit v =>
    cases hx
    exact h.keep_outside hr hc hk rfl (fun _ => rfl) le_rfl fun _ _ => rfl
  case copyOut v =>
    cases hx
    refine h.keep_outside hr hc hk rfl (fun e => ?_) ?_ fun t tag => ?_
    · split_ifs <;> rfl
    · split_ifs <;> exact le_rfl
    · show a.result _ _ = _
      rw [ReadArgs.result]
      split_ifs <;> rfl
  case done => cases hx

end Foretold

/-! ## What the call returns

The beginning of the call: what is going to be seen from there is the whole table. -/

section

variable {s : State} {c : CallId} {a : ReadArgs} {x x' : Option TagAddr} {p : ReadState}
  {r : Device.Outcome}

/-- The call `c` gets its locks, its memory and the copy of its text.  The others do what they
like. -/
def Unhindered (c : CallId) (_ : State) (d : CallId) (o : Outcome) : Prop := d = c → o = .go

instance {s : State} {d : CallId} {o : Outcome} : Decidable (Unhindered c s d o) :=
  inferInstanceAs (Decidable (d = c → o = .go))

/-- A `dev_read` that is not hindered makes each of its steps the good way. -/
theorem go_of_unhindered {s₁ : State} (hc : s.thread c = .read a x p)
    (h : MovesWithin (Unhindered c) step s c s₁) :
    ∃ m x' p', readStep c s.mem a x p .go = some (m, x', p') ∧ s₁ = s.set c m (.read a x' p') := by
  obtain ⟨o, ho, hstep⟩ := h
  cases ho rfl
  simp only [step, hc, Option.map_eq_some_iff] at hstep
  obtain ⟨⟨m, x', p'⟩, hx, rfl⟩ := hstep
  exact ⟨m, x', p', hx, rfl⟩

/-- **What is left of a `dev_read` at any point.**  By induction from the end of the run to its
beginning. -/
theorem foretold {n k : ℕ} (f : Trace (MovesWithin (Unhindered c) step) (fun _ _ => True) n)
    (hr : ∀ k ≤ n, Reachable (f.state k)) (hdone : (f.state n).thread c = .read a x' (.done r))
    (hk : k ≤ n) : ∀ {x p}, (f.state k).thread c = .read a x p → Foretold f r a k x p := by
  induction hk using Nat.decreasingInduction with
  | self =>
    intro x p hc
    rw [hdone] at hc
    cases hc
    exact foretold_done (hr n le_rfl) fun y hy =>
      (hr n le_rfl).bounds.entry c y (by rw [hdone]; exact hy)
  | of_succ k hk ih =>
    intro x p hc
    have hw := f.step k hk
    have hs : Step _ _ _ := hw.moves
    by_cases hdc : f.mover k = c
    · rw [hdc] at hw hs
      obtain ⟨m, x₁, p₁, hx, hnext⟩ := go_of_unhindered hc hw
      exact (ih (by rw [hnext, Config.set_thread_self])).own (hr k hk.le) hc hk hx hs
    · exact (ih (by rw [hs.thread_of_ne (Ne.symm hdc), hc])).other (hr k hk.le) hs hc

/-- Parts of the right types make up a table. -/
theorem exists_shows {shown : ℕ → Option Shown}
    (h : ∀ i < maxTags, ∀ sh, shown i = some sh → sh.Typed ∧ 0 ≤ sh.key ∧ ∀ j, 0 ≤ sh.waiting j) :
    ∃ t, Shows t shown := by
  have htag : ∀ i, ∃ tag : Option Device.Tag, i < maxTags → tag.map shownOf = shown i := by
    intro i
    by_cases hi : i < maxTags
    · cases hsh : shown i with
      | none => exact ⟨none, fun _ => rfl⟩
      | some sh =>
        obtain ⟨⟨hkey, heuid, hwaiting⟩, hkey', hwaiting'⟩ := h i hi sh hsh
        refine ⟨some ⟨sh.key, sh.euid, fun j => if hj : j < levels then sh.waiting ⟨j, hj⟩ else 0,
          ⟨hkey', hkey⟩, heuid, fun j => ?_⟩, fun _ => ?_⟩
        · split_ifs with hj
          · exact ⟨hwaiting' _, hwaiting _⟩
          · exact ⟨le_rfl, by decide⟩
        · simp [shownOf]
    · exact ⟨none, fun hi' => absurd hi' hi⟩
  choose t ht using htag
  exact ⟨t, ht⟩

end

/-! ## Example

A `dev_read` that looks at a tag before a receive has gone to sleep on it, and reads the counter
afterwards. -/

/-- A creation (call 0), a receive (call 1), and reads of the first two counters. -/
def glances : CallId → Thread
  | 0 => .get ⟨5, Registry.tagCreat, Registry.tagPermAll, 1000⟩ none .start
  | 1 => .user 0 none (.receive ⟨0, true, 2, 0⟩ .start)
  | _ => .read ⟨true, 24, 135⟩ none .start

theorem glances_init : Init (State.start glances) where
  mem := rfl
  idle c := by
    show (glances c).idle = true
    unfold glances
    split <;> rfl
  entry c := by
    show (glances c).entry = none
    unfold glances
    split <;> rfl

/-- The tag has been created, and nobody waits. -/
def created : State := (State.start glances).after (goes 0 39)

/-- A `dev_read` has looked at the tag, the receive has gone to sleep, and the `dev_read` has gone
on. -/
def glanced : State := created.after (goes 2 11 ++ goes 1 17 ++ goes 2 60)

end TagAos.Service
