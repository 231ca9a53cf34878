import TagAos.Service.Accounts

/-!
# The module is unloaded

The wrapper of each system call raises the usage count of the module before it makes the call and
lowers it afterwards, and so does an open device file around `dev_read`.  The kernel unloads the
module only at usage count 0, and lets nobody in from then on; `cleanup_module` then frees the
bitmask, the table, every tag that is still linked, and `tags`.

`unload_frees_once` is about the memory, once each instance has an address of its own for good: no
call is under way while `cleanup_module` runs, deletions and `cleanup_module` free nothing twice and
nothing that a last receiver has freed, and once the module has gone, every tag that was ever
created has been freed by one of them.  That `kzalloc` hands out a freed block again makes no
difference to this only in the runs of `TagAos.Service.Beside`, where no instance is freed while
another call still refers to it.

What a wrapper does before `try_module_get` and after `module_put` is not modelled.  It is code of
the module that runs without the usage count, so a caller that is preempted there while the module
is unloaded is a risk that nothing here excludes.
-/

set_option autoImplicit false

namespace TagAos.Service

open Conc
open Registry (maxTags)

/-! ## The wrappers and `cleanup_module`

The system of `TagAos.Service` with the usage count around it.  A caller is inside between its
`try_module_get` and its `module_put`, and performs the operations of its call only there.  The
kernel is one more mover, which acts when the count is 0 and then has the module to itself. -/

/-- Where a caller is in the wrapper of its system call. -/
inductive Wrapper
  | outside
  /-- After `try_module_get` has succeeded, and before `module_put`. -/
  | inside
  /-- After `module_put`. -/
  | left
  /-- `try_module_get` has failed, and the wrapper returns -1. -/
  | refused
  deriving DecidableEq

/-- The points of `cleanup_module`. -/
inductive Cleanup
  /-- The module has not been asked to go, or cannot. -/
  | live
  | freeBitmask
  | freeTable
  | testTag (i : ℕ)
  /-- `clear_tag_level(tags[i] -> tag_level)`, and then the tag itself. -/
  | clearTag (i : ℕ) (y : TagAddr) (k : ℕ)
  | freeTags
  | gone
  deriving DecidableEq

/-- What the module allocates when it is loaded. -/
inductive Part
  | bitmask
  | table
  | tags
  deriving DecidableEq

/-- The module: its memory and calls, its usage count, and its end. -/
structure ModState where
  service : State
  phase : CallId → Wrapper
  /-- The usage count. -/
  refcnt : ℤ
  cleanup : Cleanup
  /-- How often a part has been freed. -/
  freed : Part → ℕ

/-- The test of the loop over `tags`. -/
def Cleanup.next (i : ℕ) : Cleanup := if i < maxTags then .testTag i else .freeTags

namespace ModState

/-- A caller moves on in its wrapper. -/
def setPhase (s : ModState) (c : CallId) (p : Wrapper) (n : ℤ) : ModState :=
  { s with phase := Function.update s.phase c p, refcnt := n }

@[simp] theorem setPhase_self (s : ModState) (c : CallId) (p : Wrapper) (n : ℤ) :
    (s.setPhase c p n).phase c = p := Function.update_self ..

@[simp] theorem setPhase_of_ne (s : ModState) {c d : CallId} (p : Wrapper) (n : ℤ) (h : d ≠ c) :
    (s.setPhase c p n).phase d = s.phase d := Function.update_of_ne h ..

def setMem (s : ModState) (m : Mem) (p : Cleanup) : ModState :=
  { s with service := ⟨m, s.service.thread⟩, cleanup := p }

def freePart (s : ModState) (q : Part) (p : Cleanup) : ModState :=
  { s with freed := Function.update s.freed q (s.freed q + 1), cleanup := p }

/-- The kernel unloads the module if nobody uses it, and `cleanup_module` runs. -/
def cleanupStep (s : ModState) : Option ModState :=
  match s.cleanup with
  | .live => if s.refcnt = 0 then some { s with cleanup := .freeBitmask } else none
  | .freeBitmask => some (s.freePart .bitmask .freeTable)
  | .freeTable => some (s.freePart .table (.next 0))
  | .testTag i =>
    match s.service.mem.tags i with
    | none => some { s with cleanup := .next (i + 1) }
    | some y => some { s with cleanup := .clearTag i y 0 }
  | .clearTag i y k =>
    if k < levels then some (s.setMem (s.service.mem.clearLevel y k) (.clearTag i y (k + 1)))
    else some (s.setMem (s.service.mem.freeTag y) (.next (i + 1)))
  | .freeTags => some (s.freePart .tags .gone)
  | .gone => none

/-- `try_module_get`, the call itself, and `module_put`. -/
def wrapperStep (s : ModState) (c : CallId) (o : Outcome) : Option ModState :=
  match s.phase c with
  | .outside =>
    match s.cleanup with
    | .live => some (s.setPhase c .inside (s.refcnt + 1))
    -- the code of the wrapper has gone with the module
    | .gone => none
    | _ => some (s.setPhase c .refused s.refcnt)
  | .inside =>
    if (s.service.thread c).returned then
      some (s.setPhase c .left (s.refcnt - 1))
    else (Service.step s.service c o).map fun t => { s with service := t }
  | .left | .refused => none

/-- One operation of a caller, or of the kernel when it unloads the module. -/
def step (s : ModState) : Option CallId → Outcome → Option ModState
  | some c, o => s.wrapperStep c o
  | none, _ => s.cleanupStep

/-- The module has just been loaded, and nobody has called it. -/
structure Init (s : ModState) : Prop where
  service : Service.Init s.service
  counted : ∀ c, (s.service.thread c).Counted
  phase : ∀ c, s.phase c = .outside
  refcnt : s.refcnt = 0
  cleanup : s.cleanup = .live
  freed : ∀ q, s.freed q = 0

/-- Some operation. -/
def Step (s : ModState) (c : Option CallId) (s' : ModState) : Prop := Moves step s c s'

end ModState

/-! ## What an operation does

A caller enters before its first operation and leaves after it has returned, so while nobody is
inside all calls rest. -/

/-- The call has not begun, or has returned. -/
def Thread.rests (t : Thread) : Bool := t.idle || t.returned

theorem Thread.none_of_rests {t : Thread} (h : t.rests = true) :
    t.holds = none ∧ t.buries = none := by
  cases t with
  | get a x p => cases p <;> first | exact ⟨rfl, rfl⟩ | cases h
  | delete tag u x i p => cases p <;> first | exact ⟨rfl, rfl⟩ | cases h
  | user | read => exact ⟨rfl, rfl⟩

/-- The ways an operation of the module can go. -/
inductive ModMove (s : ModState) : ModState → Prop
  | enter (c : CallId) (hp : s.phase c = .outside) (hl : s.cleanup = .live) :
      ModMove s (s.setPhase c .inside (s.refcnt + 1))
  | refuse (c : CallId) (hp : s.phase c = .outside) (hl : s.cleanup ≠ .live) :
      ModMove s (s.setPhase c .refused s.refcnt)
  | call (c : CallId) (t : State) (hp : s.phase c = .inside) (hs : Step s.service c t) :
      ModMove s { s with service := t }
  | leave (c : CallId) (hp : s.phase c = .inside) (hr : (s.service.thread c).returned = true) :
      ModMove s (s.setPhase c .left (s.refcnt - 1))
  | unload (hl : s.cleanup = .live) (hz : s.refcnt = 0) :
      ModMove s { s with cleanup := .freeBitmask }
  | clean (s' : ModState) (hl : s.cleanup ≠ .live) (h : s.cleanupStep = some s') : ModMove s s'

theorem ModState.Step.move {s s' : ModState} {c : Option CallId} (h : ModState.Step s c s') :
    ModMove s s' := by
  obtain ⟨o, ho⟩ := h
  cases c with
  | none =>
    by_cases hl : s.cleanup = .live
    · simp only [ModState.step, ModState.cleanupStep, hl, Option.ite_none_right_eq_some,
        Option.some.injEq] at ho
      obtain ⟨hz, rfl⟩ := ho
      exact .unload hl hz
    · exact .clean s' hl ho
  | some c =>
    rw [ModState.step, ModState.wrapperStep] at ho
    split at ho
    · rename_i hp
      split at ho
      · rename_i hl; cases ho; exact .enter c hp hl
      · cases ho
      · rename_i hl _; cases ho; exact .refuse c hp hl
    · rename_i hp
      split_ifs at ho with hr
      · cases ho; exact .leave c hp hr
      · obtain ⟨t, ht, rfl⟩ := Option.map_eq_some_iff.1 ho
        exact .call c t hp ⟨o, ht⟩
    · cases ho
    · cases ho

/-! ## How far the module has been freed

`cleanup_module` frees every tag as a deletion does, and the pieces are counted in the same fields.
The state in which it found the service tells which tags those are. -/

/-- How many pieces of the tag with the descriptor `d` have been freed. -/
def Cleanup.pieces : Cleanup → ℕ → ℕ
  | .testTag i, d => if d < i then levels + 1 else 0
  | .clearTag i _ k, d => if d < i then levels + 1 else if d = i then k else 0
  | .freeTags, _ | .gone, _ => levels + 1
  | _, _ => 0

/-- How often a part has been freed. -/
def Cleanup.parts : Cleanup → Part → ℕ
  | .live, _ | .freeBitmask, _ => 0
  | .freeTable, q => if q = .bitmask then 1 else 0
  | .gone, _ => 1
  | _, q => if q = .tags then 0 else 1

theorem Cleanup.next_pieces {i d : ℕ} (hd : d < maxTags) :
    (Cleanup.next i).pieces d = if d < i then levels + 1 else 0 := by
  rw [Cleanup.next]
  split
  · rfl
  · rw [if_pos (by omega)]
    rfl

/-- `cleanup_module` has come to the point `p` since it found the service in the state `t`. -/
structure Cleared (t : State) (m : Mem) (p : Cleanup) : Prop where
  tags : m.tags = t.mem.tags
  obj : m.obj = t.mem.obj
  brk : m.brk = t.mem.brk
  linked : ∀ d y, t.mem.tags d = some y → Freed m y (p.pieces d)
  /-- Tags that are not linked are left alone. -/
  other : ∀ y, (∀ d, t.mem.tags d ≠ some y) →
    m.cleared y = t.mem.cleared y ∧ m.tagFreed y = t.mem.tagFreed y
  point : ∀ i y k, p = .clearTag i y k → t.mem.tags i = some y ∧ k ≤ levels

section Cleared

variable {t : State} {m : Mem} {p p' : Cleanup}

/-- Live tags have descriptors in range. -/
theorem Reachable.lt_of_tags (hr : Reachable t) {d : ℕ} {y : TagAddr}
    (hd : t.mem.tags d = some y) : d < maxTags := by
  have hreg : t.registry.mem.tags d = some (t.mem.entry y) := by
    show (t.mem.tags d).map t.mem.entry = _
    rw [hd]
    rfl
  exact hr.registry.used d (hr.registry.live d _ hreg).2.1

/-- Two descriptors do not lead to the same tag. -/
theorem Reachable.tags_inj (hr : Reachable t) {d e : ℕ} {y : TagAddr}
    (hd : t.mem.tags d = some y) (he : t.mem.tags e = some y) : d = e :=
  (hr.tagKey_eq hd).symm.trans (hr.tagKey_eq he)

theorem Cleared.start (hr : Reachable t) : Cleared t t.mem .freeBitmask where
  tags := rfl
  obj := rfl
  brk := rfl
  linked d _ hd := hr.lifetimes.freed_zero fun hdead => hdead.tags d hd
  other _ _ := ⟨rfl, rfl⟩
  point _ _ _ hp := by cases hp

/-- A step that frees nothing of a tag. -/
theorem Cleared.goto (h : Cleared t m p) (hr : Reachable t)
    (hpieces : ∀ d < maxTags, p'.pieces d = p.pieces d)
    (hpoint : ∀ i y k, p' = .clearTag i y k → t.mem.tags i = some y ∧ k ≤ levels) :
    Cleared t m p' where
  tags := h.tags
  obj := h.obj
  brk := h.brk
  linked d y hd := by
    rw [hpieces d (hr.lt_of_tags hd)]
    exact h.linked d y hd
  other := h.other
  point := hpoint

/-- A step that frees a piece of the tag with the descriptor `i`. -/
theorem Cleared.free {m' : Mem} {i : ℕ} {y : TagAddr} (h : Cleared t m p) (hr : Reachable t)
    (hi : t.mem.tags i = some y) (htags : m'.tags = m.tags) (hobj : m'.obj = m.obj)
    (hbrk : m'.brk = m.brk) (hfreed : Freed m' y (p'.pieces i))
    (hother : ∀ z ≠ y, m'.cleared z = m.cleared z ∧ m'.tagFreed z = m.tagFreed z)
    (hpieces : ∀ d < maxTags, d ≠ i → p'.pieces d = p.pieces d)
    (hpoint : ∀ j z k, p' = .clearTag j z k → t.mem.tags j = some z ∧ k ≤ levels) :
    Cleared t m' p' where
  tags := htags.trans h.tags
  obj := hobj.trans h.obj
  brk := hbrk.trans h.brk
  linked d z hd := by
    by_cases hdi : d = i
    · subst hdi
      obtain rfl := Option.some.inj (hi.symm.trans hd)
      exact hfreed
    · have hzy : z ≠ y := by
        rintro rfl
        exact hdi (hr.tags_inj hd hi)
      rw [hpieces d (hr.lt_of_tags hd) hdi]
      exact (h.linked d z hd).congr (hother z hzy).1 (hother z hzy).2 (by rw [hobj])
  other z hz := by
    have hzy : z ≠ y := by
      rintro rfl
      exact hz i hi
    exact ⟨(hother z hzy).1.trans (h.other z hz).1, (hother z hzy).2.trans (h.other z hz).2⟩
  point := hpoint

theorem Cleanup.next_ne {i j k : ℕ} {y : TagAddr} : Cleanup.next i ≠ .clearTag j y k := by
  rw [Cleanup.next]
  split <;> exact Cleanup.noConfusion

theorem Cleared.clearLevel {i k : ℕ} {y : TagAddr} (h : Cleared t m (.clearTag i y k))
    (hr : Reachable t) (hk : k < levels) :
    Cleared t (m.clearLevel y k) (.clearTag i y (k + 1)) := by
  have hi := (h.point i y k rfl).1
  obtain ⟨f, hf⟩ := m.clearLevel_same y k
  refine h.free hr hi (by rw [hf]) (by rw [hf]) (by rw [hf]) ?_ (fun z hz => ?_)
    (fun d _ hd => ?_) fun j z l hp => ?_
  · have hold := h.linked i y hi
    simp only [Cleanup.pieces, lt_irrefl, if_false, if_true] at hold ⊢
    refine hold.clearLevel hk ?_
    rw [h.obj]
    exact hr.tagLevel_inj (hr.bounds.tags i y hi)
  · exact ⟨Mem.clearLevel_cleared_of_ne hz, by rw [hf]⟩
  · simp only [Cleanup.pieces, if_neg hd]
  · cases hp
    exact ⟨hi, hk⟩

theorem Cleared.freeTag {i k : ℕ} {y : TagAddr} (h : Cleared t m (.clearTag i y k))
    (hr : Reachable t) (hk : ¬ k < levels) : Cleared t (m.freeTag y) (.next (i + 1)) := by
  obtain ⟨hi, hle⟩ := h.point i y k rfl
  obtain rfl : k = levels := le_antisymm hle (not_lt.1 hk)
  refine h.free hr hi rfl rfl rfl ?_ (fun z hz => ⟨rfl, Function.update_of_ne hz ..⟩)
    (fun d hd hdi => ?_) fun j z l hp => absurd hp Cleanup.next_ne
  · have hold := h.linked i y hi
    rw [Cleanup.next_pieces (hr.lt_of_tags hi), if_pos (Nat.lt_succ_self i)]
    simp only [Cleanup.pieces, lt_irrefl, if_false, if_true] at hold
    exact hold.freeTag
  · rw [Cleanup.next_pieces hd]
    simp only [Cleanup.pieces, if_neg hdi, show d < i + 1 ↔ d < i by omega]

end Cleared

/-! ## The whole life of the module

As long as the module is alive the books of `TagAos.Service.Accounts` hold.  At usage count 0 no
deletion is under way, so each tag is linked or has been freed completely; `cleanup_module` goes on
from there. -/

/-- What holds of the module at any time, where `s₀` is its first state. -/
structure ModInv (s₀ s : ModState) : Prop where
  rests : ∀ c, s.phase c ≠ .inside → (s.service.thread c).rests = true
  /-- The usage count is the number of calls inside. -/
  count : Census (fun c => s.phase c = .inside) s.refcnt
  parts : s.freed = s.cleanup.parts
  live : s.cleanup = .live → Run Step s₀.service s.service
  unloading : s.cleanup ≠ .live → s.refcnt = 0 ∧ ∃ t, Run Step s₀.service t ∧
    s.service.thread = t.thread ∧ Cleared t s.service.mem s.cleanup

section ModInv

variable {s₀ s s' : ModState}

theorem ModState.Init.inv (h : s₀.Init) : ModInv s₀ s₀ where
  rests c _ := by rw [Thread.rests, h.service.idle c]; rfl
  count := by
    rw [h.refcnt]
    refine Census.empty fun c hc => ?_
    rw [h.phase c] at hc
    cases hc
  parts := by
    rw [h.cleanup]
    exact funext h.freed
  live _ := RunUnder.refl _
  unloading hne := absurd h.cleanup hne

/-- The loop over `tags` comes after the bitmask and the table, and before `tags`. -/
theorem Cleanup.next_parts (i : ℕ) (q : Part) :
    (Cleanup.next i).parts q = if q = .tags then 0 else 1 := by
  rw [Cleanup.next]
  split <;> rfl

theorem Cleanup.next_ne_live (i : ℕ) : Cleanup.next i ≠ .live := by
  rw [Cleanup.next]
  split <;> exact Cleanup.noConfusion

/-- `cleanup_module` moves no caller. -/
theorem ModState.cleanupStep_frame (hl : s.cleanup ≠ .live) (hs : s.cleanupStep = some s') :
    s'.phase = s.phase ∧ s'.refcnt = s.refcnt ∧ s'.service.thread = s.service.thread ∧
      s'.cleanup ≠ .live := by
  rw [ModState.cleanupStep] at hs
  split at hs
  case h_1 hp => exact absurd hp hl
  case h_2 => cases hs; exact ⟨rfl, rfl, rfl, Cleanup.noConfusion⟩
  case h_3 => cases hs; exact ⟨rfl, rfl, rfl, Cleanup.next_ne_live 0⟩
  case h_4 i _ =>
    split at hs
    · cases hs; exact ⟨rfl, rfl, rfl, Cleanup.next_ne_live (i + 1)⟩
    · cases hs; exact ⟨rfl, rfl, rfl, Cleanup.noConfusion⟩
  case h_5 i y k _ =>
    split_ifs at hs with hk
    · cases hs; exact ⟨rfl, rfl, rfl, Cleanup.noConfusion⟩
    · cases hs; exact ⟨rfl, rfl, rfl, Cleanup.next_ne_live (i + 1)⟩
  case h_6 => cases hs; exact ⟨rfl, rfl, rfl, Cleanup.noConfusion⟩
  case h_7 => cases hs

theorem ModState.cleanupStep_parts (hl : s.cleanup ≠ .live) (hs : s.cleanupStep = some s')
    (hparts : s.freed = s.cleanup.parts) : s'.freed = s'.cleanup.parts := by
  have hloop : ∀ i, (Cleanup.testTag i).parts = (Cleanup.next (i + 1)).parts := fun i =>
    funext fun q => (Cleanup.next_parts (i + 1) q).symm
  rw [ModState.cleanupStep] at hs
  split at hs
  case h_1 hp => exact absurd hp hl
  case h_2 hp =>
    cases hs
    rw [hp] at hparts
    funext q
    cases q <;> simp [ModState.freePart, hparts, Cleanup.parts]
  case h_3 hp =>
    cases hs
    rw [hp] at hparts
    funext q
    show Function.update s.freed .table (s.freed .table + 1) q = (Cleanup.next 0).parts q
    rw [Cleanup.next_parts, hparts]
    cases q <;> rfl
  case h_4 i hp =>
    rw [hp] at hparts
    split at hs
    · cases hs; exact hparts.trans (hloop i)
    · cases hs; exact hparts
  case h_5 i y k hp =>
    rw [hp] at hparts
    split_ifs at hs with hk
    · cases hs; exact hparts
    · cases hs; exact hparts.trans (hloop i)
  case h_6 hp =>
    cases hs
    rw [hp] at hparts
    funext q
    cases q <;> simp [ModState.freePart, hparts, Cleanup.parts]
  case h_7 => cases hs

/-- What `cleanup_module` frees at each of its points. -/
theorem ModState.cleanupStep_cleared {t : State} (hr : Reachable t) (hl : s.cleanup ≠ .live)
    (hs : s.cleanupStep = some s') (h : Cleared t s.service.mem s.cleanup) :
    Cleared t s'.service.mem s'.cleanup := by
  rw [ModState.cleanupStep] at hs
  split at hs
  case h_1 hp => exact absurd hp hl
  case h_2 hp | h_6 hp =>
    cases hs
    rw [hp] at h
    exact h.goto hr (fun _ _ => rfl) fun _ _ _ hp => by cases hp
  case h_3 hp =>
    cases hs
    rw [hp] at h
    show Cleared t s.service.mem (.next 0)
    refine h.goto hr (fun d hd => ?_) fun i y k hp => absurd hp Cleanup.next_ne
    rw [Cleanup.next_pieces hd, if_neg (Nat.not_lt_zero d)]
    rfl
  case h_4 i hp =>
    rw [hp] at h
    split at hs
    · rename_i hnone
      cases hs
      refine ⟨h.tags, h.obj, h.brk, fun d y hd => ?_, h.other,
        fun _ _ _ hp => absurd hp Cleanup.next_ne⟩
      have hold := h.linked d y hd
      have hne : d ≠ i := by
        rintro rfl
        rw [h.tags, hd] at hnone; cases hnone
      rw [Cleanup.next_pieces (hr.lt_of_tags hd)]
      simpa only [Cleanup.pieces, show d < i + 1 ↔ d < i by omega] using hold
    · rename_i y hy
      cases hs
      refine h.goto hr (fun d _ => ?_) fun j z k hq => ?_
      · simp only [Cleanup.pieces]
        split_ifs <;> rfl
      · cases hq
        exact ⟨by rw [← h.tags]; exact hy, Nat.zero_le _⟩
  case h_5 i y k hp =>
    rw [hp] at h
    split_ifs at hs with hk <;> cases hs
    · exact h.clearLevel hr hk
    · exact h.freeTag hr hk
  case h_7 => cases hs

/-- At usage count 0 nobody is inside, and from then on nobody comes in. -/
theorem ModInv.not_inside (h : ModInv s₀ s) (hl : s.cleanup ≠ .live) (c : CallId) :
    s.phase c ≠ .inside := by
  have hcount := h.count
  rw [(h.unloading hl).1] at hcount
  exact hcount.not_of_zero c

theorem ModInv.step (h : ModInv s₀ s) (h0 : s₀.Init) (hs : ModMove s s') : ModInv s₀ s' := by
  have inside : ∀ {c : CallId}, s.phase c = .inside → s.cleanup = .live := fun hp =>
    by_contra fun hl => h.not_inside hl _ hp
  cases hs with
  | enter c hp hl =>
    refine ⟨fun d hd => ?_, ?_, h.parts, h.live, fun hne => absurd hl hne⟩
    · have hdc : d ≠ c := by
        rintro rfl
        exact hd (s.setPhase_self d _ _)
      rw [s.setPhase_of_ne _ _ hdc] at hd
      exact h.rests d hd
    · refine h.count.enter (c := c) (by rw [hp]; exact Wrapper.noConfusion)
        (s.setPhase_self c _ _) fun d hd => ?_
      rw [s.setPhase_of_ne _ _ hd]
  | refuse c hp hl =>
    refine ⟨fun d hd => ?_, h.count.congr fun d => ?_, h.parts, h.live, h.unloading⟩
    · by_cases hdc : d = c
      · subst hdc
        exact h.rests d (by rw [hp]; exact Wrapper.noConfusion)
      · rw [s.setPhase_of_ne _ _ hdc] at hd
        exact h.rests d hd
    · by_cases hdc : d = c
      · subst hdc; simp [hp]
      · rw [s.setPhase_of_ne _ _ hdc]
  | call c t hp hs =>
    refine ⟨fun d hd => ?_, h.count, h.parts, fun hl => (h.live hl).step hs,
      fun hne => absurd (inside hp) hne⟩
    have hdc : d ≠ c := by
      rintro rfl
      exact hd hp
    show (t.thread d).rests = true
    rw [hs.thread_of_ne hdc]
    exact h.rests d hd
  | leave c hp hr =>
    refine ⟨fun d hd => ?_, ?_, h.parts, h.live, fun hne => absurd (inside hp) hne⟩
    · by_cases hdc : d = c
      · subst hdc
        show (s.service.thread d).rests = true
        rw [Thread.rests, hr, Bool.or_true]
      · rw [s.setPhase_of_ne _ _ hdc] at hd
        exact h.rests d hd
    · refine h.count.leave (c := c) hp (by simp) fun d hd => ?_
      rw [s.setPhase_of_ne _ _ hd]
  | unload hl hz =>
    refine ⟨h.rests, h.count, ?_, fun hne => Cleanup.noConfusion hne, fun _ => ⟨hz, s.service,
      h.live hl, rfl, Cleared.start ⟨_, h0.service, h.live hl⟩⟩⟩
    show s.freed = Cleanup.freeBitmask.parts
    rw [h.parts, hl]
    rfl
  | clean s' hl hs =>
    obtain ⟨hphase, hcount, hthread, hlive⟩ := ModState.cleanupStep_frame hl hs
    refine ⟨fun c hc => ?_, ?_, ModState.cleanupStep_parts hl hs h.parts,
      fun hne => absurd hne hlive, fun _ => ?_⟩
    · rw [hthread]
      exact h.rests c (by rw [← hphase]; exact hc)
    · rw [hphase, hcount]
      exact h.count
    · obtain ⟨hz, t, ht, htt, hc⟩ := h.unloading hl
      exact ⟨hcount.trans hz, t, ht, hthread.trans htt,
        ModState.cleanupStep_cleared ⟨_, h0.service, ht⟩ hl hs hc⟩

theorem modInv_of_run (h0 : s₀.Init) (h : Run ModState.Step s₀ s) : ModInv s₀ s :=
  h.invariant h0.inv fun _ _ _ hp _ hs => hp.step h0 hs.move

/-- Deletions and `cleanup_module` free nothing twice, and nothing that a last receiver has
freed. -/
structure FreedOnce (m : Mem) : Prop where
  tag : ∀ y, m.tagFreed y ≤ 1
  level : ∀ y l, m.cleared y l ≤ 1
  receiver : ∀ y l, m.cleared y l ≠ 0 → (m.obj y).freed l = 0

/-- Nothing is left of the tags and of the module. -/
structure Unloaded (s : ModState) : Prop where
  tag : ∀ y < s.service.mem.brk, s.service.mem.tagFreed y = 1
  level : ∀ y < s.service.mem.brk, ∀ i < levels, ∀ l, (s.service.mem.obj y).tagLevel i = some l →
    s.service.mem.cleared y l = 1 ∧ (s.service.mem.obj y).freed l = 0
  part : ∀ q, s.freed q = 1

/-- An instance that its tag points to has not been freed by a last receiver. -/
theorem Reachable.not_freed_of_linked {t : State} (hr : Reachable t) {y : TagAddr} {i : ℕ}
    {l : Addr} (hy : y < t.mem.brk) (hl : (t.mem.obj y).tagLevel i = some l) :
    (t.mem.obj y).freed l = 0 :=
  by_contra fun hne => (hr.epochs.freed y hy l hne).unlinked ⟨i, hl⟩

/-- Who has come as far as any number of pieces with each of its tags has freed nothing twice. -/
theorem Reachable.freedOnce {t : State} (hr : Reachable t) {m : Mem} (hobj : m.obj = t.mem.obj)
    (h : ∀ y < t.mem.brk, ∃ n, Freed m y n)
    (hunborn : ∀ y, t.mem.brk ≤ y → m.tagFreed y = 0 ∧ ∀ l, m.cleared y l = 0) :
    FreedOnce m := by
  refine ⟨fun y => ?_, fun y l => ?_, fun y l hne => ?_⟩
  all_goals by_cases hy : y < t.mem.brk
  · obtain ⟨n, hn⟩ := h y hy
    exact hn.le_one.1
  · rw [(hunborn y (not_lt.1 hy)).1]
    exact Nat.zero_le 1
  · obtain ⟨n, hn⟩ := h y hy
    exact hn.le_one.2 l
  · rw [(hunborn y (not_lt.1 hy)).2 l]
    exact Nat.zero_le 1
  · obtain ⟨n, hn⟩ := h y hy
    rw [hobj]
    have hlinked : ∃ i < levels, (t.mem.obj y).tagLevel i = some l := by
      by_contra hnot
      push Not at hnot
      exact hne (hn.other l (by rw [hobj]; exact hnot))
    obtain ⟨i, -, hi⟩ := hlinked
    exact hr.not_freed_of_linked hy hi
  · exact absurd ((hunborn y (not_lt.1 hy)).2 l) hne

/-- What has not been allocated has not been freed. -/
theorem Reachable.freed_unborn {t : State} (hr : Reachable t) {y : TagAddr} (hy : t.mem.brk ≤ y) :
    t.mem.tagFreed y = 0 ∧ ∀ l, t.mem.cleared y l = 0 :=
  ⟨by_contra fun hne => absurd (hr.lifetimes.freed y hne).lt (not_lt.2 hy),
    fun l => by_contra fun hne => absurd (hr.lifetimes.cleared y l hne).lt (not_lt.2 hy)⟩

theorem Accounts.freedOnce {t : State} (h : Accounts t) (hr : Reachable t) :
    FreedOnce t.mem := by
  refine hr.freedOnce rfl (fun y _ => ?_) fun y hy => hr.freed_unborn hy
  by_cases hdead : Dead t y
  · by_cases hb : ∃ c, (t.thread c).buries = some y
    · obtain ⟨c, hc⟩ := hb
      exact ⟨_, h.buried c y hc⟩
    · push Not at hb
      exact ⟨_, h.gone y hdead hb⟩
  · exact ⟨0, hr.lifetimes.freed_zero hdead⟩

/-- When nobody is inside, a tag is linked or has been freed. -/
theorem Accounts.freed_of_rests {t : State} (h : Accounts t)
    (hrests : ∀ c, (t.thread c).rests = true) {y : TagAddr} (hy : y < t.mem.brk)
    (htags : ∀ d, t.mem.tags d ≠ some y) : Freed t.mem y (levels + 1) := by
  refine h.gone y ⟨hy, htags, fun c hc => ?_⟩ fun c hc => ?_
  · rw [(Thread.none_of_rests (hrests c)).1] at hc; cases hc
  · rw [(Thread.none_of_rests (hrests c)).2] at hc; cases hc

/-- How far every tag has been freed while `cleanup_module` runs. -/
theorem Cleared.freed {t : State} {m : Mem} {p : Cleanup} (hc : Cleared t m p)
    (h : Accounts t) (hrests : ∀ c, (t.thread c).rests = true) {y : TagAddr} (hy : y < t.mem.brk) :
    (∃ d, t.mem.tags d = some y ∧ Freed m y (p.pieces d)) ∨ Freed m y (levels + 1) := by
  by_cases htags : ∃ d, t.mem.tags d = some y
  · obtain ⟨d, hd⟩ := htags
    exact .inl ⟨d, hd, hc.linked d y hd⟩
  · push Not at htags
    obtain ⟨hcleared, hfreed⟩ := hc.other y htags
    exact .inr ((h.freed_of_rests hrests hy htags).congr hcleared hfreed (by rw [hc.obj]))

theorem ModInv.freedOnce (h : ModInv s₀ s) (h0 : s₀.Init) : FreedOnce s.service.mem := by
  by_cases hl : s.cleanup = .live
  · have hrun := h.live hl
    exact (accounts_of_run h0.service h0.counted hrun).freedOnce ⟨_, h0.service, hrun⟩
  · obtain ⟨-, t, ht, hthread, hc⟩ := h.unloading hl
    have hr : Reachable t := ⟨_, h0.service, ht⟩
    have hrests : ∀ c, (t.thread c).rests = true := fun c => by
      rw [← hthread]
      exact h.rests c (h.not_inside hl c)
    refine hr.freedOnce hc.obj (fun y hy => ?_) fun y hy => ?_
    · rcases hc.freed (accounts_of_run h0.service h0.counted ht) hrests hy with ⟨d, -, hd⟩ | hd
      · exact ⟨_, hd⟩
      · exact ⟨_, hd⟩
    · obtain ⟨hcleared, hfreed⟩ := hc.other y fun d hd =>
        absurd (hr.bounds.tags d y hd) (not_lt.2 hy)
      rw [hcleared, hfreed]
      exact hr.freed_unborn hy

theorem ModInv.unloaded (h : ModInv s₀ s) (h0 : s₀.Init) (hgone : s.cleanup = .gone) :
    Unloaded s := by
  have hl : s.cleanup ≠ .live := by rw [hgone]; exact Cleanup.noConfusion
  obtain ⟨-, t, ht, hthread, hc⟩ := h.unloading hl
  have hr : Reachable t := ⟨_, h0.service, ht⟩
  have hrests : ∀ c, (t.thread c).rests = true := fun c => by
    rw [← hthread]
    exact h.rests c (h.not_inside hl c)
  have hfreed : ∀ y < s.service.mem.brk, Freed s.service.mem y (levels + 1) := fun y hy => by
    rw [hc.brk] at hy
    rcases hc.freed (accounts_of_run h0.service h0.counted ht) hrests hy with ⟨d, -, hd⟩ | hd
    · rw [hgone] at hd
      exact hd
    · exact hd
  refine ⟨fun y hy => ?_, fun y hy i hi l hil => ⟨?_, ?_⟩, fun q => ?_⟩
  · rw [(hfreed y hy).tag, if_pos (Nat.lt_succ_self _)]
  · rw [(hfreed y hy).linked i hi l hil, if_pos (Nat.lt_succ_of_lt hi)]
  · rw [hc.brk] at hy
    rw [hc.obj] at hil ⊢
    exact hr.not_freed_of_linked hy hil
  · rw [h.parts, hgone]
    rfl

end ModInv

/-- **What unloading does to the memory.**  While `cleanup_module` runs no call is between its
`try_module_get` and its `module_put`; nothing is freed twice by it and by deletions, before it or
during it; and it leaves nothing behind. -/
theorem unload_frees_once {s₀ s : ModState} (h0 : s₀.Init) (h : Run ModState.Step s₀ s) :
    (s.cleanup ≠ .live → ∀ c, s.phase c ≠ .inside ∧ (s.service.thread c).rests = true) ∧
    FreedOnce s.service.mem ∧ (s.cleanup = .gone → Unloaded s) := by
  have hinv := modInv_of_run h0 h
  refine ⟨fun hl c => ?_, hinv.freedOnce h0, hinv.unloaded h0⟩
  exact ⟨hinv.not_inside hl c, hinv.rests c (hinv.not_inside hl c)⟩

/-- The module as it is loaded, and the calls that are going to be made. -/
def ModState.start (calls : CallId → Thread) : ModState where
  service := State.start calls
  phase _ := .outside
  refcnt := 0
  cleanup := .live
  freed _ := 0

/-- Two creations and the deletion of the first tag. -/
def twoTags : CallId → Thread
  | 0 => .get ⟨5, Registry.tagCreat, Registry.tagPermAll, 0⟩ none .start
  | 1 => .get ⟨6, Registry.tagCreat, Registry.tagPermAll, 0⟩ none .start
  | _ => .delete 0 0 none 0 .start

theorem twoTags_init : (ModState.start twoTags).Init where
  service := ⟨rfl, fun c => by
    show (twoTags c).idle = true
    unfold twoTags
    split <;> rfl, fun c => by
    show (twoTags c).entry = none
    unfold twoTags
    split <;> rfl⟩
  counted c := by
    show (twoTags c).Counted
    unfold twoTags
    split <;> trivial
  phase _ := rfl
  refcnt := rfl
  cleanup := rfl
  freed _ := rfl

/-- The three calls, and the module is unloaded. -/
def unloading : List (Option CallId × Outcome) :=
  List.replicate 41 (some 0, .go) ++ List.replicate 41 (some 1, .go) ++
    List.replicate 45 (some 2, .go) ++ List.replicate 300 (none, .go)

theorem unload_frees_once_twoTags :
    let s := after ModState.step (ModState.start twoTags) unloading
    s.cleanup = .gone ∧ s.service.mem.brk = 2 ∧ Unloaded s := by
  have hgone : (after ModState.step (ModState.start twoTags) unloading).cleanup = .gone := by
    decide +kernel
  refine ⟨hgone, by decide +kernel, ?_⟩
  exact (unload_frees_once twoTags_init (run_after _ _)).2.2 hgone

end TagAos.Service
