import TagAos.Tag.Integrity
import TagAos.Tag.Reuse

/-!
# The instance that a level points to

A receiver that waits for a message has to be on the instance that its level points to, or no send
will reach it.  And when nobody uses a level any more, that instance has to be as new, or the level
refuses every later send.  Both hold of every reachable state of `TagAos.Tag.System`
(`tagLevel_of_waitsOn`, `level_clean`).

With an allocator that hands freed blocks out again the instance may be one whose block somebody
still takes for the instance that was there before.

* `Slab.stranded` — a last receiver that was overtaken resets `ready` of a superseded instance, and
  a receiver is left asleep there.
* `Slab.never_idle` — two last receivers decrement `waiting` of one instance too often, and the
  level is left with `waiting = -1` when nobody uses it.
* `Slab.linked_of_waiting`, `Slab.idle_level_clean` — neither happens as long as no instance is
  freed to which another call refers.
-/

set_option autoImplicit false

namespace TagAos

open Conc

theorem Thread.inFlight_rename (ρ : Addr → Addr) (t : Thread) :
    (t.rename ρ).inFlight = t.inFlight := by
  cases t with
  | receive a p => cases p <;> rfl
  | send b p => cases p <;> rfl
  | awake f p => cases p <;> rfl

namespace Slab

variable {s₀ s : State} {c : CallId} {a : ReceiveArgs} {p : ReceiveState} {l : Addr}

/-! ## Receivers that wait

First in the system of `TagAos.Tag.System`, then under names. -/

/-- **No receiver is stranded on a superseded instance**, in a run in which no instance is freed to
which another call refers.  A receiver that is registered on an instance, has not left its wait,
and has not been sent a message waits on the instance its level points to, whatever
`tag_entry->ready` says. -/
theorem linked_of_waiting (h0 : Init s₀) (h : RunUnder Slab.Step FreesUnused s₀ s)
    (hc : s.thread c = .receive a p) (hp : p.waitsOn = some l) (hr : s.mem.ready l = false) :
    s.mem.tagLevel a.lvl = some l := by
  obtain ⟨ρ, σ, hrun, hrel⟩ := exists_related h0 h
  obtain ⟨q, hq, rfl⟩ := hrel.receive hc
  rw [ReceiveState.waitsOn_rename, Option.map_eq_some_iff] at hp
  obtain ⟨x, hx, rfl⟩ := hp
  -- the receiver refers to the instance, so it is there
  have hlive : σ.mem.Live x := refsLive_of_run h0 hrun c x <| by
    rw [hq]
    exact ReceiveState.refs_of_on (ReceiveState.on_of_waitsOn hx)
  have hready : σ.mem.ready x = false :=
    (congrArg TagLevel.ready (hrel.block hlive)).symm.trans hr
  rw [hrel.mem.tagLevel, tagLevel_of_waitsOn ⟨s₀, h0, hrun.run⟩ hq hx hready, Option.map_some]

/-- Receiver 7 opens a new epoch in the block 33.  Then receiver 2, which has the block 0 from its
old instance, resets `ready` of the one that is there now. -/
def superseded : List (CallId × Outcome × Addr) :=
  overtaken ++ givenBlock 33 (goes 6 18 ++ goes 7 24 ++ goes 2 1)

/-- Receiver 5 is left asleep in the block 0. -/
theorem stranded : ¬ ∀ s₀ s : State, Init s₀ → Run Slab.Step s₀ s → ∀ c a p l,
    s.thread c = .receive a p → p.waitsOn = some l → s.mem.ready l = false →
      s.mem.tagReady = false → s.mem.tagLevel a.lvl = some l := by
  intro h
  have hlinked := h _ (after traffic superseded) (State.init_start traffic_idle)
    (Conc.run_after _ _) 5 ⟨0, true, 2, 0⟩ (.sleep 0) 0 (by decide +kernel) rfl
    (by decide +kernel) (by decide +kernel)
  revert hlinked
  decide +kernel

/-- In the run of `recycled` receiver 5 has opened the second new epoch, in a block that was handed
out before, and waits there. -/
theorem linked_of_waiting_recycled : (recycledTrace.state 117).mem.tagLevel 0 = some 0 ∧
    (recycledTrace.state 117).mem.epoch 0 = 2 := by
  have h0 : Init (recycledTrace.state 0) := State.init_start traffic_idle
  have hrun : RunUnder Slab.Step FreesUnused (recycledTrace.state 0) (recycledTrace.state 117) :=
    recycledTrace.run (Nat.zero_le 117) (by decide +kernel)
  have hc : (recycledTrace.state 117).thread 5 = .receive ⟨0, true, 2, 0⟩ (.sleep 0) := by
    decide +kernel
  have hlinked := linked_of_waiting h0 hrun hc rfl (by decide +kernel)
  rw [show ReceiveArgs.lvl ⟨0, true, 2, 0⟩ = 0 from rfl] at hlinked
  exact ⟨hlinked, by decide +kernel⟩

/-! ## Levels that nobody uses

The counter, the flag and the locks of an instance are the same in both systems, and so is whether a
call is in flight. -/

/-- The instance of each level is as new. -/
def AllClean (s : State) : Prop :=
  ∀ i < levels, ∃ l, s.mem.tagLevel i = some l ∧ s.mem.waiting l = 0 ∧ s.mem.ready l = false ∧
    s.mem.size l = 0 ∧ s.mem.wMutex l = none ∧ s.mem.sem (.rcu l) = .free

/-- **An idle level is ready for reuse**, after a run in which no instance is freed to which another
call refers.  When no call is in flight on the tag, the instance a level points to has no receiver,
no message and no lock held. -/
theorem idle_level_clean (h0 : Init s₀) (h : RunUnder Slab.Step FreesUnused s₀ s)
    (hidle : ∀ c, (s.thread c).inFlight = false) : AllClean s := by
  intro i hi
  obtain ⟨ρ, σ, hrun, hrel⟩ := exists_related h0 h
  have hσ : TagAos.Reachable σ := ⟨s₀, h0, hrun.run⟩
  obtain ⟨x, hx, hwaiting, hready, hsize, hmutex, hsem⟩ := level_clean hσ
    (fun c => by
      rw [← hidle c, hrel.thread_eq, Thread.inFlight_rename]) hi
  have hblock := hrel.block (hσ.live_of_linked ⟨i, hx⟩)
  exact ⟨ρ x, by rw [hrel.mem.tagLevel, hx, Option.map_some],
    (congrArg TagLevel.waiting hblock).trans hwaiting,
    (congrArg TagLevel.ready hblock).trans hready, (congrArg TagLevel.size hblock).trans hsize,
    (congrArg TagLevel.wMutex hblock).trans hmutex,
    (congrArg TagLevel.rcuLock hblock).trans hsem⟩

/-- When the calls a schedule names have returned and no other has begun, no call is in flight. -/
theorem inFlight_after {n : ℕ} {calls : CallId → Thread} {l : List (CallId × Outcome × Addr)}
    (hcalls : ∀ c, (calls c).idle = true) (hl : ∀ x ∈ l, x.1 < n)
    (h : ∀ c, c < n → ((after calls l).thread c).inFlight = false) (c : CallId) :
    ((after calls l).thread c).inFlight = false := by
  by_cases hc : c < n
  · exact h c hc
  · rw [Thread.inFlight, after_idle hcalls hl (not_lt.1 hc)]
    rfl

/-- Receiver 0 frees the instance when receiver 2 is about to leave it.  Receiver 5 takes the
instance of the second epoch for full and makes a third one in the same block, where receiver 2
decrements `waiting` in its place. -/
def uncounted : List (CallId × Outcome × Addr) :=
  rivals ++ givenBlock 32 (goes 2 10 ++ goes 0 7 ++ goes 4 18) ++
    givenBlock 0 (goes 5 15 ++ goes 2 4 ++ goes 5 11 ++ signalled 5 ++ goes 5 20 ++ goes 3 22)

theorem never_idle : ¬ ∀ s₀ s : State, Init s₀ → Run Slab.Step s₀ s →
    (∀ c, (s.thread c).inFlight = false) → AllClean s := by
  intro h
  obtain ⟨l, hl, hwaiting, -⟩ := h _ (after traffic uncounted) (State.init_start traffic_idle)
    (Conc.run_after _ _)
    (inFlight_after (n := 6) traffic_idle (by decide +kernel) (by decide +kernel)) 0 (by decide)
  have h0 : (after traffic uncounted).mem.tagLevel 0 = some 0 := by decide +kernel
  rw [h0] at hl
  cases hl
  have hneg : (after traffic uncounted).mem.waiting 0 = -1 := by decide +kernel
  rw [hneg] at hwaiting
  cases hwaiting

/-- At the end of the run of `recycled` nobody uses the tag, and a block that was handed out twice
is the instance of level 0. -/
theorem idle_level_clean_recycled :
    (recycledTrace.state recycled.length).mem.tagLevel 0 = some 0 ∧
      AllClean (recycledTrace.state recycled.length) :=
  ⟨by decide +kernel, idle_level_clean (State.init_start traffic_idle)
    (recycledTrace.run (Nat.zero_le _) le_rfl)
    (fun c => by
      rw [recycledTrace, scheduled_state, List.take_length]
      exact inFlight_after (n := 7) traffic_idle (by decide +kernel) (by decide +kernel) c)⟩

end Slab

end TagAos
