import TagAos.Tag.Integrity

/-!
# A send reaches every registered receiver, whatever the blocks

`TagAos.Tag.Delivery` follows a receiver that was waiting when a send set `ready`, through every
later moment of a run.  Here the same is said of runs in which freed blocks are handed out again.

* `Slab.send_reaches_registered` — as long as no instance is freed to which another call refers, the
  receiver does not sleep any more once everybody has been woken, the message stays where it is
  until it has been read, and the receiver ends in one of the ways that the code means it to.
* `Slab.asleep_again` — a last receiver that was overtaken resets `ready` under a receiver that has
  been woken, which goes back to sleep with its message gone.

What a receiver found, or failed to copy, is something it did at a moment of the run between the
send and now (`FoundTagReady`, `CopyFails`).
-/

set_option autoImplicit false

namespace TagAos

open Conc

theorem SendState.woken_rename (ρ : Addr → Addr) (q : SendState) :
    (q.rename ρ).Woken ↔ q.Woken := by
  cases q <;> exact Iff.rfl

namespace Slab

variable {G : State → CallId → Prop} {n i k : ℕ} {ρ : Addr → Addr} {e : Trace Slab.Step G n}
  {f : Trace TagAos.Step FreesUnused n} {c d : CallId} {a : ReceiveArgs} {b : SendArgs} {x l : Addr}

/-! ## What has happened

The events of a run, as the run beside it has them. -/

theorem Shadow.foundTagReady (h : Shadow ρ e f) (hk : k ≤ n) (hf : FoundTagReady f i k c a x) :
    FoundTagReady e i k c a (ρ x) := by
  obtain ⟨j, hij, hjk, hm, hc, hready⟩ := hf
  have hj : j < n := lt_of_lt_of_le hjk hk
  exact ⟨j, hij, hjk, (h.mover j hj).symm.trans hm, (h.related j hj.le).of_receive hc,
    (h.related j hj.le).mem.tagReady.trans hready⟩

theorem Shadow.hasRead (h : Shadow ρ e f) (hk : k ≤ n) (hf : HasRead f i k c a x) :
    HasRead e i k c a (ρ x) := by
  obtain ⟨j, p, hij, hjk, hc, hp⟩ := hf
  exact ⟨j, p.rename ρ, hij, hjk, (h.related j (hjk.trans hk)).of_receive hc,
    by rw [ReceiveState.reads_rename, hp, Option.map_some]⟩

theorem Shadow.copyFails {r : Result} (h : Shadow ρ e f) (hk : k ≤ n)
    (hf : CopyFails f i k c a x r) : CopyFails e i k c a (ρ x) r := by
  obtain ⟨j, m, hij, hjk, hm, hc, hc', hcode⟩ := hf
  have hj : j < n := lt_of_lt_of_le hjk hk
  exact ⟨j, m, hij, hjk, (h.mover j hj).symm.trans hm, (h.related j hj.le).of_receive hc,
    (h.related (j + 1) hj).of_receive hc', hcode⟩

theorem Shadow.served {r : Result} (h : Shadow ρ e f) (hk : k ≤ n)
    (hf : Served f i k c a b x r) : Served e i k c a b (ρ x) r := by
  rcases hf with hint | htag | ⟨hread, hmsg⟩
  · exact .inl hint
  · exact .inr (.inl (h.foundTagReady hk htag))
  · exact .inr (.inr ⟨h.hasRead hk hread, hmsg.imp_right (h.copyFails hk)⟩)

/-! ## Where the receiver can be

A receiver that waits on the block of a message waits on its instance, so `TagAos.Tag.Delivery`
applies to it in the other system. -/

/-- The send and a receiver on its block are on one instance, and the receiver is delivered to. -/
theorem Shadow.delivering {p : ReceiveState} (h : Shadow ρ e f) (hset : SetsReady e i d b l)
    (hc : (e.state i).thread c = .receive a p) (hp : p.on = some l) :
    ∃ x, SetsReady f i d b x ∧ ρ x = l ∧
      ∀ k, i < k → k ≤ n → Delivering f (i + 1) c d a b x k := by
  obtain ⟨x, hsetx, rfl⟩ := h.of_setsReady hset
  obtain ⟨q, y, hq, -, hy, heq, hlive⟩ := h.on hset.lt.le hc hp
  have hlivex : (f.state i).mem.Live x := by
    refine h.live hset.lt.le d x ?_
    rw [hsetx.point]
    exact List.mem_singleton_self x
  obtain rfl := (h.related i hset.lt.le).inj hlive hlivex heq
  exact ⟨y, hsetx, rfl, fun k hik hk => hsetx.delivering_trace h.init hq hy hik hk⟩

/-- A receiver that is still on an instance is on that of the message, which is there. -/
theorem Shadow.on_of_delivering {p : ReceiveState} (h : Shadow ρ e f) (hk : k ≤ n)
    (hd : Delivering f i c d a b x k) (hc : (e.state k).thread c = .receive a p)
    (hp : p.on = some l) :
    ρ x = l ∧ (f.state k).mem.Live x ∧ (∃ q, (f.state k).thread c = .receive a q ∧
      p = q.rename ρ ∧ q.on = some x) ∧ (f.state k).mem.ready x = true ∧
      Content (f.state k).mem b x := by
  obtain ⟨q, y, hq, hpq, hy, hρ, hlive⟩ := h.on hk hc hp
  obtain ⟨q', hq', hrest⟩ := hd.receiver
  rw [hq] at hq'
  cases hq'
  rcases hrest with ⟨hx, hready, hcont⟩ | ⟨r, hres, -⟩
  · rw [hy] at hx
    cases hx
    exact ⟨hρ, hlive, ⟨q, hq, hpq, hy⟩, hready, hcont⟩
  · rw [ReceiveState.result_of_on hy] at hres
    cases hres

/-- **A send reaches every registered receiver**, in a run in which no instance is freed to which
another call refers.  In the step after the moment `i` the send `d` sets `ready` on `l`, while the
receive `c` is in its wait on `l`.  At every later moment `k`

* once the sender has executed `wake_up_all`, `c` is not asleep in that wait;
* as long as `c` has not read the message, `ready` is set, the instance holds the message and has
  not been freed;
* if `c` has returned then a signal had ended its wait, or it has found `tag_entry->ready` set since
  when it computed its return code, or it returns 1 with the message, or `copy_to_user` has failed
  and it returns `-EFAULT`. -/
theorem send_reaches_registered (e : Trace Slab.Step FreesUnused n) (h0 : Init (e.state 0))
    {p : ReceiveState} (hset : SetsReady e i d b l) (hc : (e.state i).thread c = .receive a p)
    (hp : p.waitsOn = some l) (hik : i < k) (hk : k ≤ n) :
    (∀ q, (e.state k).thread d = .send b q → q.Woken → ¬ Asleep (e.state k) c l) ∧
    (∀ p', (e.state k).thread c = .receive a p' → p'.on = some l →
      (e.state k).mem.ready l = true ∧ Content (e.state k).mem b l ∧
        (e.state k).mem.freed l = 0) ∧
    (∀ r, (e.state k).thread c = .receive a (.done r) →
      r.waited = some (-ERESTARTSYS) ∨ FoundTagReady e (i + 1) k c a l ∨
        HasMessage e (i + 1) k c a b l r) := by
  obtain ⟨ρ, f, h⟩ := exists_shadow e (fun _ _ => id) h0
  obtain ⟨x, -, rfl, hall⟩ := h.delivering hset hc (ReceiveState.on_of_waitsOn hp)
  have hd := hall k hik hk
  refine ⟨fun q hq hw => ?_, fun p' hp' hon => ?_, fun r hr => ?_⟩
  · rintro ⟨⟨a', ha'⟩, hqueue⟩
    obtain ⟨q', hq', -, hwoken⟩ := hd.sender
    obtain ⟨q'', hq'', rfl⟩ := (h.related k hk).send hq
    rw [hq''] at hq'
    cases hq'
    obtain ⟨p', hp', -⟩ := hd.receiver
    have hthread := (h.related k hk).of_receive hp'
    rw [ha'] at hthread
    obtain ⟨rfl, -⟩ := Thread.receive.inj hthread
    obtain ⟨-, hlive, ⟨p'', hp'', heq, hon⟩, -⟩ := h.on_of_delivering hk hd ha' rfl
    have hblock := congrArg TagLevel.localWq ((h.related k hk).block hlive)
    rw [show (e.state k).mem.localWq (ρ x) = (f.state k).mem.localWq x from hblock] at hqueue
    refine hwoken ((SendState.woken_rename ρ q').1 hw) p'' hp'' ?_ hqueue
    cases p'' <;> first | exact hon | cases heq
  · obtain ⟨-, hlive, -, hready, hcont⟩ := h.on_of_delivering hk hd hp' hon
    have hblock := (h.related k hk).block hlive
    refine ⟨(congrArg TagLevel.ready hblock).trans hready,
      ⟨(congrArg TagLevel.size hblock).trans hcont.size, ?_, hcont.readable⟩, ?_⟩
    · rw [show (e.state k).mem.buffer (ρ x) = (f.state k).mem.buffer x from
        congrArg TagLevel.buffer hblock]
      exact hcont.buffer
    · exact ((h.related k hk).mem.live x (inUse_iff.2 hlive)).2
  · obtain ⟨q, hq, heq⟩ := (h.related k hk).receive hr
    obtain ⟨q', hq', hrest⟩ := hd.receiver
    rw [hq] at hq'
    cases hq'
    cases q <;> cases heq
    rcases hrest with ⟨hon, -⟩ | ⟨r', hres, hserved⟩
    · cases hon
    · cases hres
      exact h.served hk hserved

/-! ## A receiver that goes back to sleep

Without the condition: the last receiver that was overtaken resets `ready` between the wake-up and
the look. -/

/-- The schedule up to the moment when the third send is about to set `ready` on the block 0. -/
def beforeReady : List (CallId × Outcome × Addr) := overtaken ++ givenBlock 0 (goes 6 13)

/-- The send wakes receiver 5 and returns.  Then receiver 2 resets `ready`, and receiver 5 finds
nothing. -/
def wokenInVain : List (CallId × Outcome × Addr) :=
  beforeReady ++ givenBlock 0 (goes 6 5 ++ goes 2 1 ++ goes 5 4)

/-- The run of these moves. -/
def wokenInVainTrace : Trace Slab.Step (fun _ _ => True) wokenInVain.length :=
  played (m := 7) traffic_idle (by decide +kernel) (by decide +kernel)

theorem asleep_again : ¬ ∀ (n : ℕ) (e : Trace Slab.Step (fun _ _ => True) n), Init (e.state 0) →
    ∀ i d b l, SetsReady e i d b l → ∀ c a p, (e.state i).thread c = .receive a p →
      p.waitsOn = some l → ∀ k, i < k → k ≤ n →
        ∀ q, (e.state k).thread d = .send b q → q.Woken → ¬ Asleep (e.state k) c l := by
  intro h
  have hset : SetsReady wokenInVainTrace beforeReady.length 6 ⟨0, some [7, 8, 9], 3, 0⟩ 0 :=
    ⟨by decide +kernel, by decide +kernel, by decide +kernel⟩
  refine h _ wokenInVainTrace (State.init_start traffic_idle) _ _ _ _ hset 5 ⟨0, true, 2, 0⟩ (.sleep 0)
    (by decide +kernel) rfl wokenInVain.length hset.lt le_rfl (.done 1) (by decide +kernel) rfl ?_
  exact ⟨⟨⟨0, true, 2, 0⟩, by decide +kernel⟩, by decide +kernel⟩

/-- In the run of `recycled` the send on the block that was handed out again wakes receiver 5. -/
theorem send_reaches_registered_recycled :
    ¬ Asleep (recycledTrace.state 153) 5 0 ∧ (recycledTrace.state 153).mem.ready 0 = true ∧
      (recycledTrace.state 153).mem.freed 0 = 0 :=
  have hset : SetsReady recycledTrace 148 6 ⟨0, some [7, 8, 9], 3, 0⟩ 0 :=
    ⟨by decide +kernel, by decide +kernel, by decide +kernel⟩
  have h := send_reaches_registered recycledTrace (State.init_start traffic_idle) hset
    (c := 5) (a := ⟨0, true, 2, 0⟩) (p := .sleep 0) (k := 153) (by decide +kernel) rfl
    (by decide) (by decide +kernel)
  have hon := h.2.1 (.sleep 0) (by decide +kernel) rfl
  ⟨h.1 (.done 1) (by decide +kernel) rfl, hon.1, hon.2.2⟩

end Slab

end TagAos
