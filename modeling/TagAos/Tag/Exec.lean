import TagAos.Tag.Instr

/-!
# Running one instruction

`exec c m i o` runs the instruction `i` of the call `c` in the memory `m`.  The outcome `o` is the
part the environment decides: whether a signal interrupts an acquisition or a wait, whether an
allocation fails, and after how many bytes a copy runs into a bad user page.  `none` means that
the instruction cannot go that way now: a lock is held, a sleeper has not been woken.

`Exec` says the same as an inductive relation.  Every invariant of the development is a case
analysis on `Exec`, whose constructors name the ways an instruction can go.
-/

set_option autoImplicit false

namespace TagAos

open Conc

/-- What the environment decides about one instruction. -/
inductive Outcome
  /-- Nothing goes wrong. -/
  | go
  /-- A signal interrupts the acquisition or the wait. -/
  | signal
  /-- `kzalloc` returns 0. -/
  | nomem
  /-- The copy faults after this many bytes. -/
  | fault (copied : ℕ)
  deriving DecidableEq, Repr

variable {π ρ : Type}

/-- Run one instruction of the call `c`. -/
def exec (c : CallId) (m : Mem) : Instr π → Outcome → Option (Mem × π)
  | .jump p, .go => some (m, p)
  -- the locks: `none` where the acquisition would have to wait
  | .downRead l ok _, .go =>
    ((m.sem l).downRead c).map fun s => ({ m with sem := Function.update m.sem l s }, ok)
  | .downRead l _ intr, .signal => if m.mayInterrupt l then some (m, intr) else none
  | .upRead l p, .go =>
    some ({ m with sem := Function.update m.sem l ((m.sem l).upRead c) }, p)
  | .downWrite l ok _, .go =>
    ((m.sem l).downWrite c).map fun s => ({ m with sem := Function.update m.sem l s }, ok)
  | .downWrite l _ intr, .signal => if m.mayInterrupt l then some (m, intr) else none
  | .tryWrite l ok busy, .go =>
    match (m.sem l).downWrite c with
    | some s => some ({ m with sem := Function.update m.sem l s }, ok)
    | none => some (m, busy)
  | .upWrite l p, .go =>
    some ({ m with sem := Function.update m.sem l ((m.sem l).upWrite c) }, p)
  | .tryMutex a ok busy, .go =>
    match m.wMutex a with
    | none => some ({ m with wMutex := Function.update m.wMutex a (some c) }, ok)
    | some _ => some (m, busy)
  | .unlockMutex a p, .go => some ({ m with wMutex := Function.update m.wMutex a none }, p)
  -- the tag and the fields of its entry
  | .loadTags null found, .go => some (m, if m.tags then found else null)
  | .checkPerm cur refused granted, .go =>
    some (m, if m.checkPerm cur then refused else granted)
  | .loadTagReady set clear, .go => some (m, if m.tagReady then set else clear)
  | .storeTagReady v p, .go => some ({ m with tagReady := v }, p)
  | .loadReady a set clear, .go => some (m, if m.ready a then set else clear)
  | .storeReady a v p, .go => some ({ m with ready := Function.update m.ready a v }, p)
  -- the counters are atomic: an increment or decrement is one step, with the test of its result
  | .readTagWaiting p, .go => some (m, p m.tagWaiting)
  | .incTagWaiting p, .go => some ({ m with tagWaiting := m.tagWaiting + 1 }, p)
  | .decTagWaiting z nz, .go =>
    some ({ m with tagWaiting := m.tagWaiting - 1 }, if m.tagWaiting - 1 = 0 then z else nz)
  | .readWaiting a p, .go => some (m, p (m.waiting a))
  | .incWaiting a p, .go =>
    some ({ m with waiting := Function.update m.waiting a (m.waiting a + 1) }, p)
  | .decWaiting a z nz, .go =>
    some ({ m with waiting := Function.update m.waiting a (m.waiting a - 1) },
      if m.waiting a - 1 = 0 then z else nz)
  -- the levels and the instances they point to
  | .loadLevel i null found, .go =>
    match m.tagLevel i with
    | none => some (m, null)
    | some a => some (m, found a)
  | .storeLevel i a p, .go =>
    some ({ m with tagLevel := Function.update m.tagLevel i (some a) }, p)
  | .loadSize a p, .go => some (m, p (m.size a))
  | .storeSize a n p, .go => some ({ m with size := Function.update m.size a n }, p)
  | .loadEpoch a p, .go => some (m, p (m.epoch a))
  | .cmpEpoch b a newer older, .go =>
    some (m, if m.epoch a < m.epoch b then newer else older)
  | .createLevel i e _ ok, .go => some (m.createLevel i e, ok m.brk)
  | .createLevel _ _ failed _, .nomem => some (m, failed)
  | .freeLevel a p, .go =>
    some ({ m with freed := Function.update m.freed a (m.freed a + 1) }, p)
  -- the buffer, and the copies to and from the user
  | .copyFromUser a data n ok _, .go =>
    if n ≤ data.length then
      some ({ m with
        buffer := Function.update m.buffer a (overwrite (m.buffer a) (data.take n)) }, ok)
    else none
  | .copyFromUser a data n _ fault, .fault k =>
    -- what could not be read is filled up with zeros
    if k < n ∧ k ≤ data.length then
      some ({ m with
        buffer := Function.update m.buffer a
          (overwrite (m.buffer a) (data.take k ++ List.replicate (n - k) 0)) }, fault)
    else none
  | .copyToUser a n ok _, .go => some (m, ok ((m.buffer a).take n))
  | .copyToUser a n _ fault, .fault k =>
    if k < n then some (m, fault ((m.buffer a).take k)) else none
  | .memset a n p, .go =>
    some ({ m with
      buffer := Function.update m.buffer a (overwrite (m.buffer a) (List.replicate n 0)) }, p)
  -- the wait queue of an instance; a sleeper that is no longer in it has been woken
  | .prepareWait a queued _, .go =>
    some ({ m with localWq := Function.update m.localWq a (insert c (m.localWq a)) }, queued)
  | .prepareWait a _ pending, .signal =>
    some ({ m with localWq := Function.update m.localWq a ((m.localWq a).erase c) }, pending)
  | .schedule a p, .go => if c ∈ m.localWq a then none else some (m, p)
  | .schedule _ p, .signal => some (m, p)
  | .finishWait a p, .go =>
    some ({ m with localWq := Function.update m.localWq a ((m.localWq a).erase c) }, p)
  | .wakeUpAll a p, .go => some ({ m with localWq := Function.update m.localWq a ∅ }, p)
  | _, _ => none

/-- Renaming the local states does not change what an instruction does. -/
theorem exec_map (f : π → ρ) (c : CallId) (m : Mem) (i : Instr π) (o : Outcome) :
    exec c m (i.map f) o = (exec c m i o).map fun r => (r.1, f r.2) := by
  cases i <;> cases o <;> simp only [Instr.map, exec, Option.map_some, Option.map_none]
  case downRead.go l _ _ => cases (m.sem l).downRead c <;> rfl
  case downWrite.go l _ _ => cases (m.sem l).downWrite c <;> rfl
  case tryWrite.go l _ _ => cases (m.sem l).downWrite c <;> rfl
  case tryMutex.go a _ _ => cases m.wMutex a <;> rfl
  case loadLevel.go i _ _ => cases m.tagLevel i <;> rfl
  all_goals split <;> rfl

/-- The ways one instruction of the call `c` can go.  There is one constructor for each of them,
named after the instruction and, where there is more than one way, after what decides between them.
A proof by cases on `Exec` has the memory after the instruction and the point that follows in each
case, and need not know about outcomes. -/
inductive Exec (c : CallId) (m : Mem) : Instr π → Mem → π → Prop
  | jump {p : π} : Exec c m (.jump p) m p
  | downRead {l : Sem} {s : RwSem CallId} {ok intr : π} (h : (m.sem l).downRead c = some s) :
      Exec c m (.downRead l ok intr) { m with sem := Function.update m.sem l s } ok
  | downReadIntr {l : Sem} {ok intr : π} (h : m.mayInterrupt l = true) :
      Exec c m (.downRead l ok intr) m intr
  | upRead {l : Sem} {p : π} :
      Exec c m (.upRead l p) { m with sem := Function.update m.sem l ((m.sem l).upRead c) } p
  | downWrite {l : Sem} {s : RwSem CallId} {ok intr : π} (h : (m.sem l).downWrite c = some s) :
      Exec c m (.downWrite l ok intr) { m with sem := Function.update m.sem l s } ok
  | downWriteIntr {l : Sem} {ok intr : π} (h : m.mayInterrupt l = true) :
      Exec c m (.downWrite l ok intr) m intr
  | tryWrite {l : Sem} {s : RwSem CallId} {ok busy : π} (h : (m.sem l).downWrite c = some s) :
      Exec c m (.tryWrite l ok busy) { m with sem := Function.update m.sem l s } ok
  | tryWriteBusy {l : Sem} {ok busy : π} (h : (m.sem l).downWrite c = none) :
      Exec c m (.tryWrite l ok busy) m busy
  | upWrite {l : Sem} {p : π} :
      Exec c m (.upWrite l p) { m with sem := Function.update m.sem l ((m.sem l).upWrite c) } p
  | tryMutex {a : Addr} {ok busy : π} (h : m.wMutex a = none) :
      Exec c m (.tryMutex a ok busy) { m with wMutex := Function.update m.wMutex a (some c) } ok
  | tryMutexBusy {a : Addr} {d : CallId} {ok busy : π} (h : m.wMutex a = some d) :
      Exec c m (.tryMutex a ok busy) m busy
  | unlockMutex {a : Addr} {p : π} :
      Exec c m (.unlockMutex a p) { m with wMutex := Function.update m.wMutex a none } p
  | loadTags {null found : π} (h : m.tags = true) : Exec c m (.loadTags null found) m found
  | loadTagsNull {null found : π} (h : m.tags = false) : Exec c m (.loadTags null found) m null
  | checkPerm {cur : ℕ} {refused granted : π} (h : m.checkPerm cur = false) :
      Exec c m (.checkPerm cur refused granted) m granted
  | checkPermRefused {cur : ℕ} {refused granted : π} (h : m.checkPerm cur = true) :
      Exec c m (.checkPerm cur refused granted) m refused
  | loadTagReadySet {set clear : π} (h : m.tagReady = true) :
      Exec c m (.loadTagReady set clear) m set
  | loadTagReadyClear {set clear : π} (h : m.tagReady = false) :
      Exec c m (.loadTagReady set clear) m clear
  | storeTagReady {v : Bool} {p : π} : Exec c m (.storeTagReady v p) { m with tagReady := v } p
  | loadReadySet {a : Addr} {set clear : π} (h : m.ready a = true) :
      Exec c m (.loadReady a set clear) m set
  | loadReadyClear {a : Addr} {set clear : π} (h : m.ready a = false) :
      Exec c m (.loadReady a set clear) m clear
  | storeReady {a : Addr} {v : Bool} {p : π} :
      Exec c m (.storeReady a v p) { m with ready := Function.update m.ready a v } p
  | readTagWaiting {p : ℤ → π} : Exec c m (.readTagWaiting p) m (p m.tagWaiting)
  | incTagWaiting {p : π} :
      Exec c m (.incTagWaiting p) { m with tagWaiting := m.tagWaiting + 1 } p
  | decTagWaitingZero {z nz : π} (h : m.tagWaiting - 1 = 0) :
      Exec c m (.decTagWaiting z nz) { m with tagWaiting := m.tagWaiting - 1 } z
  | decTagWaiting {z nz : π} (h : m.tagWaiting - 1 ≠ 0) :
      Exec c m (.decTagWaiting z nz) { m with tagWaiting := m.tagWaiting - 1 } nz
  | readWaiting {a : Addr} {p : ℤ → π} : Exec c m (.readWaiting a p) m (p (m.waiting a))
  | incWaiting {a : Addr} {p : π} :
      Exec c m (.incWaiting a p)
        { m with waiting := Function.update m.waiting a (m.waiting a + 1) } p
  | decWaitingZero {a : Addr} {z nz : π} (h : m.waiting a - 1 = 0) :
      Exec c m (.decWaiting a z nz)
        { m with waiting := Function.update m.waiting a (m.waiting a - 1) } z
  | decWaiting {a : Addr} {z nz : π} (h : m.waiting a - 1 ≠ 0) :
      Exec c m (.decWaiting a z nz)
        { m with waiting := Function.update m.waiting a (m.waiting a - 1) } nz
  | loadLevelNull {i : ℕ} {null : π} {found : Addr → π} (h : m.tagLevel i = none) :
      Exec c m (.loadLevel i null found) m null
  | loadLevel {i : ℕ} {a : Addr} {null : π} {found : Addr → π} (h : m.tagLevel i = some a) :
      Exec c m (.loadLevel i null found) m (found a)
  | storeLevel {i : ℕ} {a : Addr} {p : π} :
      Exec c m (.storeLevel i a p)
        { m with tagLevel := Function.update m.tagLevel i (some a) } p
  | loadSize {a : Addr} {p : ℕ → π} : Exec c m (.loadSize a p) m (p (m.size a))
  | storeSize {a : Addr} {n : ℕ} {p : π} :
      Exec c m (.storeSize a n p) { m with size := Function.update m.size a n } p
  | loadEpoch {a : Addr} {p : ℤ → π} : Exec c m (.loadEpoch a p) m (p (m.epoch a))
  | cmpEpochNewer {b a : Addr} {newer older : π} (h : m.epoch a < m.epoch b) :
      Exec c m (.cmpEpoch b a newer older) m newer
  | cmpEpochOlder {b a : Addr} {newer older : π} (h : ¬ m.epoch a < m.epoch b) :
      Exec c m (.cmpEpoch b a newer older) m older
  | createLevel {i : ℕ} {e : ℤ} {failed : π} {ok : Addr → π} :
      Exec c m (.createLevel i e failed ok) (m.createLevel i e) (ok m.brk)
  | createLevelFailed {i : ℕ} {e : ℤ} {failed : π} {ok : Addr → π} :
      Exec c m (.createLevel i e failed ok) m failed
  | freeLevel {a : Addr} {p : π} :
      Exec c m (.freeLevel a p) { m with freed := Function.update m.freed a (m.freed a + 1) } p
  | copyFromUser {a : Addr} {data : List UInt8} {n : ℕ} {ok fault : π} (h : n ≤ data.length) :
      Exec c m (.copyFromUser a data n ok fault)
        { m with buffer := Function.update m.buffer a (overwrite (m.buffer a) (data.take n)) } ok
  | copyFromUserFault {a : Addr} {data : List UInt8} {n k : ℕ} {ok fault : π} (h : k < n) :
      Exec c m (.copyFromUser a data n ok fault)
        { m with
          buffer := Function.update m.buffer a
            (overwrite (m.buffer a) (data.take k ++ List.replicate (n - k) 0)) } fault
  | copyToUser {a : Addr} {n : ℕ} {ok fault : List UInt8 → π} :
      Exec c m (.copyToUser a n ok fault) m (ok ((m.buffer a).take n))
  | copyToUserFault {a : Addr} {n k : ℕ} {ok fault : List UInt8 → π} (h : k < n) :
      Exec c m (.copyToUser a n ok fault) m (fault ((m.buffer a).take k))
  | memset {a : Addr} {n : ℕ} {p : π} :
      Exec c m (.memset a n p)
        { m with
          buffer := Function.update m.buffer a (overwrite (m.buffer a) (List.replicate n 0)) } p
  | prepareWait {a : Addr} {queued pending : π} :
      Exec c m (.prepareWait a queued pending)
        { m with localWq := Function.update m.localWq a (insert c (m.localWq a)) } queued
  | prepareWaitPending {a : Addr} {queued pending : π} :
      Exec c m (.prepareWait a queued pending)
        { m with localWq := Function.update m.localWq a ((m.localWq a).erase c) } pending
  | schedule {a : Addr} {p : π} : Exec c m (.schedule a p) m p
  | finishWait {a : Addr} {p : π} :
      Exec c m (.finishWait a p)
        { m with localWq := Function.update m.localWq a ((m.localWq a).erase c) } p
  | wakeUpAll {a : Addr} {p : π} :
      Exec c m (.wakeUpAll a p) { m with localWq := Function.update m.localWq a ∅ } p

/-- Whatever `exec` does is one of the ways `Exec` lists.  Every proof about what a step does to the
memory begins here, so that none of them has to look at `exec` again. -/
theorem Exec.of_exec {c : CallId} {m m' : Mem} {i : Instr π} {o : Outcome} {p : π}
    (h : exec c m i o = some (m', p)) : Exec c m i m' p := by
  cases i <;> cases o <;>
    simp only [exec, Option.map_eq_some_iff, Option.some.injEq, Prod.mk.injEq,
      reduceCtorEq] at h
  case jump.go => obtain ⟨rfl, rfl⟩ := h; exact .jump
  case downRead.go => obtain ⟨s, hs, rfl, rfl⟩ := h; exact .downRead hs
  case downRead.signal =>
    split at h
    · rename_i hw; cases h; exact .downReadIntr hw
    · cases h
  case upRead.go => obtain ⟨rfl, rfl⟩ := h; exact .upRead
  case downWrite.go => obtain ⟨s, hs, rfl, rfl⟩ := h; exact .downWrite hs
  case downWrite.signal =>
    split at h
    · rename_i hw; cases h; exact .downWriteIntr hw
    · cases h
  case tryWrite.go =>
    split at h
    · rename_i hs; cases h; exact .tryWrite hs
    · rename_i hs; cases h; exact .tryWriteBusy hs
  case upWrite.go => obtain ⟨rfl, rfl⟩ := h; exact .upWrite
  case tryMutex.go =>
    split at h
    · rename_i hs; cases h; exact .tryMutex hs
    · rename_i hs; cases h; exact .tryMutexBusy hs
  case unlockMutex.go => obtain ⟨rfl, rfl⟩ := h; exact .unlockMutex
  case loadTags.go =>
    obtain ⟨rfl, rfl⟩ := h
    split
    · rename_i ht; exact .loadTags ht
    · rename_i ht; exact .loadTagsNull (by simpa using ht)
  case checkPerm.go =>
    obtain ⟨rfl, rfl⟩ := h
    split
    · rename_i ht; exact .checkPermRefused ht
    · rename_i ht; exact .checkPerm (by simpa using ht)
  case loadTagReady.go =>
    obtain ⟨rfl, rfl⟩ := h
    split
    · rename_i ht; exact .loadTagReadySet ht
    · rename_i ht; exact .loadTagReadyClear (by simpa using ht)
  case storeTagReady.go => obtain ⟨rfl, rfl⟩ := h; exact .storeTagReady
  case loadReady.go =>
    obtain ⟨rfl, rfl⟩ := h
    split
    · rename_i ht; exact .loadReadySet ht
    · rename_i ht; exact .loadReadyClear (by simpa using ht)
  case storeReady.go => obtain ⟨rfl, rfl⟩ := h; exact .storeReady
  case readTagWaiting.go => obtain ⟨rfl, rfl⟩ := h; exact .readTagWaiting
  case incTagWaiting.go => obtain ⟨rfl, rfl⟩ := h; exact .incTagWaiting
  case decTagWaiting.go =>
    obtain ⟨rfl, rfl⟩ := h
    split
    · rename_i ht; exact .decTagWaitingZero ht
    · rename_i ht; exact .decTagWaiting ht
  case readWaiting.go => obtain ⟨rfl, rfl⟩ := h; exact .readWaiting
  case incWaiting.go => obtain ⟨rfl, rfl⟩ := h; exact .incWaiting
  case decWaiting.go =>
    obtain ⟨rfl, rfl⟩ := h
    split
    · rename_i ht; exact .decWaitingZero ht
    · rename_i ht; exact .decWaiting ht
  case loadLevel.go =>
    split at h
    · rename_i hl; cases h; exact .loadLevelNull hl
    · rename_i hl; cases h; exact .loadLevel hl
  case storeLevel.go => obtain ⟨rfl, rfl⟩ := h; exact .storeLevel
  case loadSize.go => obtain ⟨rfl, rfl⟩ := h; exact .loadSize
  case storeSize.go => obtain ⟨rfl, rfl⟩ := h; exact .storeSize
  case loadEpoch.go => obtain ⟨rfl, rfl⟩ := h; exact .loadEpoch
  case cmpEpoch.go =>
    obtain ⟨rfl, rfl⟩ := h
    split
    · rename_i he; exact .cmpEpochNewer he
    · rename_i he; exact .cmpEpochOlder he
  case createLevel.go => obtain ⟨rfl, rfl⟩ := h; exact .createLevel
  case createLevel.nomem => obtain ⟨rfl, rfl⟩ := h; exact .createLevelFailed
  case freeLevel.go => obtain ⟨rfl, rfl⟩ := h; exact .freeLevel
  case copyFromUser.go =>
    split at h
    · rename_i hn; cases h; exact .copyFromUser hn
    · cases h
  case copyFromUser.fault =>
    split at h
    · rename_i hk; cases h; exact .copyFromUserFault hk.1
    · cases h
  case copyToUser.go => obtain ⟨rfl, rfl⟩ := h; exact .copyToUser
  case copyToUser.fault =>
    split at h
    · rename_i hk; cases h; exact .copyToUserFault hk
    · cases h
  case memset.go => obtain ⟨rfl, rfl⟩ := h; exact .memset
  case prepareWait.go => obtain ⟨rfl, rfl⟩ := h; exact .prepareWait
  case prepareWait.signal => obtain ⟨rfl, rfl⟩ := h; exact .prepareWaitPending
  case schedule.go =>
    split at h
    · cases h
    · cases h; exact .schedule
  case schedule.signal => obtain ⟨rfl, rfl⟩ := h; exact .schedule
  case finishWait.go => obtain ⟨rfl, rfl⟩ := h; exact .finishWait
  case wakeUpAll.go => obtain ⟨rfl, rfl⟩ := h; exact .wakeUpAll

/-- What the instruction copies from the user can be read. -/
def Instr.Readable : Instr π → Prop
  | .copyFromUser _ data n _ _ => n ≤ data.length
  | _ => True

/-- What `Exec` lists, `exec` does for some outcome. -/
theorem Exec.exec {c : CallId} {m m' : Mem} {i : Instr π} {p : π} (h : Exec c m i m' p)
    (hi : i.Readable) : ∃ o, TagAos.exec c m i o = some (m', p) := by
  cases h
  case downReadIntr h => exact ⟨.signal, if_pos h⟩
  case downWriteIntr h => exact ⟨.signal, if_pos h⟩
  case createLevelFailed => exact ⟨.nomem, rfl⟩
  case copyFromUserFault k ok h => exact ⟨.fault k, if_pos ⟨h, h.le.trans hi⟩⟩
  case copyToUserFault k ok fault h => exact ⟨.fault k, if_pos h⟩
  case prepareWaitPending => exact ⟨.signal, rfl⟩
  case schedule => exact ⟨.signal, rfl⟩
  all_goals exact ⟨.go, by simp [TagAos.exec, *]⟩

/-! ## What an instruction changes

Each field is assigned by one or two instructions.  Who may assign it is then read off the code of a
call, without looking at what the other instructions do. -/

section Changes

variable {c : CallId} {m m' : Mem} {i : Instr π} {p : π} {x : Addr}

/-- `tag_entry->ready` is set by its own store only. -/
theorem Exec.tagReady (h : Exec c m i m' p) (hr : m'.tagReady = true) :
    m.tagReady = true ∨ i = .storeTagReady true p := by
  cases h
  case storeTagReady v =>
    obtain rfl : v = true := hr
    exact .inr rfl
  all_goals exact .inl hr

/-- `ready` of an instance is set by its own store only.  An instance that has just been created is
not ready. -/
theorem Exec.ready (h : Exec c m i m' p) (hr : m'.ready x = true) :
    m.ready x = true ∨ i = .storeReady x true p := by
  cases h
  case storeReady a v =>
    by_cases hxa : x = a
    · subst hxa
      obtain rfl : v = true := (Function.update_self ..).symm.trans hr
      exact .inr rfl
    · exact .inl ((Function.update_of_ne hxa ..).symm.trans hr)
  case createLevel =>
    by_cases hxb : x = m.brk
    · subst hxb
      simp [Mem.createLevel] at hr
    · exact .inl ((Function.update_of_ne hxb ..).symm.trans hr)
  all_goals exact .inl hr

/-- A message has a size only after the store of one. -/
theorem Exec.size (h : Exec c m i m' p) (hs : m'.size x ≠ 0) :
    m.size x ≠ 0 ∨ ∃ n, n ≠ 0 ∧ i = .storeSize x n p := by
  cases h
  case storeSize a n =>
    by_cases hxa : x = a
    · subst hxa
      exact .inr ⟨n, fun hn => hs ((Function.update_self ..).trans hn), rfl⟩
    · exact .inl fun h0 => hs ((Function.update_of_ne hxa ..).trans h0)
  case createLevel =>
    by_cases hxb : x = m.brk
    · subst hxb
      simp [Mem.createLevel] at hs
    · exact .inl fun h0 => hs ((Function.update_of_ne hxb ..).trans h0)
  all_goals exact .inl hs

/-- An instance is freed by `free_level` only. -/
theorem Exec.freed (h : Exec c m i m' p) :
    m'.freed = m.freed ∨ ∃ a, i = .freeLevel a p ∧
      m'.freed = Function.update m.freed a (m.freed a + 1) := by
  cases h
  case freeLevel a => exact .inr ⟨a, rfl, rfl⟩
  all_goals exact .inl rfl

end Changes

/-- Where an instruction may go on. -/
def Instr.Next (q : π) : Instr π → Prop
  | .jump p | .upRead _ p | .upWrite _ p | .unlockMutex _ p | .storeTagReady _ p
  | .storeReady _ _ p | .incTagWaiting p | .incWaiting _ p | .storeLevel _ _ p
  | .storeSize _ _ p | .freeLevel _ p | .memset _ _ p | .schedule _ p | .finishWait _ p
  | .wakeUpAll _ p => q = p
  | .downRead _ p p' | .downWrite _ p p' | .tryWrite _ p p' | .tryMutex _ p p' | .loadTags p p'
  | .checkPerm _ p p' | .loadTagReady p p' | .loadReady _ p p' | .decTagWaiting p p'
  | .decWaiting _ p p' | .cmpEpoch _ _ p p' | .copyFromUser _ _ _ p p'
  | .prepareWait _ p p' => q = p ∨ q = p'
  | .readTagWaiting p | .readWaiting _ p | .loadEpoch _ p => ∃ n, q = p n
  | .loadSize _ p => ∃ n, q = p n
  | .loadLevel _ p p' | .createLevel _ _ p p' => q = p ∨ ∃ a, q = p' a
  | .copyToUser _ _ p p' => ∃ bs, q = p bs ∨ q = p' bs
  | .ret => False

/-- An instruction goes on at one of the points that its code names. -/
theorem Exec.next {c : CallId} {m m' : Mem} {i : Instr π} {q : π} (h : Exec c m i m' q) :
    i.Next q := by
  cases h <;> first
    | rfl
    | exact .inl rfl
    | exact .inr rfl
    | exact ⟨_, rfl⟩
    | exact .inr ⟨_, rfl⟩
    | exact ⟨_, .inl rfl⟩
    | exact ⟨_, .inr rfl⟩

end TagAos
