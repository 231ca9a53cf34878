import TagAos.Syscall.ScanReads

/-!
# What the search finds

`TagAos.Syscall.Discovery` says that the words at the free entries of the table that is found hold
one address.  Here is the whole of it: `find_syscall_table` stops at the lowest address that looks
like the table (`IsTable`), and leaves the table unknown if there is none; it gets there unless a
scan before reads a word that is not mapped (`findSyscallTable_eq_some_iff`).

The scan of a page ends early, when the last entry would be on a page that is not mapped.  The last
entry of every later place of the page would be there too, so nothing is missed
(`tablePattern_lowest`).
-/

set_option autoImplicit false

namespace TagAos.Syscall

open Bytes

variable {p : Paging} {m : Memory} {t : Table} {offs : ℕ}

/-! ## The lowest place

What a search for the first of something says about the places before. -/

/-- The lowest table from `lo` on that satisfies `q`, if there is one below `hi`. -/
def Lowest (q : Table → Prop) (lo hi : ℕ) : Option Table → Prop
  | none => ∀ t, q t → lo ≤ t.addr → hi ≤ t.addr
  | some t => q t ∧ lo ≤ t.addr ∧ t.addr < hi ∧ ∀ t', q t' → lo ≤ t'.addr → t.addr ≤ t'.addr

section Lowest

variable {q : Table → Prop} {lo mid hi : ℕ} {r : Option Table}

theorem Lowest.below (h : Lowest q mid hi r) (hle : lo ≤ mid) (hno : Lowest q lo mid none) :
    Lowest q lo hi r := by
  cases r with
  | none => exact fun t ht hlo => h t ht (hno t ht hlo)
  | some t =>
    obtain ⟨ht, hmid, hhi, hlow⟩ := h
    exact ⟨ht, hle.trans hmid, hhi, fun t' ht' hlo => hlow t' ht' (hno t' ht' hlo)⟩

end Lowest

/-! ## One page

The scan of a page from any place on, by induction on the places that are left. -/

/-- The scan gets to the place, and its tests succeed there. -/
def Candidate (p : Paging) (m : Memory) (t : Table) : Prop := Pattern p m t ∧ ¬ Guarded p t.addr

theorem lowest_succ_none {q : Table → Prop} (h : ∀ t, q t → t.addr ≠ offs) :
    Lowest q offs (offs + 1) none :=
  fun t ht hle => Nat.lt_of_le_of_ne hle (h t ht).symm

section Page

variable {addr : ℕ} (haddr : addr % 4096 = 0) (hend : addr < endAddr)

include haddr hend in
/-- **The scan of a page finds its lowest candidate.** -/
theorem tablePattern_lowest {n j : ℕ} {r : Option Table} (hn : j + n = 4096)
    (h : tablePattern p m n (addr + j) = some r) :
    Lowest (Candidate p m) (addr + j) (addr + 4096) r := by
  induction n generalizing j with
  | zero =>
    cases h
    exact fun t _ hle => by omega
  | succ n ih =>
    rw [tablePattern] at h
    have hj : j < 4096 := by omega
    by_cases hguard : Guarded p (addr + j)
    · -- the last entry of every later place is on the same page
      rw [if_pos (show _ ∧ _ from hguard)] at h
      cases h
      intro t ht hle
      by_contra hlt
      obtain ⟨k, hk⟩ := Nat.exists_eq_add_of_le (show addr ≤ t.addr by omega)
      have hguard' := (guarded_iff haddr hend hj).1 hguard
      refine ht.2 ?_
      rw [hk]
      exact (guarded_iff haddr hend (by omega)).2 ⟨by omega, hguard'.2⟩
    · rw [if_neg (show ¬ (_ ∧ _) from hguard)] at h
      split at h
      · cases h
      · rename_i t hat
        cases h
        obtain ⟨heq, hpat⟩ := patternAt_eq_some_iff.1 hat
        refine ⟨⟨hpat, heq ▸ hguard⟩, heq.ge, by omega, fun t' _ hle => heq.trans_le hle⟩
      · rename_i hat
        refine (ih (j := j + 1) (by omega) h).below (by omega) (lowest_succ_none fun t ht heq => ?_)
        have hbad := patternAt_eq_some_iff.2 ⟨heq, ht.1⟩
        rw [hat] at hbad
        cases hbad

end Page

/-! ## All pages

The pages that are not mapped are passed over; a table may begin on one page and end on the next. -/

/-- **A place that looks like the system call table.**  The page it begins on and the page its last
entry begins on are reported as mapped. -/
structure IsTable (p : Paging) (m : Memory) (t : Table) : Prop extends Pattern p m t where
  range : startAddr ≤ t.addr ∧ t.addr < endAddr
  page : getPhysFrame p t.addr ≠ noFrame
  last : getPhysFrame p (word t.addr niLast) ≠ noFrame

theorem IsTable.candidate (h : IsTable p m t) : Candidate p m t :=
  ⟨h.toPattern, fun hguard => h.last hguard.2⟩

theorem Candidate.isTable {addr : ℕ} (haddr : addr % 4096 = 0) (hstart : startAddr ≤ addr)
    (hend : addr < endAddr) (hmapped : getPhysFrame p addr ≠ noFrame) (h : Candidate p m t)
    (hle : addr ≤ t.addr) (hlt : t.addr < addr + 4096) : IsTable p m t := by
  obtain ⟨j, hj⟩ := Nat.exists_eq_add_of_le hle
  have hword : word t.addr niLast = addr + j + 1888 := by rw [hj]; rfl
  refine ⟨h.1, ⟨hstart.trans hle, ?_⟩, ?_, ?_⟩
  · have hround : endAddr % 4096 = 0 := rfl
    omega
  · rwa [getPhysFrame_congr (y := addr) (by omega)]
  · by_cases hlate : 2208 ≤ j
    · intro hnone
      refine h.2 ?_
      rw [hj, guarded_iff haddr hend (by omega)]
      exact ⟨hlate, (getPhysFrame_congr (by omega)).trans hnone⟩
    · rwa [getPhysFrame_congr (y := addr) (by omega)]

/-- How the search from `page` on ends. -/
inductive Search (p : Paging) (m : Memory) (page : ℕ) : Option Table → Prop
  /-- The scan of a page faults, and there is no table before it. -/
  | fault {bad : ℕ} (haddr : bad % 4096 = 0) (hle : page ≤ bad) (hend : bad < endAddr)
      (hmapped : getPhysFrame p bad ≠ noFrame) (hfault : tablePattern p m pageSize bad = none)
      (hno : Lowest (IsTable p m) page bad none) : Search p m page none
  | unknown (hno : Lowest (IsTable p m) page endAddr none)
      (hscan : ∀ x, x % 4096 = 0 → page ≤ x → x < endAddr → getPhysFrame p x ≠ noFrame →
        (tablePattern p m pageSize x).isSome) : Search p m page (some .unknown)
  | found {t : Table} (hlow : Lowest (IsTable p m) page endAddr (some t))
      (hscan : ∀ x, x % 4096 = 0 → page ≤ x → x ≤ t.addr → getPhysFrame p x ≠ noFrame →
        (tablePattern p m pageSize x).isSome) : Search p m page (some t)

/-- A page without a table. -/
theorem Search.step {page : ℕ} {r : Option Table} (haddr : page % 4096 = 0)
    (h : Search p m (page + 4096) r) (hno : Lowest (IsTable p m) page (page + 4096) none)
    (hscan : getPhysFrame p page ≠ noFrame → (tablePattern p m pageSize page).isSome) :
    Search p m page r := by
  have hle : page ≤ page + 4096 := Nat.le_add_right _ _
  have hnext : ∀ x, x % 4096 = 0 → page ≤ x → x ≠ page → page + 4096 ≤ x := by omega
  cases h with
  | fault hbad hle' hend hmapped hfault hno' =>
    exact .fault hbad (hle.trans hle') hend hmapped hfault (hno'.below hle hno)
  | unknown hno' hscan' =>
    refine .unknown (hno'.below hle hno) fun x hx hlex hend hmapped => ?_
    by_cases hxp : x = page
    · subst hxp
      exact hscan hmapped
    · exact hscan' x hx (hnext x hx hlex hxp) hend hmapped
  | found hlow hscan' =>
    refine .found (hlow.below hle hno) fun x hx hlex hend hmapped => ?_
    by_cases hxp : x = page
    · subst hxp
      exact hscan hmapped
    · exact hscan' x hx (hnext x hx hlex hxp) hend hmapped

theorem findTable_search {n page : ℕ} (haddr : page % 4096 = 0) (hstart : startAddr ≤ page)
    (hn : page + 4096 * n = endAddr) : Search p m page (findTable p m n page) := by
  induction n generalizing page with
  | zero =>
    refine .unknown (fun t ht _ => ?_) fun x _ hle hend => ?_
    · omega
    · omega
  | succ n ih =>
    have hend : page < endAddr := by omega
    have hrest : Search p m (page + 4096) (findTable p m n (page + pageSize)) :=
      ih (by omega) (by omega) (by omega)
    rw [findTable]
    split_ifs with hmapped
    · have hscan : ∀ r, tablePattern p m pageSize page = some r →
          Lowest (Candidate p m) page (page + 4096) r := fun r hr =>
        tablePattern_lowest (j := 0) haddr hend rfl hr
      split
      · rename_i hpat
        exact .fault haddr le_rfl hend hmapped hpat fun t _ hle => hle
      · rename_i t hpat
        obtain ⟨ht, hle, hlt, hlow⟩ := hscan _ hpat
        refine .found ⟨ht.isTable haddr hstart hend hmapped hle hlt, hle, by omega,
          fun t' ht' hle' => hlow t' ht'.candidate hle'⟩ fun x hx hle' hle'' _ => ?_
        rw [show x = page by omega, hpat]
        rfl
      · rename_i hpat
        refine hrest.step haddr (fun t ht hle => hscan _ hpat t ht.candidate hle) fun _ => ?_
        rw [hpat]
        rfl
    · refine hrest.step haddr (fun t ht hle => ?_) fun h => absurd h hmapped
      by_contra hlt
      refine ht.page ((getPhysFrame_congr ?_).trans (not_not.1 hmapped))
      omega

/-- The scan of the page, if it is reported as mapped, reads words that are mapped. -/
def Readable (p : Paging) (m : Memory) (page : ℕ) : Prop :=
  getPhysFrame p page ≠ noFrame → ∀ a ∈ tableReads p m pageSize page, Mapped (translate p) a

/-- **What `find_syscall_table` finds.**  It stops at the lowest place that looks like the system
call table, and leaves the table unknown if there is none, if and only if no scan up to there reads
a word that is not mapped. -/
theorem findSyscallTable_eq_some_iff (p : Paging) (m : Memory) (t : Table) :
    findSyscallTable p m = some t ↔
      ((IsTable p m t ∧ ∀ t', IsTable p m t' → t.addr ≤ t'.addr) ∧
          ∀ page, page % pageSize = 0 → startAddr ≤ page → page ≤ t.addr → Readable p m page) ∨
        (t = .unknown ∧ ∀ t', ¬ IsTable p m t') ∧
          ∀ page, page % pageSize = 0 → startAddr ≤ page → page < endAddr → Readable p m page := by
  have hsearch : Search p m startAddr (findSyscallTable p m) :=
    findTable_search rfl le_rfl (by decide)
  have hread : ∀ page, Readable p m page ↔
      (getPhysFrame p page ≠ noFrame → (tablePattern p m pageSize page).isSome) := fun page => by
    rw [Readable, tablePattern_isSome_iff]
  simp only [hread]
  constructor
  · intro h
    rw [h] at hsearch
    cases hsearch with
    | unknown hno hscan =>
      refine .inr ⟨⟨rfl, fun t' ht' => ?_⟩, hscan⟩
      exact absurd (hno t' ht' ht'.range.1) (not_le.2 ht'.range.2)
    | found hlow hscan =>
      exact .inl ⟨⟨hlow.1, fun t' ht' => hlow.2.2.2 t' ht' ht'.range.1⟩, hscan⟩
  · intro h
    generalize findSyscallTable p m = r at hsearch
    rcases h with ⟨⟨ht, hlow⟩, hscan⟩ | ⟨⟨rfl, hno⟩, hscan⟩ <;> cases hsearch with
    | fault hbad hle hend hmapped hfault hnone => ?_
    | unknown hnone _ => ?_
    | found hlow' _ => ?_
    · have := hscan _ hbad hle (hnone t ht ht.range.1) hmapped
      rw [hfault] at this
      cases this
    · exact absurd (hnone t ht ht.range.1) (not_le.2 ht.range.2)
    · rename_i t' _
      have haddr := le_antisymm (hlow t' hlow'.1) (hlow'.2.2.2 t ht ht.range.1)
      rw [ht.toPattern.ext hlow'.1.toPattern haddr]
    · have := hscan _ hbad hle hend hmapped
      rw [hfault] at this
      cases this
    · rfl
    · exact absurd hlow'.1 (hno _)

end TagAos.Syscall
