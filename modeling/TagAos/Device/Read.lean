import TagAos.Device.Text
import TagAos.Registry.Calls

/-!
# Reading the device

`dev_read` does not build the text before the offset.  It skips a whole tag by taking `TAG_SIZE`
off the offset that is left, and it emits the header whether or not anything was skipped.

* `devRead` — the function, on a table of tags that does not change, when locks and allocations
  succeed.
* `listing` — the whole text.
* `readLive_skips`, `readLive_emits` — which tags are skipped, and that what is emitted is the
  beginning of the text of the others.
* `devRead_copied` — the window of it that is copied.
-/

set_option autoImplicit false

namespace TagAos.Device

open Registry (maxTags)

/-! ## `dev_read`

The function on a table that does not change.  Where it takes its locks is the subject of
`TagAos.Service.DevRead`. -/

/-- The tags, by descriptor. -/
abbrev Table := ℕ → Option Tag

/-- The value of `size + relative_off`, which is unsigned and has 64 bits. -/
def sumSize (size relativeOff : ℕ) : ℕ := (size + relativeOff) % 2 ^ 64

/-- The loop over the levels `js` of a tag.  An error is the exit taken when enough has been read.
-/
def readLevels (tag : Tag) (size relativeOff : ℕ) : List ℕ → Reading → Except Reading Reading
  | [], r => .ok r
  | j :: js, r =>
    let r := r.append (tag.row j)
    if sumSize size relativeOff < r.nbytes then .error r else readLevels tag size relativeOff js r

/-- The loop over the descriptors `is`: the text, and the offset that is left. -/
def readTags (t : Table) (size : ℕ) : List ℕ → ℕ → Reading → Reading × ℕ
  | [], relativeOff, r => (r, relativeOff)
  | i :: is, relativeOff, r =>
    match t i with
    | none => readTags t size is relativeOff r
    | some tag =>
      if tagSize < relativeOff then readTags t size is (relativeOff - tagSize) r
      else
        match readLevels tag size relativeOff (List.range levels) r with
        | .error r => (r, relativeOff)
        | .ok r => readTags t size is relativeOff (r.append divider)

/-- What a `dev_read` copies to the user, what it returns, and the offset it leaves. -/
structure Outcome where
  copied : List Char
  ret : ℤ
  off : ℤ

/-- `dev_read`.  `buf` says that the user's buffer is not null. -/
def devRead (t : Table) (buf : Bool) (size : ℕ) (off : ℤ) : Outcome :=
  if size = 0 then ⟨[], 0, off⟩
  else if buf = false ∨ off < 0 then ⟨[], -1, off⟩
  else
    let r := readTags t size (List.range maxTags) off.toNat .start
    let totSize := r.1.buffer.length
    if totSize ≤ r.2 then ⟨[], 0, off⟩
    else
      let size := if totSize - r.2 < size then totSize - r.2 else size
      ⟨(r.1.buffer.drop r.2).take size, size, off + size⟩

/-! ## The listing

What a reader would expect to read: the text of all the live tags, in one piece.  It does not occur
in the code. -/

/-- The live tags in the order of their descriptors. -/
def live (t : Table) : List Tag := (List.range maxTags).filterMap t

/-- The text of several tags. -/
def textOf (ts : List Tag) : List Char := ts.flatMap Tag.text

/-- The whole text: the header, a divider, and the text of each live tag. -/
def listing (t : Table) : List Char := header ++ divider ++ textOf (live t)

/-! ## What the loops do

Descriptors without a tag add nothing, so the loop may be read as one over the live tags: some are
skipped, the next ones are emitted, and the last one of these perhaps in part. -/

/-- The loop over the descriptors, once those without a tag are left out. -/
def readLive (size : ℕ) : List Tag → ℕ → Reading → Reading × ℕ
  | [], relativeOff, r => (r, relativeOff)
  | tag :: ts, relativeOff, r =>
    if tagSize < relativeOff then readLive size ts (relativeOff - tagSize) r
    else
      match readLevels tag size relativeOff (List.range levels) r with
      | .error r => (r, relativeOff)
      | .ok r => readLive size ts relativeOff (r.append divider)

theorem readTags_eq (t : Table) (size : ℕ) (is : List ℕ) (relativeOff : ℕ) (r : Reading) :
    readTags t size is relativeOff r = readLive size (is.filterMap t) relativeOff r := by
  induction is generalizing relativeOff r with
  | nil => rfl
  | cons i is ih =>
    rw [readTags]
    cases hi : t i with
    | none =>
      rw [List.filterMap_cons_none hi]
      exact ih relativeOff r
    | some tag =>
      rw [List.filterMap_cons_some hi, readLive]
      dsimp only
      split_ifs
      · exact ih _ r
      · cases readLevels tag size relativeOff (List.range levels) r with
        | error r => rfl
        | ok r => exact ih _ _

/-- The lines of some levels are appended, all of them or the first of them. -/
theorem readLevels_spec (tag : Tag) (size relativeOff : ℕ) (js : List ℕ) (r : Reading) :
    match readLevels tag size relativeOff js r with
    | .ok r' => r'.buffer = r.buffer ++ js.flatMap tag.row
    | .error r' => ∃ q, q <+: js.flatMap tag.row ∧ r'.buffer = r.buffer ++ q := by
  induction js generalizing r with
  | nil => simp [readLevels]
  | cons j js ih =>
    rw [readLevels]
    split
    · rename_i r' h
      split at h
      · cases h
      · have hrest := ih (r.append (tag.row j))
        rw [h] at hrest
        simpa [Reading.append] using hrest
    · rename_i r' h
      split at h
      · cases h
        exact ⟨tag.row j, by simp, rfl⟩
      · have hrest := ih (r.append (tag.row j))
        rw [h] at hrest
        obtain ⟨q, hq, heq⟩ := hrest
        exact ⟨tag.row j ++ q, by simpa using hq, by simp [heq, Reading.append]⟩

/-- Without the early exit the lines of all the levels are appended. -/
theorem readLevels_ok (tag : Tag) (size relativeOff : ℕ) (js : List ℕ) (r : Reading)
    (hfit : r.nbytes + (js.flatMap tag.row).length ≤ sumSize size relativeOff) :
    ∃ r', readLevels tag size relativeOff js r = .ok r' ∧
      r'.nbytes = r.nbytes + (js.flatMap tag.row).length ∧
      r'.buffer = r.buffer ++ js.flatMap tag.row := by
  induction js generalizing r with
  | nil => exact ⟨r, rfl, by simp, by simp⟩
  | cons j js ih =>
    rw [List.flatMap_cons, List.length_append, ← Nat.add_assoc] at hfit
    have hstay : ¬ sumSize size relativeOff < (r.append (tag.row j)).nbytes := by
      show ¬ sumSize size relativeOff < r.nbytes + (tag.row j).length
      omega
    obtain ⟨r', hr', hbytes, hbuffer⟩ := ih (r.append (tag.row j)) hfit
    refine ⟨r', ?_, ?_, ?_⟩
    · rw [readLevels, if_neg hstay, hr']
    · rw [hbytes, List.flatMap_cons, List.length_append, ← Nat.add_assoc]
      rfl
    · rw [hbuffer, List.flatMap_cons, ← List.append_assoc]
      rfl

/-- How many of `n` live tags are skipped. -/
def skips (n off : ℕ) : ℕ := min n ((off - 1) / tagSize)

theorem skips_le (n off : ℕ) : skips n off ≤ n := Nat.min_le_left _ _

/-- What is left of the offset is at most the size of a tag, unless every tag is skipped. -/
theorem sub_skips_le {n off : ℕ} (h : skips n off < n) : off - skips n off * tagSize ≤ tagSize := by
  have hk : skips n off = (off - 1) / tagSize := by
    rw [skips] at h ⊢
    omega
  have hlt := Nat.lt_div_mul_add (a := off - 1) (show 0 < tagSize by decide)
  rw [hk]
  omega

theorem skips_mul_le (n off : ℕ) : skips n off * tagSize ≤ off := by
  have hle : skips n off ≤ (off - 1) / tagSize := Nat.min_le_right _ _
  have hmul := Nat.mul_le_mul_right tagSize hle
  have hdiv := Nat.div_mul_le_self (off - 1) tagSize
  omega

/-- **What is skipped.**  As many tags as have `TAG_SIZE` characters each before the offset. -/
theorem readLive_skips (size : ℕ) (ts : List Tag) (off : ℕ) (r : Reading) :
    readLive size ts off r =
      readLive size (ts.drop (skips ts.length off)) (off - skips ts.length off * tagSize) r := by
  induction ts generalizing off with
  | nil => simp [skips]
  | cons tag ts ih =>
    by_cases h : tagSize < off
    · have hskips : skips (tag :: ts).length off = skips ts.length (off - tagSize) + 1 := by
        have hdiv : (off - 1) / tagSize = (off - tagSize - 1) / tagSize + 1 := by
          rw [show off - 1 = off - tagSize - 1 + tagSize by omega,
            Nat.add_div_right _ (by decide)]
        rw [skips, skips, hdiv, List.length_cons, Nat.add_min_add_right]
      rw [readLive, if_pos h, hskips, List.drop_succ_cons, ih (off - tagSize), Nat.succ_mul,
        Nat.sub_sub, Nat.add_comm tagSize]
    · have hskips : skips (tag :: ts).length off = 0 := by
        have hpos : 0 < tagSize := by decide
        rw [skips, Nat.div_eq_of_lt (by omega), Nat.min_zero]
      rw [hskips, List.drop_zero, Nat.zero_mul, Nat.sub_zero]

/-- **What is emitted.**  The beginning of the text of the tags that are not skipped, and the
whole of it when it does not reach the size and the offset that is left. -/
theorem readLive_emits (size : ℕ) (ts : List Tag) {relativeOff : ℕ}
    (h : ts = [] ∨ relativeOff ≤ tagSize) (r : Reading) :
    ∃ q, q <+: textOf ts ∧ (readLive size ts relativeOff r).2 = relativeOff ∧
      (readLive size ts relativeOff r).1.buffer = r.buffer ++ q ∧
      (r.nbytes + (textOf ts).length ≤ sumSize size relativeOff → q = textOf ts) := by
  induction ts generalizing r with
  | nil => exact ⟨[], by simp, rfl, by simp [readLive], by simp [textOf]⟩
  | cons tag ts ih =>
    have hle : relativeOff ≤ tagSize := h.resolve_left (List.cons_ne_nil _ _)
    have htext : textOf (tag :: ts) = tag.rows ++ (divider ++ textOf ts) := by
      simp [textOf, Tag.text]
    have hspec := readLevels_spec tag size relativeOff (List.range levels) r
    have hok := readLevels_ok tag size relativeOff (List.range levels) r
    rw [readLive, if_neg (not_lt.2 hle), htext]
    cases hlevels : readLevels tag size relativeOff (List.range levels) r with
    | error r' =>
      rw [hlevels] at hspec
      obtain ⟨q, hq, heq⟩ := hspec
      refine ⟨q, hq.trans (List.prefix_append _ _), rfl, heq, fun hfit => ?_⟩
      rw [List.length_append, ← Nat.add_assoc] at hfit
      obtain ⟨r'', hr'', -⟩ := hok (Nat.le_of_add_right_le hfit)
      rw [hlevels] at hr''
      cases hr''
    | ok r' =>
      rw [hlevels] at hspec
      obtain ⟨q, hq, hoff, heq, hall⟩ := ih (.inr hle) (r'.append divider)
      refine ⟨tag.rows ++ (divider ++ q), ?_, hoff, heq.trans ?_, fun hfit => ?_⟩
      · exact (List.prefix_append_right_inj _).2 ((List.prefix_append_right_inj _).2 hq)
      · show r'.buffer ++ divider ++ q = _
        rw [hspec, Tag.rows, List.append_assoc, List.append_assoc]
      · rw [List.length_append, List.length_append, ← Nat.add_assoc, ← Nat.add_assoc] at hfit
        obtain ⟨r'', hr'', hbytes, -⟩ := hok (by rw [Tag.rows] at hfit; omega)
        rw [hlevels] at hr''
        cases hr''
        rw [hall]
        show r'.nbytes + divider.length + (textOf ts).length ≤ _
        rw [hbytes, ← Tag.rows]
        exact hfit

/-! ## What is copied

The result as a window of a text that is known in closed form. -/

/-- The offset that is left when the live tags before it are skipped. -/
def leftOff (t : Table) (off : ℕ) : ℕ := off - skips (live t).length off * tagSize

/-- The live tags that are skipped. -/
def skipped (t : Table) (off : ℕ) : List Tag := (live t).take (skips (live t).length off)

/-- The live tags that are not skipped. -/
def unskipped (t : Table) (off : ℕ) : List Tag := (live t).drop (skips (live t).length off)

/-- **What is copied.**  A window of the header, a divider, and text of the tags that are not
skipped, at the offset that is left. -/
theorem devRead_copied (t : Table) {size : ℕ} (hsize : 1 ≤ size) {off : ℤ} (hoff : 0 ≤ off) :
    ∃ q, q <+: textOf (unskipped t off.toNat) ∧
      (devRead t true size off).copied =
        ((header ++ divider ++ q).drop (leftOff t off.toNat)).take size ∧
      ((textOf (unskipped t off.toNat)).length ≤ sumSize size (leftOff t off.toNat) →
        q = textOf (unskipped t off.toNat)) := by
  have hleft : unskipped t off.toNat = [] ∨ leftOff t off.toNat ≤ tagSize := by
    rcases Nat.lt_or_ge (skips (live t).length off.toNat) (live t).length with h | h
    · exact .inr (sub_skips_le h)
    · exact .inl (List.drop_of_length_le h)
  obtain ⟨q, hq, hrel, hbuffer, hall⟩ := readLive_emits size _ hleft .start
  have hread : readTags t size (List.range maxTags) off.toNat .start =
      readLive size (unskipped t off.toNat) (leftOff t off.toNat) .start := by
    rw [readTags_eq, ← live, readLive_skips]
    rfl
  refine ⟨q, hq, ?_, fun hfit => hall (by rwa [Reading.start, Nat.zero_add])⟩
  rw [devRead, if_neg (by omega), if_neg (by simpa using hoff)]
  dsimp only
  rw [hread, hrel, hbuffer]
  have hstart : Reading.start.buffer ++ q = header ++ divider ++ q := rfl
  rw [hstart]
  split_ifs with htot hlarge
  · rw [List.drop_of_length_le htot, List.take_nil]
  · have hlen : ((header ++ divider ++ q).drop (leftOff t off.toNat)).length =
        (header ++ divider ++ q).length - leftOff t off.toNat := List.length_drop
    show List.take _ _ = _
    rw [List.take_of_length_le hlen.le, List.take_of_length_le (hlen.le.trans hlarge.le)]
  · rfl

end TagAos.Device
