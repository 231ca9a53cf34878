import Mathlib.Algebra.BigOperators.Group.Finset.Basic
import Mathlib.Data.Nat.Find
import TagAos.Device.Offset

/-!
# Reading the device to its end

What a `dev_read` returns is computed from a buffer that leaves out the skipped tags and may have
been cut short.  When every line has `LINE_SIZE + 1` characters it is still what is left of the
whole listing, as much as fits in the size.

* `readTags_text` — the buffer and the offset that is left, after the loop.
* `devRead_progress` — the result and the new offset.
* `sequential_reads` — reads one after the other return the whole listing's length, then 0.
-/

set_option autoImplicit false

namespace TagAos.Device

/-! ## What is counted

`nbytes` counts what the loops append, and the header and the first divider are left out.  So
whatever has been counted is there, and more. -/

/-- `nbytes` counts what was appended between two readings. -/
def Counts (r r' : Reading) : Prop :=
  r'.nbytes + r.buffer.length = r.nbytes + r'.buffer.length

theorem Counts.refl (r : Reading) : Counts r r := rfl

theorem Counts.trans {r r' r'' : Reading} (h : Counts r r') (h' : Counts r' r'') :
    Counts r r'' := by
  rw [Counts] at *
  omega

theorem counts_append (r : Reading) (source : List Char) : Counts r (r.append source) := by
  show r.nbytes + source.length + r.buffer.length = r.nbytes + (r.buffer ++ source).length
  rw [List.length_append]
  omega

/-- The early exit is taken when enough was counted. -/
theorem readLevels_counts (tag : Tag) (size relativeOff : ℕ) (js : List ℕ) (r : Reading) :
    match readLevels tag size relativeOff js r with
    | .ok r' => Counts r r'
    | .error r' => Counts r r' ∧ sumSize size relativeOff < r'.nbytes := by
  induction js generalizing r with
  | nil => exact .refl r
  | cons j js ih =>
    have hrow := counts_append r (tag.row j)
    rw [readLevels]
    by_cases hexit : sumSize size relativeOff < (r.append (tag.row j)).nbytes
    · rw [if_pos hexit]
      exact ⟨hrow, hexit⟩
    · rw [if_neg hexit]
      have hrest := ih (r.append (tag.row j))
      cases hlevels : readLevels tag size relativeOff js (r.append (tag.row j)) with
      | error r' =>
        rw [hlevels] at hrest
        exact ⟨hrow.trans hrest.1, hrest.2⟩
      | ok r' =>
        rw [hlevels] at hrest
        exact hrow.trans hrest

/-- All the text is there, or enough was counted. -/
theorem readLive_counts (size : ℕ) (ts : List Tag) {relativeOff : ℕ}
    (h : ts = [] ∨ relativeOff ≤ tagSize) (r : Reading) :
    Counts r (readLive size ts relativeOff r).1 ∧
      ((readLive size ts relativeOff r).1.buffer = r.buffer ++ textOf ts ∨
        sumSize size relativeOff < (readLive size ts relativeOff r).1.nbytes) := by
  induction ts generalizing r with
  | nil => exact ⟨.refl r, .inl (by simp [readLive, textOf])⟩
  | cons tag ts ih =>
    have hle : relativeOff ≤ tagSize := h.resolve_left (List.cons_ne_nil _ _)
    have hcounts := readLevels_counts tag size relativeOff (List.range levels) r
    have hspec := readLevels_spec tag size relativeOff (List.range levels) r
    rw [readLive, if_neg (not_lt.2 hle)]
    cases hlevels : readLevels tag size relativeOff (List.range levels) r with
    | error r' =>
      rw [hlevels] at hcounts
      exact ⟨hcounts.1, .inr hcounts.2⟩
    | ok r' =>
      rw [hlevels] at hcounts hspec
      obtain ⟨hrest, hall⟩ := ih (.inr hle) (r'.append divider)
      refine ⟨(hcounts.trans (counts_append r' divider)).trans hrest, hall.imp_left fun hall => ?_⟩
      rw [hall]
      show r'.buffer ++ divider ++ textOf ts = _
      rw [hspec, textOf_cons, Tag.text, Tag.rows]
      simp

/-- Tags are left only where the offset reaches at most the size of one. -/
theorem leftOff_le (t : Table) (off : ℕ) : unskipped t off = [] ∨ leftOff t off ≤ tagSize := by
  rcases Nat.lt_or_ge (skips (live t).length off) (live t).length with h | h
  · exact .inr (sub_skips_le h)
  · exact .inl (List.drop_of_length_le h)

theorem readTags_unskipped (t : Table) (size off : ℕ) :
    readTags t size (List.range Registry.maxTags) off .start =
      readLive size (unskipped t off) (leftOff t off) .start := by
  rw [readTags_eq, ← live, readLive_skips]
  rfl

/-- **The buffer after the loop.**  The header, a divider, and the text of the tags that are not
skipped: all of it, or more than the size and the offset that is left. -/
theorem readTags_text (t : Table) (size off : ℕ) :
    ∃ q, q <+: textOf (unskipped t off) ∧
      (readTags t size (List.range Registry.maxTags) off .start).1.buffer =
        header ++ divider ++ q ∧
      (readTags t size (List.range Registry.maxTags) off .start).2 = leftOff t off ∧
      (q = textOf (unskipped t off) ∨ sumSize size (leftOff t off) < q.length) := by
  rw [readTags_unskipped]
  obtain ⟨q, hq, hrel, hbuffer, -⟩ := readLive_emits size _ (leftOff_le t off) .start
  obtain ⟨hcounts, hall⟩ := readLive_counts size _ (leftOff_le t off) .start
  refine ⟨q, hq, hbuffer, hrel, ?_⟩
  rw [Counts, hbuffer, List.length_append] at hcounts
  rw [hbuffer] at hall
  refine hall.imp (fun hall => List.append_cancel_left hall) fun hall => ?_
  have h0 : Reading.start.nbytes = 0 := rfl
  omega

/-! ## One read

With lines of one length the text that is left out has the length that is taken off the offset, so
what is in the buffer is the rest of the listing. -/

/-- Every line has the expected size. -/
def Uniform (t : Table) : Prop := ∀ tag ∈ live t, ∀ j < levels, (tag.row j).length = lineSize + 1

/-- The size of the listing. -/
def total (t : Table) : ℕ := 2 * (lineSize + 1) + (live t).length * tagSize

theorem wides_of_uniform {t : Table} (h : Uniform t) {ts : List Tag} (hts : ts ⊆ live t) :
    wides ts = 0 := by
  rw [wides, List.countP_eq_zero]
  intro tag htag hwide
  have hrow := h tag (hts htag) 0 (by decide)
  rw [tag.row_length (by decide), if_pos hwide] at hrow
  omega

/-- `total` is the length of the whole listing. -/
theorem listing_length {t : Table} (h : Uniform t) : (listing t).length = total t := by
  rw [listing, List.length_append, List.length_append, textOf_length,
    wides_of_uniform h (List.Subset.refl _), header_length, divider_length, total]
  omega

/-- What is not skipped is what is left of the listing after the offset. -/
theorem unskipped_text_length {t : Table} (h : Uniform t) (off : ℕ) :
    2 * (lineSize + 1) + (textOf (unskipped t off)).length + off = total t + leftOff t off := by
  have hlive := congrArg List.length (live_eq t off)
  have hoff := leftOff_add t off
  have hnarrow := wides_of_uniform h (List.drop_subset (skips (live t).length off) (live t))
  rw [← unskipped] at hnarrow
  rw [List.length_append] at hlive
  rw [textOf_length, hnarrow, total, hlive, Nat.add_mul]
  omega

/-- **A read makes exact progress.**  It returns what is left of the listing, as much as fits in the
size, and moves the offset by that; all that it copies is in its buffer. -/
theorem devRead_progress {t : Table} (h : Uniform t) {size : ℕ} (hsize : 1 ≤ size) {off : ℤ}
    (hoff : 0 ≤ off) (hsum : off + size < 2 ^ 63) :
    (devRead t true size off).ret =
        (if off < total t then min (size : ℤ) (total t - off) else 0) ∧
      (devRead t true size off).off = off + (devRead t true size off).ret ∧
      ((devRead t true size off).copied.length : ℤ) = (devRead t true size off).ret := by
  obtain ⟨off, rfl⟩ := Int.eq_ofNat_of_zero_le hoff
  obtain ⟨q, hq, hbuffer, hrel, hall⟩ := readTags_text t size off
  have hleft := unskipped_text_length h off
  have hle := leftOff_add t off
  have hsumSize : sumSize size (leftOff t off) = size + leftOff t off := by
    rw [sumSize, Nat.mod_eq_of_lt (by omega)]
  have htext : (header ++ divider ++ q).length = 2 * (lineSize + 1) + q.length := by
    rw [List.length_append, List.length_append, header_length, divider_length]
    omega
  have hprefix := hq.length_le
  rw [hsumSize] at hall
  -- the text ends where the listing does, or past what is asked for
  have henough : (header ++ divider ++ q).length + off = total t + leftOff t off ∨
      leftOff t off + size ≤ (header ++ divider ++ q).length ∧ off + size ≤ total t := by
    rcases hall with rfl | hall
    · exact .inl (by omega)
    · exact .inr ⟨by omega, by omega⟩
  rw [devRead, if_neg (by omega), if_neg (by simp)]
  dsimp only
  rw [Int.toNat_natCast, hrel, hbuffer]
  by_cases hend : (header ++ divider ++ q).length ≤ leftOff t off
  · have hover : ¬ (off : ℤ) < total t := by omega
    rw [if_pos hend, if_neg hover]
    exact ⟨rfl, by simp, rfl⟩
  · have hlt : (off : ℤ) < total t := by omega
    rw [if_neg hend, if_pos hlt]
    dsimp only
    split_ifs with hcut
    · have hrest : (((header ++ divider ++ q).length - leftOff t off : ℕ) : ℤ) =
          total t - off := by omega
      rw [hrest, min_eq_right (by omega)]
      refine ⟨rfl, rfl, ?_⟩
      rw [List.length_take, List.length_drop, Nat.min_self, hrest]
    · rw [min_eq_left (by omega)]
      refine ⟨rfl, rfl, ?_⟩
      rw [List.length_take, List.length_drop, Nat.min_eq_left (by omega)]

/-! ## One read after the other

The offset that a read leaves is the one the next read begins with. -/

/-- The offset after `n` reads of the sizes `sizes`, from the beginning. -/
def offsetAfter (t : Table) (sizes : ℕ → ℕ) : ℕ → ℤ
  | 0 => 0
  | n + 1 => (devRead t true (sizes n) (offsetAfter t sizes n)).off

/-- What the read number `n` returns. -/
def retOf (t : Table) (sizes : ℕ → ℕ) (n : ℕ) : ℤ :=
  (devRead t true (sizes n) (offsetAfter t sizes n)).ret

section Series

variable {t : Table} {sizes : ℕ → ℕ}

/-- The offset is between the beginning and the end. -/
theorem offsetAfter_range (h : Uniform t) (hsizes : ∀ n, 1 ≤ sizes n)
    (hsum : ∀ n, offsetAfter t sizes n + sizes n < 2 ^ 63) (n : ℕ) :
    0 ≤ offsetAfter t sizes n ∧ offsetAfter t sizes n ≤ total t := by
  induction n with
  | zero => exact ⟨le_rfl, by rw [offsetAfter]; omega⟩
  | succ n ih =>
    obtain ⟨hret, hoff, -⟩ := devRead_progress h (hsizes n) ih.1 (hsum n)
    rw [offsetAfter, hoff, hret]
    split_ifs with hlt
    · have hmin : min (sizes n : ℤ) (total t - offsetAfter t sizes n) ≤ _ := min_le_right _ _
      have hpos : 0 ≤ min (sizes n : ℤ) (total t - offsetAfter t sizes n) :=
        le_min (by omega) (by omega)
      exact ⟨by omega, by omega⟩
    · rw [add_zero]
      exact ih

/-- The offset is the sum of what was returned. -/
theorem offsetAfter_eq_sum (h : Uniform t) (hsizes : ∀ n, 1 ≤ sizes n)
    (hsum : ∀ n, offsetAfter t sizes n + sizes n < 2 ^ 63) (n : ℕ) :
    offsetAfter t sizes n = ∑ m ∈ Finset.range n, retOf t sizes m := by
  induction n with
  | zero => rfl
  | succ n ih =>
    have hzero := (offsetAfter_range h hsizes hsum n).1
    obtain ⟨-, hoff, -⟩ := devRead_progress h (hsizes n) hzero (hsum n)
    rw [offsetAfter, hoff, Finset.sum_range_succ, ← ih]
    rfl

/-- Until the end is reached each read returns something. -/
theorem retOf_pos (h : Uniform t) (hsizes : ∀ n, 1 ≤ sizes n)
    (hsum : ∀ n, offsetAfter t sizes n + sizes n < 2 ^ 63) (n : ℕ) :
    0 < retOf t sizes n ↔ offsetAfter t sizes n < total t := by
  have hzero := (offsetAfter_range h hsizes hsum n).1
  obtain ⟨hret, -, -⟩ := devRead_progress h (hsizes n) hzero (hsum n)
  rw [retOf, hret]
  split_ifs with hlt
  · have := hsizes n
    exact iff_of_true (lt_min (by omega) (by omega)) hlt
  · exact iff_of_false (lt_irrefl 0) hlt

/-- While nothing but positive results were returned, the offset has moved at least that often. -/
theorem le_offsetAfter (h : Uniform t) (hsizes : ∀ n, 1 ≤ sizes n)
    (hsum : ∀ n, offsetAfter t sizes n + sizes n < 2 ^ 63) (n : ℕ)
    (hpos : ∀ m < n, 0 < retOf t sizes m) : (n : ℤ) ≤ offsetAfter t sizes n := by
  induction n with
  | zero => exact le_rfl
  | succ n ih =>
    have hzero := (offsetAfter_range h hsizes hsum n).1
    obtain ⟨-, hoff, -⟩ := devRead_progress h (hsizes n) hzero (hsum n)
    have hlast : 0 < (devRead t true (sizes n) (offsetAfter t sizes n)).ret :=
      hpos n n.lt_succ_self
    have hle := ih fun m hm => hpos m (Nat.lt_succ_of_lt hm)
    rw [offsetAfter, hoff]
    omega

/-- At the end nothing is returned any more. -/
theorem retOf_end (h : Uniform t) (hsizes : ∀ n, 1 ≤ sizes n)
    (hsum : ∀ n, offsetAfter t sizes n + sizes n < 2 ^ 63) {n : ℕ}
    (hend : offsetAfter t sizes n = total t) : retOf t sizes n = 0 := by
  obtain ⟨hret, -, -⟩ := devRead_progress h (hsizes n) (by rw [hend]; omega) (hsum n)
  rw [retOf, hret, if_neg (by rw [hend]; exact lt_irrefl _)]

/-- There is a first read that returns nothing, and it finds the offset at the end. -/
theorem exists_end (h : Uniform t) (hsizes : ∀ n, 1 ≤ sizes n)
    (hsum : ∀ n, offsetAfter t sizes n + sizes n < 2 ^ 63) :
    ∃ n, (∀ m < n, 0 < retOf t sizes m) ∧ offsetAfter t sizes n = total t := by
  classical
  have hstop : ∃ n, ¬ 0 < retOf t sizes n := by
    by_contra hall
    have hmove := le_offsetAfter h hsizes hsum (total t + 1) fun m _ => not_not.1 fun hm =>
      hall ⟨m, hm⟩
    have hrange := (offsetAfter_range h hsizes hsum (total t + 1)).2
    omega
  refine ⟨Nat.find hstop, fun m hm => not_not.1 (Nat.find_min hstop hm), ?_⟩
  have hfirst := Nat.find_spec hstop
  rw [retOf_pos h hsizes hsum, not_lt] at hfirst
  exact le_antisymm (offsetAfter_range h hsizes hsum _).2 hfirst

end Series

/-- **Reading the device to its end.**  Every read returns what is left of the listing, as much as
fits in the size, and moves the offset by that; all that it copies is in its buffer.  Reads from the
beginning, of whatever positive sizes, return the length of the listing in total, and then 0. -/
theorem sequential_reads {t : Table} (h : Uniform t) :
    (∀ (size : ℕ) (off : ℤ), 1 ≤ size → 0 ≤ off → off + size < 2 ^ 63 →
      (devRead t true size off).ret =
          (if off < total t then min (size : ℤ) (total t - off) else 0) ∧
        (devRead t true size off).off = off + (devRead t true size off).ret ∧
        ((devRead t true size off).copied.length : ℤ) = (devRead t true size off).ret) ∧
    ∀ sizes : ℕ → ℕ, (∀ n, 1 ≤ sizes n) → (∀ n, offsetAfter t sizes n + sizes n < 2 ^ 63) →
      ∃ n, (∀ m < n, 0 < retOf t sizes m) ∧ retOf t sizes n = 0 ∧
        ∑ m ∈ Finset.range n, retOf t sizes m = total t := by
  refine ⟨fun size off hsize hoff hsum => devRead_progress h hsize hoff hsum,
    fun sizes hsizes hsum => ?_⟩
  obtain ⟨n, hpos, hend⟩ := exists_end h hsizes hsum
  refine ⟨n, hpos, retOf_end h hsizes hsum hend, ?_⟩
  rw [← offsetAfter_eq_sum h hsizes hsum, hend]

/-- With one tag, the read at the middle of the header returns ten characters. -/
theorem sequential_reads_oneTag : (devRead oneTag true 10 20).ret = 10 := by
  have huniform : Uniform oneTag := by
    intro tag htag j hj
    obtain ⟨i, -, hi⟩ := List.mem_filterMap.1 htag
    rw [oneTag, Option.ite_none_right_eq_some, Option.some.injEq] at hi
    rw [← hi.2, quiet.row_length hj]
    rfl
  have htotal : total oneTag = 1890 := by decide +kernel
  obtain ⟨hret, -, -⟩ := (sequential_reads huniform).1 10 20 (by decide) (by decide) (by decide)
  rw [hret, htotal]
  rfl

end TagAos.Device
