import TagAos.Device.Sequential

/-!
# The room in the buffer

`append_buffer` asks for a larger buffer when `nbytes` exceeds the one there is.  The header and the
first divider are in the buffer and not in `nbytes`, so the text has 108 characters more than the
decision counts, and a text that `nbytes` brings close to the end of the first block runs over it.

* `readings` — the buffer after every `strcat` and `strncat`.
* `tagReadings_fit_iff` — all of them fit if and only if `nbytes` stays 108 below the first block's
  size: a line is shorter than that, so no text jumps over the last 108 characters.
* `nbytes_le_iff_roomy`, `text_fits_iff` — when it does.
-/

set_option autoImplicit false

namespace TagAos.Device

open Registry (maxTags)

/-! ## Every append

The model of `dev_read` computes the text that is in the buffer at the end.  Here every state of the
buffer on the way is listed, since each `strncat` and `strcat` writes to it. -/

/-- The buffer after each append of `readLevels`. -/
def levelReadings (tag : Tag) (size relativeOff : ℕ) : List ℕ → Reading → List Reading
  | [], _ => []
  | j :: js, r =>
    let r := r.append (tag.row j)
    r :: if sumSize size relativeOff < r.nbytes then [] else levelReadings tag size relativeOff js r

/-- The buffer after each append of `readTags`. -/
def tagReadings (t : Table) (size : ℕ) : List ℕ → ℕ → Reading → List Reading
  | [], _, _ => []
  | i :: is, relativeOff, r =>
    match t i with
    | none => tagReadings t size is relativeOff r
    | some tag =>
      if tagSize < relativeOff then tagReadings t size is (relativeOff - tagSize) r
      else
        levelReadings tag size relativeOff (List.range levels) r ++
          match readLevels tag size relativeOff (List.range levels) r with
          | .error _ => []
          | .ok r => r.append divider :: tagReadings t size is relativeOff (r.append divider)

/-- The buffer after each `strncat` and `strcat` of `dev_read`. -/
def readings (t : Table) (buf : Bool) (size : ℕ) (off : ℤ) : List Reading :=
  if size = 0 ∨ buf = false ∨ off < 0 then []
  else ⟨header, 0, 1⟩ :: .start :: tagReadings t size (List.range maxTags) off.toNat .start

/-- The text and its terminating zero fit in the bytes requested for the buffer. -/
def Reading.Fits (r : Reading) : Prop := r.buffer.length + 1 ≤ charBlock * r.currBlock + 1

/-- Where the loop over the levels ends, at its exit or at its end. -/
def reading : Except Reading Reading → Reading
  | .error r => r
  | .ok r => r

theorem getLastD_levelReadings (tag : Tag) (size relativeOff : ℕ) (js : List ℕ) (r : Reading) :
    (levelReadings tag size relativeOff js r).getLastD r =
      reading (readLevels tag size relativeOff js r) := by
  induction js generalizing r with
  | nil => rfl
  | cons j js ih =>
    rw [levelReadings, readLevels, List.getLastD_cons]
    split_ifs
    · rfl
    · exact ih _

/-- The last of the readings is what the loop ends with. -/
theorem getLastD_tagReadings (t : Table) (size : ℕ) (is : List ℕ) (relativeOff : ℕ) (r : Reading) :
    (tagReadings t size is relativeOff r).getLastD r = (readTags t size is relativeOff r).1 := by
  induction is generalizing relativeOff r with
  | nil => rfl
  | cons i is ih =>
    rw [tagReadings, readTags]
    cases t i with
    | none => exact ih _ _
    | some tag =>
      dsimp only
      split_ifs
      · exact ih _ _
      · have hlast := getLastD_levelReadings tag size relativeOff (List.range levels) r
        cases hlevels : readLevels tag size relativeOff (List.range levels) r with
        | error r' =>
          rw [hlevels] at hlast
          rw [List.append_nil]
          exact hlast
        | ok r' =>
          dsimp only
          rw [List.getLastD_eq_getLast?, List.getLast?_append, List.getLast?_cons, Option.some_or,
            Option.getD_some, ← List.getLastD_eq_getLast?]
          exact ih _ _

/-! ## When all of them fit

Whether all of them fit can be seen from the last value of `nbytes` alone. -/

/-- A reading with room for one more line: the 108 characters that are not counted still fit in the
first block. -/
structure Small (r : Reading) : Prop where
  block : r.currBlock = 1
  length : r.buffer.length = r.nbytes + 108
  le : r.nbytes + 108 ≤ charBlock

theorem small_start : Small .start := ⟨rfl, rfl, by decide⟩

/-- A row has at most 55 characters. -/
theorem row_length_le (tag : Tag) {j : ℕ} (hj : j < levels) : (tag.row j).length ≤ 55 := by
  rw [tag.row_length hj, lineSize]
  split_ifs <;> omega

/-- After a line that makes the text too long the first block is still the only one. -/
theorem Small.append_iff {r : Reading} (h : Small r) {source : List Char}
    (hsource : source.length ≤ 55) :
    ((r.append source).Fits ↔ Small (r.append source)) ∧
      (Small (r.append source) ↔ (r.append source).nbytes + 108 ≤ charBlock) := by
  have hle := h.le
  have hblock : (r.append source).currBlock = 1 := by
    have hstay : ¬ charBlock * r.currBlock < r.nbytes + source.length := by
      rw [h.block]; omega
    exact (if_neg hstay).trans h.block
  have hlength : (r.append source).buffer.length = (r.append source).nbytes + 108 := by
    show (r.buffer ++ source).length = r.nbytes + source.length + 108
    rw [List.length_append, h.length]
    omega
  have hsmall : Small (r.append source) ↔ (r.append source).nbytes + 108 ≤ charBlock :=
    ⟨Small.le, fun h' => ⟨hblock, hlength, h'⟩⟩
  refine ⟨?_, hsmall⟩
  rw [hsmall, Reading.Fits, hblock, hlength]
  omega

/-- Then the text so far fits as well. -/
theorem Small.fits {r : Reading} (h : Small r) : r.Fits := by
  rw [Reading.Fits, h.block, h.length]
  have := h.le
  omega

theorem nbytes_le_append (r : Reading) (source : List Char) :
    r.nbytes ≤ (r.append source).nbytes := Nat.le_add_right _ _

/-- The number of bytes read so far grows from level to level. -/
theorem nbytes_le_readLevels (tag : Tag) (size relativeOff : ℕ) (js : List ℕ) (r : Reading) :
    r.nbytes ≤ (reading (readLevels tag size relativeOff js r)).nbytes := by
  induction js generalizing r with
  | nil => exact le_rfl
  | cons j js ih =>
    rw [readLevels]
    split_ifs
    · exact nbytes_le_append r _
    · exact (nbytes_le_append r _).trans (ih _)

/-- And from tag to tag. -/
theorem nbytes_le_readTags (t : Table) (size : ℕ) (is : List ℕ) (relativeOff : ℕ) (r : Reading) :
    r.nbytes ≤ (readTags t size is relativeOff r).1.nbytes := by
  induction is generalizing relativeOff r with
  | nil => exact le_rfl
  | cons i is ih =>
    rw [readTags]
    cases t i with
    | none => exact ih _ _
    | some tag =>
      dsimp only
      split_ifs
      · exact ih _ _
      · have hlevels := nbytes_le_readLevels tag size relativeOff (List.range levels) r
        cases hread : readLevels tag size relativeOff (List.range levels) r with
        | error r' =>
          rw [hread] at hlevels
          exact hlevels
        | ok r' =>
          rw [hread] at hlevels
          exact (hlevels.trans (nbytes_le_append r' divider)).trans (ih _ _)

/-- Within one tag all the readings fit exactly when there is room for one more line at the end of
its rows, and this can be seen from `nbytes`.  By induction on the levels: where a row leaves no
room for the next one, the number of bytes has passed the bound, and only grows from there. -/
theorem levelReadings_fit_iff (tag : Tag) (size relativeOff : ℕ) {js : List ℕ}
    (hjs : ∀ j ∈ js, j < levels) {r : Reading} (h : Small r) :
    ((∀ r' ∈ levelReadings tag size relativeOff js r, r'.Fits) ↔
        Small (reading (readLevels tag size relativeOff js r))) ∧
      (Small (reading (readLevels tag size relativeOff js r)) ↔
        (reading (readLevels tag size relativeOff js r)).nbytes + 108 ≤ charBlock) := by
  induction js generalizing r with
  | nil => exact ⟨iff_of_true (by simp [levelReadings]) h, iff_of_true h h.le⟩
  | cons j js ih =>
    have hrow : (tag.row j).length ≤ 55 := row_length_le tag (hjs j List.mem_cons_self)
    obtain ⟨hfits, hsmall⟩ := h.append_iff hrow
    rw [levelReadings, readLevels, List.forall_mem_cons, hfits]
    split_ifs with hexit
    · exact ⟨by simp [reading], hsmall⟩
    · by_cases hnext : Small (r.append (tag.row j))
      · have := ih (fun j hj => hjs j (List.mem_cons_of_mem _ hj)) hnext
        exact ⟨(and_iff_right hnext).trans this.1, this.2⟩
      · -- the text is too long already
        have hmono := nbytes_le_readLevels tag size relativeOff js (r.append (tag.row j))
        have hlong : ¬ (reading (readLevels tag size relativeOff js
            (r.append (tag.row j)))).nbytes + 108 ≤ charBlock := fun h' =>
          hnext (hsmall.2 (by omega))
        have hnot : ¬ Small (reading (readLevels tag size relativeOff js (r.append (tag.row j)))) :=
          fun h' => hlong h'.le
        exact ⟨iff_of_false (fun h' => hnext h'.1) hnot, iff_of_false hnot hlong⟩

/-- **All the texts fit if and only if the last one leaves 108 characters uncounted.** -/
theorem tagReadings_fit_iff (t : Table) (size : ℕ) (is : List ℕ) (relativeOff : ℕ) {r : Reading}
    (h : Small r) :
    (∀ r' ∈ tagReadings t size is relativeOff r, r'.Fits) ↔
      (readTags t size is relativeOff r).1.nbytes + 108 ≤ charBlock := by
  induction is generalizing relativeOff r with
  | nil => exact iff_of_true (by simp [tagReadings]) h.le
  | cons i is ih =>
    rw [tagReadings, readTags]
    cases t i with
    | none => exact ih _ h
    | some tag =>
      dsimp only
      split_ifs
      · exact ih _ h
      · have hrange : ∀ j ∈ List.range levels, j < levels := fun j hj => List.mem_range.1 hj
        obtain ⟨hfit, hle⟩ := levelReadings_fit_iff tag size relativeOff hrange h
        rw [List.forall_mem_append, hfit]
        cases hlevels : readLevels tag size relativeOff (List.range levels) r with
        | error r' =>
          rw [hlevels] at hle
          rw [and_iff_left (List.forall_mem_nil _)]
          exact hle
        | ok r' =>
          rw [hlevels] at hle
          dsimp only [reading] at hle ⊢
          have hdivider : divider.length ≤ 55 := by decide
          have hmono := nbytes_le_readTags t size is relativeOff (r'.append divider)
          have happend := nbytes_le_append r' divider
          rw [List.forall_mem_cons]
          by_cases hsmall : Small r'
          · obtain ⟨hfits, hnext⟩ := hsmall.append_iff hdivider
            rw [hfits]
            by_cases hs : Small (r'.append divider)
            · rw [and_iff_right hsmall, and_iff_right hs]
              exact ih _ hs
            · exact iff_of_false (fun h' => hs h'.2.1) fun h' => hs (hnext.2 (by omega))
          · exact iff_of_false (fun h' => hsmall h'.1) fun h' => hsmall (hle.2 (by omega))

/-! ## How much is appended

`nbytes` is a sum of line lengths, and the lines of one tag are equally long. -/

/-- What is counted when the loop over the levels ends, for lines of one length: the exit is taken
at the first line that ends past the size and the offset that is left. -/
theorem readLevels_nbytes (tag : Tag) (size relativeOff width : ℕ) {js : List ℕ}
    (hjs : ∀ j ∈ js, (tag.row j).length = width) (r : Reading) :
    match readLevels tag size relativeOff js r with
    | .ok r' => r'.nbytes = r.nbytes + js.length * width ∧
        ∀ k, 1 ≤ k → k ≤ js.length → r.nbytes + k * width ≤ sumSize size relativeOff
    | .error r' => ∃ k, 1 ≤ k ∧ k ≤ js.length ∧ r'.nbytes = r.nbytes + k * width ∧
        sumSize size relativeOff < r'.nbytes ∧
        ∀ i, 1 ≤ i → i < k → r.nbytes + i * width ≤ sumSize size relativeOff := by
  induction js generalizing r with
  | nil => exact ⟨by simp, fun k h1 h2 => by simp at h2; omega⟩
  | cons j js ih =>
    have hbytes : (r.append (tag.row j)).nbytes = r.nbytes + width := by
      rw [← hjs j List.mem_cons_self]
      rfl
    have hshift : ∀ k, (r.append (tag.row j)).nbytes + k * width = r.nbytes + (k + 1) * width := by
      intro k
      rw [hbytes, Nat.succ_mul]
      omega
    rw [readLevels]
    by_cases hexit : sumSize size relativeOff < (r.append (tag.row j)).nbytes
    · rw [if_pos hexit]
      exact ⟨1, le_rfl, by simp, by rw [hbytes, Nat.one_mul], hexit, fun i h1 h2 => by omega⟩
    · rw [if_neg hexit]
      have hfirst : r.nbytes + 1 * width ≤ sumSize size relativeOff := by
        rw [Nat.one_mul, ← hbytes]
        omega
      have hrest := ih (fun j hj => hjs j (List.mem_cons_of_mem _ hj)) (r.append (tag.row j))
      cases hlevels : readLevels tag size relativeOff js (r.append (tag.row j)) with
      | error r' =>
        rw [hlevels] at hrest
        obtain ⟨k, h1, hk, heq, hlt, hbefore⟩ := hrest
        refine ⟨k + 1, by omega, by simpa using hk, heq.trans (hshift k), hlt, fun i hi hik => ?_⟩
        rcases Nat.eq_or_lt_of_le hi with rfl | hi
        · exact hfirst
        · have := hbefore (i - 1) (by omega) (by omega)
          rwa [hshift, Nat.sub_add_cancel (by omega)] at this
      | ok r' =>
        rw [hlevels] at hrest
        obtain ⟨heq, hbefore⟩ := hrest
        refine ⟨heq.trans (hshift _), fun i hi hik => ?_⟩
        rcases Nat.eq_or_lt_of_le hi with rfl | hi
        · exact hfirst
        · have := hbefore (i - 1) (by omega) (by simpa using Nat.sub_le_of_le_add hik)
          rwa [hshift, Nat.sub_add_cancel (by omega)] at this

/-- The width of the lines of a tag. -/
def width (tag : Tag) : ℕ := (tag.row 0).length

theorem width_eq (tag : Tag) : width tag = if tag.wide then 55 else 54 := by
  rw [width, tag.row_length (by decide), lineSize]
  split_ifs <;> rfl

theorem row_length_eq_width (tag : Tag) {j : ℕ} (hj : j ∈ List.range levels) :
    (tag.row j).length = width tag := by
  rw [width, tag.row_length (List.mem_range.1 hj), tag.row_length (by decide)]

/-- The text of a tag: 32 rows, header and divider. -/
theorem text_length_eq_width (tag : Tag) : tag.text.length = 32 * width tag + 54 := by
  rw [tag.text_length, width_eq, tagSize, lineSize, levels]
  split_ifs <;> rfl

/-- The loop over all levels of a tag. -/
theorem readLevels_all (tag : Tag) (size relativeOff : ℕ) (r : Reading) :
    match readLevels tag size relativeOff (List.range levels) r with
    | .ok r' => r'.nbytes = r.nbytes + 32 * width tag ∧
        ∀ k, 1 ≤ k → k ≤ 32 → r.nbytes + k * width tag ≤ sumSize size relativeOff
    | .error r' => ∃ k, 1 ≤ k ∧ k ≤ 32 ∧ r'.nbytes = r.nbytes + k * width tag ∧
        sumSize size relativeOff < r'.nbytes ∧
        ∀ i, 1 ≤ i → i < k → r.nbytes + i * width tag ≤ sumSize size relativeOff := by
  have hwidth : ∀ j ∈ List.range levels, (tag.row j).length = width tag :=
    fun j hj => row_length_eq_width tag hj
  have h := readLevels_nbytes tag size relativeOff (width tag) hwidth r
  rwa [List.length_range] at h

/-! ## When the text stays short

The condition in terms of the table and of the two numbers the caller passes. -/

/-- The end of the last line of a third tag that leaves 108 characters of the first block, after the
texts of two tags. -/
def lastEnd (a b c : Tag) : ℕ :=
  let before := a.text.length + b.text.length
  before + (charBlock - 108 - before) / width c * width c

/-- Fewer than three tags are emitted, or the read ends before such a line. -/
def Roomy (t : Table) (size off : ℕ) : Prop :=
  match unskipped t off with
  | a :: b :: c :: _ => sumSize size (leftOff t off) < lastEnd a b c
  | _ => True

/-- Between two and seven lines of the third tag have room. -/
theorem lastEnd_spec (a b c : Tag) :
    ∃ k, 1 ≤ k ∧ k ≤ 7 ∧ lastEnd a b c = a.text.length + b.text.length + k * width c ∧
      a.text.length + b.text.length + k * width c + 108 ≤ charBlock ∧
      charBlock < a.text.length + b.text.length + (k + 1) * width c + 108 := by
  refine ⟨(charBlock - 108 - (a.text.length + b.text.length)) / width c, ?_⟩
  simp only [lastEnd, text_length_eq_width, width_eq, charBlock]
  cases a.wide <;> cases b.wide <;> cases c.wide <;> decide

/-- What is read of the live tags is at most their text. -/
theorem readLive_nbytes (size : ℕ) (ts : List Tag) {relativeOff : ℕ}
    (h : ts = [] ∨ relativeOff ≤ tagSize) (r : Reading) :
    r.nbytes ≤ (readLive size ts relativeOff r).1.nbytes ∧
      (readLive size ts relativeOff r).1.nbytes ≤ r.nbytes + (textOf ts).length := by
  obtain ⟨q, hq, -, hbuffer, -⟩ := readLive_emits size ts h r
  have hcounts := (readLive_counts size ts h r).1
  have hle := hq.length_le
  rw [Counts, hbuffer, List.length_append] at hcounts
  omega

/-- A read that ends before line `k` of a tag has counted at most the text up to that line. -/
theorem readLive_le {size relativeOff : ℕ} (h : relativeOff ≤ tagSize) {before : List Tag}
    (after : List Tag) {c : Tag} {k : ℕ} (h1 : 1 ≤ k) (hk : k ≤ 32) {r : Reading}
    (hlt : sumSize size relativeOff < r.nbytes + (textOf before).length + k * width c) :
    (readLive size (before ++ c :: after) relativeOff r).1.nbytes ≤
      r.nbytes + (textOf before).length + k * width c := by
  induction before generalizing r with
  | nil =>
    have hlevels := readLevels_all c size relativeOff r
    have h0 : (textOf []).length = 0 := rfl
    rw [h0] at hlt ⊢
    rw [List.nil_append, readLive, if_neg (not_lt.2 h)]
    cases hread : readLevels c size relativeOff (List.range levels) r with
    | error r' =>
      rw [hread] at hlevels
      obtain ⟨k', h1', -, heq, -, hbefore⟩ := hlevels
      have hle : k' ≤ k := by
        by_contra hgt
        have := hbefore k h1 (by omega)
        omega
      have := Nat.mul_le_mul_right (width c) hle
      dsimp only
      omega
    | ok r' =>
      rw [hread] at hlevels
      have := hlevels.2 k h1 hk
      omega
  | cons a before ih =>
    have hlevels := readLevels_all a size relativeOff r
    have htext : (textOf (a :: before)).length = 32 * width a + 54 + (textOf before).length := by
      rw [textOf_cons, List.length_append, text_length_eq_width]
    rw [htext] at hlt ⊢
    rw [List.cons_append, readLive, if_neg (not_lt.2 h)]
    cases hread : readLevels a size relativeOff (List.range levels) r with
    | error r' =>
      rw [hread] at hlevels
      obtain ⟨k', -, hk', heq, -, -⟩ := hlevels
      have := Nat.mul_le_mul_right (width a) hk'
      dsimp only
      omega
    | ok r' =>
      rw [hread] at hlevels
      have hbytes : (r'.append divider).nbytes = r.nbytes + 32 * width a + 54 := by
        rw [← hlevels.1]
        rfl
      have := ih (r := r'.append divider) (by omega)
      dsimp only
      omega

/-- A read that does not end up to line `k` of a tag has counted one more line. -/
theorem le_readLive {size relativeOff : ℕ} (h : relativeOff ≤ tagSize) {before : List Tag}
    (after : List Tag) {c : Tag} {k : ℕ} (hk : k < 32) {r : Reading}
    (hle : r.nbytes + (textOf before).length + k * width c ≤ sumSize size relativeOff) :
    r.nbytes + (textOf before).length + (k + 1) * width c ≤
      (readLive size (before ++ c :: after) relativeOff r).1.nbytes := by
  induction before generalizing r with
  | nil =>
    have hlevels := readLevels_all c size relativeOff r
    have h0 : (textOf []).length = 0 := rfl
    rw [h0] at hle ⊢
    rw [List.nil_append, readLive, if_neg (not_lt.2 h)]
    cases hread : readLevels c size relativeOff (List.range levels) r with
    | error r' =>
      rw [hread] at hlevels
      obtain ⟨k', -, -, heq, hexit, -⟩ := hlevels
      have hlt : k < k' := Nat.lt_of_mul_lt_mul_right (a := width c) (by omega)
      have := Nat.mul_le_mul_right (width c) (show k + 1 ≤ k' from hlt)
      dsimp only
      omega
    | ok r' =>
      rw [hread] at hlevels
      have hmul := Nat.mul_le_mul_right (width c) (show k + 1 ≤ 32 from hk)
      have hrest := (readLive_nbytes size after (.inr h) (r'.append divider)).1
      have happend := nbytes_le_append r' divider
      have := hlevels.1
      dsimp only
      omega
  | cons a before ih =>
    have hlevels := readLevels_all a size relativeOff r
    have htext : (textOf (a :: before)).length = 32 * width a + 54 + (textOf before).length := by
      rw [textOf_cons, List.length_append, text_length_eq_width]
    rw [htext] at hle ⊢
    rw [List.cons_append, readLive, if_neg (not_lt.2 h)]
    cases hread : readLevels a size relativeOff (List.range levels) r with
    | error r' =>
      rw [hread] at hlevels
      obtain ⟨k', -, hk', heq, hexit, -⟩ := hlevels
      have := Nat.mul_le_mul_right (width a) hk'
      omega
    | ok r' =>
      rw [hread] at hlevels
      have hbytes : (r'.append divider).nbytes = r.nbytes + 32 * width a + 54 := by
        rw [← hlevels.1]
        rfl
      have := ih (r := r'.append divider) (by omega)
      dsimp only
      omega

/-- **When `nbytes` stays 108 below the size of the first block.** -/
theorem nbytes_le_iff_roomy (t : Table) (size off : ℕ) :
    (readTags t size (List.range maxTags) off .start).1.nbytes + 108 ≤ charBlock ↔
      Roomy t size off := by
  have hleft := leftOff_le t off
  have hbytes := (readLive_nbytes size (unskipped t off) hleft .start).2
  have h0 : Reading.start.nbytes = 0 := rfl
  have hwidth : ∀ tag, width tag ≤ 55 := fun tag => by rw [width_eq]; split_ifs <;> omega
  rw [readTags_unskipped, Roomy]
  cases hts : unskipped t off with
  | nil => exact iff_of_true (show Reading.start.nbytes + 108 ≤ charBlock by decide) trivial
  | cons a ts =>
    rw [hts] at hleft hbytes
    have hle : leftOff t off ≤ tagSize := hleft.resolve_left (List.cons_ne_nil _ _)
    have ha := hwidth a
    rcases ts with _ | ⟨b, _ | ⟨c, rest⟩⟩
    · -- one tag
      rw [textOf_cons, List.length_append, text_length_eq_width] at hbytes
      have hnil : (textOf []).length = 0 := rfl
      exact iff_of_true (by rw [charBlock]; omega) trivial
    · -- two tags
      rw [textOf_cons, textOf_cons, List.length_append, List.length_append, text_length_eq_width,
        text_length_eq_width] at hbytes
      have hnil : (textOf []).length = 0 := rfl
      have hb := hwidth b
      exact iff_of_true (by rw [charBlock]; omega) trivial
    · -- a third tag
      obtain ⟨k, h1, h7, hend, hfits, hover⟩ := lastEnd_spec a b c
      have htwo : (textOf [a, b]).length = a.text.length + b.text.length := by
        rw [textOf_cons, textOf_cons, List.length_append, List.length_append]
        rfl
      show _ ↔ sumSize size (leftOff t off) < lastEnd a b c
      rw [hend]
      constructor
      · intro hsmall
        by_contra hlt
        have hmore : Reading.start.nbytes + (textOf [a, b]).length + k * width c ≤
            sumSize size (leftOff t off) := by omega
        have := le_readLive hle rest (by omega) hmore
        rw [List.cons_append, List.cons_append, List.nil_append] at this
        omega
      · intro hlt
        have hless : sumSize size (leftOff t off) <
            Reading.start.nbytes + (textOf [a, b]).length + k * width c := by omega
        have := readLive_le hle rest h1 (by omega) hless
        rw [List.cons_append, List.cons_append, List.nil_append] at this
        omega

/-- **The text fits exactly when the call is `Roomy`.** The column headers fit in any case, and what
follows is decided by the last value of `nbytes`. -/
theorem readings_fit_iff (t : Table) {size : ℕ} (hsize : size ≠ 0) {off : ℤ} (hoff : 0 ≤ off) :
    (∀ r ∈ readings t true size off, r.Fits) ↔ Roomy t size off.toNat := by
  have hheader : Reading.Fits ⟨header, 0, 1⟩ := by
    rw [Reading.Fits, header_length]
    decide
  rw [readings, if_neg (by simp [hsize, hoff]), List.forall_mem_cons, List.forall_mem_cons,
    and_iff_right hheader, and_iff_right small_start.fits,
    tagReadings_fit_iff t size _ _ small_start, nbytes_le_iff_roomy]

/-- **When the text fits in its buffer.**  At each `strncat` and `strcat`, if and only if nothing is
read, or fewer than three tags are emitted, or the read ends before the last line of the third that
leaves 108 characters of the first block. -/
theorem text_fits_iff (t : Table) (buf : Bool) (size : ℕ) (off : ℤ) :
    (∀ r ∈ readings t buf size off, r.Fits) ↔
      size = 0 ∨ buf = false ∨ off < 0 ∨ Roomy t size off.toNat := by
  by_cases hnone : size = 0 ∨ buf = false ∨ off < 0
  · rw [readings, if_pos hnone]
    exact iff_of_true (List.forall_mem_nil _) (by tauto)
  · obtain ⟨hsize, hbuf, hoff⟩ : size ≠ 0 ∧ buf = true ∧ 0 ≤ off := by
      simpa [not_or] using hnone
    rw [hbuf, readings_fit_iff t hsize hoff]
    simp [hsize, hoff]

/-- A table with three tags. -/
def threeTags : Table := fun i => if i < 3 then some quiet else none

/-- The text of three tags, read from the beginning in one piece, does not fit. -/
theorem text_overflows : ¬ ∀ r ∈ readings threeTags true 4096 0, r.Fits := by
  have hall : ∀ tag ∈ live threeTags, tag = quiet := by
    intro tag htag
    obtain ⟨i, -, hi⟩ := List.mem_filterMap.1 htag
    rw [threeTags, Option.ite_none_right_eq_some, Option.some.injEq] at hi
    exact hi.2.symm
  have hlength : (live threeTags).length = 3 := by decide +kernel
  have hlive : live threeTags = [quiet, quiet, quiet] := by
    rw [List.eq_replicate_of_mem hall, hlength]
    rfl
  have hskips : skips (live threeTags).length 0 = 0 := by rw [hlive]; rfl
  have hunskipped : unskipped threeTags 0 = [quiet, quiet, quiet] := by
    rw [unskipped, hskips, hlive]
    rfl
  have hwidth : width quiet = 54 := by rw [width_eq, if_neg (by decide +kernel)]
  have htext : quiet.text.length = 1782 := by rw [text_length_eq_width, hwidth]
  have hend : lastEnd quiet quiet quiet = 3942 := by rw [lastEnd, htext, hwidth]; rfl
  have hsum : sumSize 4096 (leftOff threeTags 0) = 4096 := by rw [leftOff, Nat.zero_sub]; rfl
  rw [readings_fit_iff threeTags (by omega) le_rfl, Int.toNat_zero, Roomy, hunskipped]
  dsimp only
  rw [hend, hsum]
  omega

end TagAos.Device
