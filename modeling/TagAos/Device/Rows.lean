import TagAos.Device.Read

/-!
# The size of a tag's text

`dev_read` takes `TAG_SIZE` off the offset for a tag it skips, and never looks at how long the
tag's text would have been.  `%10d` pads to ten characters and does not cut, so the two agree only
as long as every column holds at most ten.  Keys, levels and counters do; an effective uid is
unsigned, goes through an `int`, and has eleven characters from `-10 ^ 9` down.

* `row_lt_temp` — every line fits the temporary it is printed into.
* `rows_match_skip_iff` — the owners for which a tag has the size that is skipped.
-/

set_option autoImplicit false

namespace TagAos.Device

/-! ## The temporary

`%10d` does not cut, so the widest columns have to be considered. -/

/-- The size of `temp`, into which one line is printed. -/
def tempSize : ℕ := 64

/-- **No line overruns the temporary**, whoever owns the tag. -/
theorem row_lt_temp (tag : Tag) {j : ℕ} (hj : j < levels) : (tag.row j).length + 1 ≤ tempSize := by
  rw [tag.row_length hj, lineSize, tempSize]
  split <;> omega

/-! ## Wide owners

An `euid` is unsigned and is printed as an `int`.  From `2 ^ 31` on it has a sign, and as long as
the `int` is at most `-10 ^ 9` ten digits after it. -/

/-- The owners whose column has eleven characters. -/
theorem Tag.wide_iff (tag : Tag) :
    tag.wide = true ↔ 2 ^ 31 ≤ tag.euid ∧ tag.euid ≤ 2 ^ 32 - 10 ^ 9 := by
  have hlt := tag.euid_lt
  rw [wide, decide_eq_true_eq, toInt]
  rcases Nat.lt_or_ge tag.euid (2 ^ 31) with h | h
  · have hself : Int.bmod tag.euid (2 ^ 32) = tag.euid :=
      Int.bmod_eq_of_le (by omega) (by omega)
    rw [hself]
    omega
  · have hwrap : Int.bmod tag.euid (2 ^ 32) = tag.euid - 2 ^ 32 := by
      have hsub : Int.bmod (tag.euid - 2 ^ 32) (2 ^ 32) = tag.euid - 2 ^ 32 :=
        Int.bmod_eq_of_le (by omega) (by omega)
      rw [← hsub]
      exact (Int.sub_bmod_right _ (2 ^ 32)).symm
    rw [hwrap]
    omega

/-! ## What a tag adds and what is skipped

The two numbers that have to agree: what a tag adds to the text when it is read, and what is taken
off the offset when it is skipped. -/

/-- The lines of the tag are as long as the skip takes them to be. -/
structure RowsMatchSkip (tag : Tag) : Prop where
  /-- Each line has `LINE_SIZE + 1` bytes. -/
  line : ∀ j < levels, (tag.row j).length = lineSize + 1
  /-- Each line fits the temporary, with its terminating zero. -/
  temp : ∀ j < levels, (tag.row j).length + 1 ≤ tempSize
  /-- Unless enough has been read before its end, the tag adds `TAG_SIZE` bytes to the buffer. -/
  adds : ∀ size relativeOff r r', readLevels tag size relativeOff (List.range levels) r = .ok r' →
    (r'.append divider).buffer.length = r.buffer.length + tagSize
  /-- What is taken off the offset when the tag is skipped is the length of its text. -/
  skip : ∀ t i size relativeOff r, t i = some tag → tagSize < relativeOff →
    (readTags t size [i] relativeOff r).2 + tag.text.length = relativeOff

/-- A tag that is read to its end adds its whole text. -/
theorem readLevels_adds {tag : Tag} {size relativeOff : ℕ} {r r' : Reading}
    (h : readLevels tag size relativeOff (List.range levels) r = .ok r') :
    (r'.append divider).buffer.length = r.buffer.length + tag.text.length := by
  have hspec := readLevels_spec tag size relativeOff (List.range levels) r
  rw [h] at hspec
  have htext : (r'.append divider).buffer = r.buffer ++ tag.text := by
    rw [Reading.append, hspec, Tag.text, Tag.rows, List.append_assoc]
  rw [htext, List.length_append]

/-- A tag that is skipped takes `TAG_SIZE` off the offset. -/
theorem readTags_skip {t : Table} {i : ℕ} {tag : Tag} (hi : t i = some tag) {relativeOff : ℕ}
    (h : tagSize < relativeOff) (size : ℕ) (r : Reading) :
    (readTags t size [i] relativeOff r).2 + tagSize = relativeOff := by
  rw [readTags, hi]
  dsimp only
  rw [if_pos h]
  exact Nat.sub_add_cancel h.le

/-- **When the text of a tag has the size that is skipped.** -/
theorem rows_match_skip_iff (tag : Tag) :
    RowsMatchSkip tag ↔ ¬ (2 ^ 31 ≤ tag.euid ∧ tag.euid ≤ 2 ^ 32 - 10 ^ 9) := by
  rw [← tag.wide_iff, Bool.not_eq_true]
  constructor
  · intro h
    have hline := h.line 0 (by decide)
    rw [tag.row_length (by decide)] at hline
    by_contra hwide
    rw [if_pos (by simpa using hwide)] at hline
    omega
  · intro hwide
    have htext : tag.text.length = tagSize := by
      rw [tag.text_length, hwide]
      rfl
    refine ⟨fun j hj => ?_, fun j hj => row_lt_temp tag hj, fun size relativeOff r r' h => ?_,
      fun t i size relativeOff r hi hoff => ?_⟩
    · rw [tag.row_length hj, hwide]
      rfl
    · rw [readLevels_adds h, htext]
    · rw [htext, readTags_skip hi hoff]

/-! ## An owner that is too wide

The first one: each line of its tag has one character too many. -/

/-- A tag of the first owner whose uid is negative as an `int`, with a receiver at each level. -/
def negativeOwner : Tag where
  key := 2
  euid := 2147483648
  waiting _ := 1
  key_range := by decide
  euid_lt := by decide
  waiting_range _ := by decide

/-- Its lines have 55 bytes, and it is skipped as if each had 54. -/
theorem rows_longer_than_skip :
    (negativeOwner.row 0).length = 55 ∧ negativeOwner.text.length = tagSize + 32 ∧
      ¬ RowsMatchSkip negativeOwner := by
  have hrow : (negativeOwner.row 0).length = 55 := by decide +kernel
  refine ⟨hrow, by decide +kernel, fun h => ?_⟩
  have hline := h.line 0 (by decide)
  rw [hrow, lineSize] at hline
  omega

end TagAos.Device
