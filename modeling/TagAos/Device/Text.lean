import TagAos.Tag.Instr
import Mathlib.Data.List.Basic

/-!
# The text of the device

The device shows one line for each level of each live tag.  A line has four columns, right-aligned
to at least ten characters; the lines of a tag are followed by a divider, and a header and a
divider come first.

`Reading` is the buffer that `dev_read` builds, with the counters it keeps beside it, and
`Reading.append` is `append_buffer`.
-/

set_option autoImplicit false

namespace TagAos.Device

/-! ## Constants

From `tag-dev-driver.h`. -/

/-- `CHAR_BLOCK`. -/
def charBlock : ℕ := 4096

/-- `LINE_SIZE`. -/
def lineSize : ℕ := 53

/-- `TAG_SIZE`. -/
def tagSize : ℕ := (lineSize + 1) * (levels + 1)

/-! ## Lines

`printf` as far as it is used: strings and integers, right-aligned to ten characters. -/

/-- `%10s`. -/
def pad (s : List Char) : List Char := List.replicate (10 - s.length) ' ' ++ s

/-- `%d`. -/
def decimal : ℤ → List Char
  | .ofNat n => Nat.toDigits 10 n
  | .negSucc n => '-' :: Nat.toDigits 10 (n + 1)

/-- A line with four columns: `"| %10s | %10s | %10s | %10s |\n"`. -/
def line (a b c d : List Char) : List Char :=
  ['|', ' '] ++ pad a ++ [' ', '|', ' '] ++ pad b ++ [' ', '|', ' '] ++ pad c ++
    [' ', '|', ' '] ++ pad d ++ [' ', '|', '\n']

/-- The header. -/
def header : List Char :=
  line ['K', 'E', 'Y'] ['E', 'U', 'I', 'D'] ['L', 'E', 'V', 'E', 'L'] ['W', 'A', 'I', 'T']

/-- The divider. -/
def divider : List Char := ['+'] ++ List.replicate (lineSize - 2) '-' ++ ['+', '\n']

/-- The line of level `j` of a tag.  The effective uid goes through an `int`. -/
def rowText (key : ℤ) (euid j : ℕ) (waiting : ℤ) : List Char :=
  line (decimal key) (decimal (toInt euid)) (decimal j) (decimal waiting)

theorem header_length : header.length = lineSize + 1 := rfl

theorem divider_length : divider.length = lineSize + 1 := rfl

/-! ## What a line consists of

Lengths, and which characters can occur: with them texts are told apart. -/

theorem pad_length (s : List Char) : (pad s).length = max 10 s.length := by
  rw [pad, List.length_append, List.length_replicate]
  omega

theorem line_length (a b c d : List Char) :
    (line a b c d).length =
      14 + (pad a).length + (pad b).length + (pad c).length + (pad d).length := by
  simp only [line, List.length_append, List.length_cons, List.length_nil]
  omega

theorem mem_pad {s : List Char} {ch : Char} (h : ch ∈ pad s) : ch = ' ' ∨ ch ∈ s := by
  rw [pad, List.mem_append, List.mem_replicate] at h
  exact h.imp_left And.right

theorem mem_decimal {n : ℤ} {ch : Char} (h : ch ∈ decimal n) : ch.isDigit = true ∨ ch = '-' := by
  have hdigit : ∀ m, ch ∈ Nat.toDigits 10 m → ch.isDigit = true :=
    fun m hm => Nat.isDigit_of_mem_toDigits (by decide) (by decide) hm
  cases n with
  | ofNat m => exact .inl (hdigit m h)
  | negSucc m =>
    rcases List.mem_cons.1 h with rfl | h
    · exact .inr rfl
    · exact .inl (hdigit _ h)

theorem mem_line {a b c d : List Char} {ch : Char} (h : ch ∈ line a b c d) :
    ch = '|' ∨ ch = ' ' ∨ ch = '\n' ∨ ch ∈ a ∨ ch ∈ b ∨ ch ∈ c ∨ ch ∈ d := by
  simp only [line, List.mem_append, List.mem_cons, List.not_mem_nil, or_false] at h
  have ha := @mem_pad a ch
  have hb := @mem_pad b ch
  have hc := @mem_pad c ch
  have hd := @mem_pad d ch
  grind

/-- A line of a tag has digits and signs in its columns. -/
theorem mem_rowText {key waiting : ℤ} {euid j : ℕ} {ch : Char}
    (h : ch ∈ rowText key euid j waiting) :
    ch = '|' ∨ ch = ' ' ∨ ch = '\n' ∨ ch.isDigit = true ∨ ch = '-' := by
  rcases mem_line h with h | h | h | h | h | h | h
  · exact .inl h
  · exact .inr (.inl h)
  · exact .inr (.inr (.inl h))
  all_goals exact .inr (.inr (.inr (mem_decimal h)))

theorem decimal_length_le {n : ℤ} (h0 : 0 ≤ n) (h : n < 2 ^ 31) : (decimal n).length ≤ 10 := by
  obtain ⟨m, rfl⟩ := Int.eq_ofNat_of_zero_le h0
  exact (Nat.length_toDigits_le_iff (by decide) (by decide)).2 (by omega)

/-- The column of an `int` is one character too wide from `-10 ^ 9` down. -/
theorem pad_decimal_length {n : ℤ} (h0 : -2 ^ 31 ≤ n) (h : n < 2 ^ 31) :
    (pad (decimal n)).length = if n ≤ -10 ^ 9 then 11 else 10 := by
  rw [pad_length]
  cases n with
  | ofNat m =>
    have hlen : (decimal (.ofNat m)).length ≤ 10 :=
      decimal_length_le (Int.natCast_nonneg m) h
    have hpos : ¬ Int.ofNat m ≤ -10 ^ 9 := by
      show ¬ (m : ℤ) ≤ -10 ^ 9
      omega
    rw [if_neg hpos]
    omega
  | negSucc m =>
    have hle : (Nat.toDigits 10 (m + 1)).length ≤ 10 :=
      (Nat.length_toDigits_le_iff (by decide) (by decide)).2 (by omega)
    have hnine : (Nat.toDigits 10 (m + 1)).length ≤ 9 ↔ m + 1 < 10 ^ 9 :=
      Nat.length_toDigits_le_iff (by decide) (by decide)
    rw [decimal, List.length_cons]
    split_ifs with hm <;> omega

/-! ## The text of a tag

The fields that are shown, with their types in the source as part of the data. -/

/-- What `dev_read` shows of a live tag. -/
structure Tag where
  /-- `tag_entry->key`. -/
  key : ℤ
  /-- `tag_entry->euid`. -/
  euid : ℕ
  /-- `waiting` of the current instance of each level. -/
  waiting : ℕ → ℤ
  /-- A key is an `int` that is not negative. -/
  key_range : 0 ≤ key ∧ key < 2 ^ 31
  /-- An effective uid has 32 bits. -/
  euid_lt : euid < 2 ^ 32
  /-- A counter is an `int` that is not negative. -/
  waiting_range : ∀ j, 0 ≤ waiting j ∧ waiting j < 2 ^ 31

namespace Tag

variable (tag : Tag)

/-- The line of level `j`. -/
def row (j : ℕ) : List Char := rowText tag.key tag.euid j (tag.waiting j)

/-- The lines of all levels. -/
def rows : List Char := (List.range levels).flatMap tag.row

/-- The lines of the tag, and its divider. -/
def text : List Char := tag.rows ++ divider

/-- The owner of the tag does not fit in its column. -/
def wide : Bool := toInt tag.euid ≤ -10 ^ 9

theorem row_length {j : ℕ} (hj : j < levels) :
    (tag.row j).length = lineSize + 1 + if tag.wide then 1 else 0 := by
  have h1 : (pad (decimal tag.key)).length = 10 := by
    rw [pad_length]
    have := decimal_length_le tag.key_range.1 tag.key_range.2
    omega
  have h2 : (pad (decimal j)).length = 10 := by
    rw [pad_length]
    have := decimal_length_le (n := j) (by omega) (by rw [levels] at hj; omega)
    omega
  have h3 : (pad (decimal (tag.waiting j))).length = 10 := by
    rw [pad_length]
    have := decimal_length_le (tag.waiting_range j).1 (tag.waiting_range j).2
    omega
  have hint := toInt_range tag.euid
  have h4 := pad_decimal_length hint.1 hint.2
  rw [row, rowText, line_length, h1, h2, h3, h4, lineSize]
  simp only [wide, decide_eq_true_eq]
  by_cases hwide : toInt tag.euid ≤ -10 ^ 9
  · rw [if_pos hwide, if_pos hwide]
  · rw [if_neg hwide, if_neg hwide]

theorem rows_length : tag.rows.length = levels * (lineSize + 1 + if tag.wide then 1 else 0) := by
  have hall : ∀ n ≤ levels, ((List.range n).flatMap tag.row).length =
      n * (lineSize + 1 + if tag.wide then 1 else 0) := by
    intro n
    induction n with
    | zero => intro _; simp
    | succ n ih =>
      intro hn
      rw [List.range_succ, List.flatMap_append, List.length_append, ih (by omega),
        List.flatMap_singleton, tag.row_length hn, Nat.succ_mul]
  exact hall levels le_rfl

theorem text_length : tag.text.length = tagSize + if tag.wide then levels else 0 := by
  rw [text, List.length_append, tag.rows_length, divider_length]
  cases tag.wide <;> rfl

/-- Neither the header's letters nor the ends of a divider occur in the lines of a tag. -/
theorem not_mem_rows {ch : Char} (h : ch = 'T' ∨ ch = '+') : ch ∉ tag.rows := by
  intro hmem
  obtain ⟨j, -, hj⟩ := List.mem_flatMap.1 hmem
  have := mem_rowText hj
  rcases h with rfl | rfl <;> revert this <;> decide

end Tag

/-! ## The buffer

A buffer with room for its text.  Whether there is room is the subject of `TagAos.Device.Buffer`. -/

/-- The buffer of `dev_read`. -/
structure Reading where
  /-- The text in the buffer, up to the terminating zero. -/
  buffer : List Char
  /-- `nbytes`. -/
  nbytes : ℕ
  /-- `curr_block`: the buffer has room for `CHAR_BLOCK * curr_block` characters. -/
  currBlock : ℕ

/-- `append_buffer`, when the allocation succeeds. -/
def Reading.append (r : Reading) (source : List Char) : Reading :=
  let nbytes := r.nbytes + source.length
  -- the text moves to a larger buffer
  let currBlock := if charBlock * r.currBlock < nbytes then r.currBlock + 1 else r.currBlock
  ⟨r.buffer ++ source, nbytes, currBlock⟩

/-- The buffer with the header and the first divider.  They are not counted in `nbytes`. -/
def Reading.start : Reading := ⟨header ++ divider, 0, 1⟩

end TagAos.Device
