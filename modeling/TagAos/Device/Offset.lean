import TagAos.Device.Read

/-!
# Which bytes are read at an offset

The header is emitted at the beginning of the buffer whether or not tags are skipped, so it stands
where the last line of the last skipped tag belongs.

* `textOf_length` — the skipped tags have `TAG_SIZE` characters each, and one more for each
  line of a tag whose owner does not fit in its column.
* `plus_newline` — in the listing, the end of a divider is found only at the end of the header or of
  a tag.
* `reads_right_iff` — at which offsets every read returns bytes of the listing, and at the other
  offsets which reads do.
-/

set_option autoImplicit false

namespace TagAos.Device

/-! ## Lengths

A tag with a wide owner is longer than `TAG_SIZE`, which is what the offset is counted in. -/

theorem textOf_cons (tag : Tag) (ts : List Tag) : textOf (tag :: ts) = tag.text ++ textOf ts := rfl

theorem textOf_append (ts us : List Tag) : textOf (ts ++ us) = textOf ts ++ textOf us :=
  List.flatMap_append

/-- The tags of a list whose owner does not fit in its column. -/
def wides (ts : List Tag) : ℕ := ts.countP Tag.wide

theorem wides_le (ts : List Tag) : wides ts ≤ ts.length := List.countP_le_length

theorem textOf_length (ts : List Tag) :
    (textOf ts).length = ts.length * tagSize + wides ts * levels := by
  induction ts with
  | nil => rfl
  | cons tag ts ih =>
    rw [textOf_cons, List.length_append, ih, tag.text_length, wides, wides, List.countP_cons,
      List.length_cons, Nat.succ_mul]
    by_cases h : tag.wide
    · rw [if_pos h, if_pos h, Nat.succ_mul]
      omega
    · rw [if_neg h, if_neg h]
      simp only [Nat.add_zero]
      omega

theorem live_length_le (t : Table) : (live t).length ≤ 256 := by
  have hle := List.length_filterMap_le t (List.range Registry.maxTags)
  rw [List.length_range] at hle
  exact hle

theorem skipped_length (t : Table) (off : ℕ) :
    (skipped t off).length = skips (live t).length off :=
  (List.length_take).trans (Nat.min_eq_left (skips_le _ _))

theorem live_eq (t : Table) (off : ℕ) : live t = skipped t off ++ unskipped t off :=
  (List.take_append_drop _ _).symm

theorem listing_eq (t : Table) (off : ℕ) :
    listing t = header ++ divider ++ (textOf (skipped t off) ++ textOf (unskipped t off)) := by
  rw [← textOf_append, ← live_eq, listing]

/-- The offset is what is left after `TAG_SIZE` for each skipped tag. -/
theorem leftOff_add (t : Table) (off : ℕ) :
    leftOff t off + (skipped t off).length * tagSize = off := by
  rw [skipped_length, leftOff]
  exact Nat.sub_add_cancel (skips_mul_le _ _)

/-! ## Where a divider ends

A divider can be told from all other text by its end.  So a text that begins in the middle of the
listing can be shown to be out of place. -/

/-- In bodies without the sign, each followed by a divider, the sign before a newline is at the end
of a divider. -/
theorem plus_newline_end {bodies : List (List Char)} (hbody : ∀ b ∈ bodies, '+' ∉ b) {i : ℕ}
    (hplus : (bodies.flatMap (· ++ divider))[i]? = some '+')
    (hnewline : (bodies.flatMap (· ++ divider))[i + 1]? = some '\n') :
    ∃ m, 0 < m ∧ m ≤ bodies.length ∧
      i + 2 = ((bodies.take m).flatMap (· ++ divider)).length := by
  induction bodies generalizing i with
  | nil => cases hplus
  | cons b bs ih =>
    have hlen : (b ++ divider).length = b.length + 54 := by
      rw [List.length_append, divider_length, lineSize]
    rw [List.flatMap_cons] at hplus hnewline
    rcases Nat.lt_or_ge i b.length with hi | hi
    · -- inside the body
      rw [List.getElem?_append_left (by omega), List.getElem?_append_left hi] at hplus
      exact absurd (List.mem_of_getElem? hplus) (hbody b List.mem_cons_self)
    rcases Nat.lt_or_ge i (b.length + 54) with hi' | hi'
    · -- inside the divider
      rw [List.getElem?_append_left (by omega), List.getElem?_append_right hi] at hplus
      have hlast : ∀ j < 53, divider[j]? = some '+' → divider[j + 1]? = some '\n' → j = 52 := by
        decide
      have hend : divider[53]? ≠ some '+' := by decide
      have hj : i - b.length < 53 := by
        by_contra hj
        exact hend ((show i - b.length = 53 by omega) ▸ hplus)
      rw [List.getElem?_append_left (by omega), List.getElem?_append_right (by omega),
        Nat.sub_add_comm hi] at hnewline
      have := hlast _ hj hplus hnewline
      refine ⟨1, Nat.one_pos, by simp, ?_⟩
      rw [List.take_succ_cons, List.take_zero, List.flatMap_singleton, hlen]
      omega
    · -- after it
      rw [List.getElem?_append_right (by omega)] at hplus hnewline
      rw [hlen, Nat.sub_add_comm hi'] at hnewline
      rw [hlen] at hplus
      obtain ⟨m, -, hm, heq⟩ :=
        ih (fun b hb => hbody b (List.mem_cons_of_mem _ hb)) hplus hnewline
      refine ⟨m + 1, m.succ_pos, by simpa using hm, ?_⟩
      rw [List.take_succ_cons, List.flatMap_cons, List.length_append, hlen, ← heq]
      omega

/-- The header and the lines of each tag. -/
def bodies (ts : List Tag) : List (List Char) := header :: ts.map Tag.rows

theorem bodies_text (ts : List Tag) :
    (bodies ts).flatMap (· ++ divider) = header ++ divider ++ textOf ts := by
  rw [bodies, List.flatMap_cons, List.flatMap_map]
  rfl

/-- **In the listing a divider ends only after the header or after a tag.** -/
theorem plus_newline {t : Table} {i : ℕ} (hplus : (listing t)[i]? = some '+')
    (hnewline : (listing t)[i + 1]? = some '\n') :
    ∃ m ≤ (live t).length, i + 2 = 108 + m * tagSize + wides ((live t).take m) * levels := by
  rw [listing, ← bodies_text] at hplus hnewline
  have hbody : ∀ b ∈ bodies (live t), '+' ∉ b := by
    intro b hb
    rcases List.mem_cons.1 hb with rfl | hb
    · decide
    · obtain ⟨tag, -, rfl⟩ := List.mem_map.1 hb
      exact tag.not_mem_rows (.inr rfl)
  obtain ⟨m, hpos, hm, heq⟩ := plus_newline_end hbody hplus hnewline
  obtain ⟨m, rfl⟩ := Nat.exists_eq_add_of_lt hpos
  rw [Nat.zero_add] at hm heq
  rw [bodies, List.length_cons, List.length_map] at hm
  refine ⟨m, by omega, ?_⟩
  rw [heq, bodies, List.take_succ_cons, ← List.map_take, ← bodies, bodies_text,
    List.length_append, textOf_length, List.length_take, Nat.min_eq_left (by omega),
    ← Nat.add_assoc]
  rfl

/-! ## The place of a byte

The byte at an offset of the device should be the byte of the listing there.  What is read is
compared with the listing position by position. -/

/-- A read at an offset copies bytes of the listing. -/
def ReadsRight (t : Table) (size : ℕ) (off : ℤ) : Prop :=
  ∀ i b, (devRead t true size off).copied[i]? = some b → (listing t)[off.toNat + i]? = some b

/-- No owner of a skipped tag is too wide for its column. -/
def Narrow (t : Table) (off : ℕ) : Prop := ∀ tag ∈ skipped t off, tag.wide = false

/-- The columns of the header that are read show what the last line of the last skipped tag shows
there. -/
def SameColumns (t : Table) (size off : ℕ) : Prop :=
  ∀ tag, (skipped t off).getLast? = some tag → ∀ c, leftOff t off ≤ c → c < leftOff t off + size →
    c < lineSize + 1 → header[c]? = (tag.row (levels - 1))[c]?

theorem wides_eq_zero {t : Table} {off : ℕ} : wides (skipped t off) = 0 ↔ Narrow t off := by
  rw [wides, List.countP_eq_zero]
  simp [Narrow]

/-- What is copied, by position. -/
theorem copied_getElem? (t : Table) {size : ℕ} (hsize : 1 ≤ size) {off : ℤ} (hoff : 0 ≤ off) :
    ∃ q, q <+: textOf (unskipped t off.toNat) ∧
      (∀ i b, (devRead t true size off).copied[i]? = some b ↔
        i < size ∧ (header ++ divider ++ q)[leftOff t off.toNat + i]? = some b) ∧
      ((textOf (unskipped t off.toNat)).length ≤ sumSize size (leftOff t off.toNat) →
        q = textOf (unskipped t off.toNat)) := by
  obtain ⟨q, hq, hcopied, hall⟩ := devRead_copied t hsize hoff
  refine ⟨q, hq, fun i b => ?_, hall⟩
  rw [hcopied, List.getElem?_take, List.getElem?_drop]
  split_ifs with hi
  · exact ⟨fun h => ⟨hi, h⟩, And.right⟩
  · exact ⟨nofun, fun h => absurd h.1 hi⟩

/-- A place past the skipped text has what follows it, from the last line of the last skipped tag
on. -/
theorem listing_shift {t : Table} {off : ℕ} (hnarrow : Narrow t off) {tag : Tag}
    (hlast : (skipped t off).getLast? = some tag) (c : ℕ) :
    (listing t)[(skipped t off).length * tagSize + c]? =
      (tag.row (levels - 1) ++ (divider ++ textOf (unskipped t off)))[c]? := by
  obtain ⟨ts, hts⟩ := List.getLast?_eq_some_iff.1 hlast
  have hrows : tag.rows = (List.range (levels - 1)).flatMap tag.row ++ tag.row (levels - 1) := by
    rw [Tag.rows, show levels = levels - 1 + 1 from rfl, List.range_succ, List.flatMap_append,
      List.flatMap_singleton]
    rfl
  obtain ⟨before, hsplit⟩ : ∃ before, listing t =
      before ++ (tag.row (levels - 1) ++ (divider ++ textOf (unskipped t off))) := by
    refine ⟨header ++ divider ++ textOf ts ++ (List.range (levels - 1)).flatMap tag.row, ?_⟩
    rw [listing_eq t off, hts, textOf_append, textOf_cons, Tag.text, hrows]
    simp [textOf]
  have hlen : before.length = (skipped t off).length * tagSize := by
    have htotal := congrArg List.length (listing_eq t off)
    have hwides : wides (skipped t off) = 0 := wides_eq_zero.2 hnarrow
    have hrow : (tag.row (levels - 1)).length = lineSize + 1 := by
      have hmem : tag ∈ skipped t off := hts ▸ by simp
      rw [tag.row_length (by decide), hnarrow tag hmem]
      rfl
    rw [hsplit] at htotal
    simp only [List.length_append, hrow, header_length, divider_length] at htotal
    rw [textOf_length (skipped t off), hwides] at htotal
    omega
  rw [hsplit, List.getElem?_append_right (by omega), hlen, Nat.add_sub_cancel_left]

theorem getElem?_of_prefix {xs ys : List Char} (h : xs <+: ys) {i : ℕ} {b : Char}
    (hi : xs[i]? = some b) : ys[i]? = some b := by
  obtain ⟨zs, rfl⟩ := h
  obtain ⟨hlt, -⟩ := List.getElem?_eq_some_iff.1 hi
  rwa [List.getElem?_append_left hlt]

/-- Before the first skip the buffer is the beginning of the listing. -/
theorem readsRight_of_skipped_nil {t : Table} {size : ℕ} (hsize : 1 ≤ size) {off : ℤ}
    (hoff : 0 ≤ off) (h : skipped t off.toNat = []) : ReadsRight t size off := by
  obtain ⟨q, hq, hcopied, -⟩ := copied_getElem? t hsize hoff
  have hleft := leftOff_add t off.toNat
  rw [h, List.length_nil, Nat.zero_mul, Nat.add_zero] at hleft
  intro i b hi
  have hbyte := ((hcopied i b).1 hi).2
  rw [hleft] at hbyte
  rw [listing_eq t off.toNat, h]
  exact getElem?_of_prefix ((List.prefix_append_right_inj _).2 hq) hbyte

/-- **Which reads are right** after tags of the expected size are skipped. -/
theorem readsRight_iff_sameColumns {t : Table} {size : ℕ} (hsize : 1 ≤ size) {off : ℤ}
    (hoff : 0 ≤ off) (hnarrow : Narrow t off.toNat) :
    ReadsRight t size off ↔ SameColumns t size off.toNat := by
  cases hlast : (skipped t off.toNat).getLast? with
  | none =>
    have hnil : skipped t off.toNat = [] := List.getLast?_eq_none_iff.1 hlast
    refine ⟨fun _ tag htag => ?_, fun _ => readsRight_of_skipped_nil hsize hoff hnil⟩
    rw [hlast] at htag
    cases htag
  | some tag =>
    obtain ⟨q, hq, hcopied, -⟩ := copied_getElem? t hsize hoff
    have hrow : (tag.row (levels - 1)).length = lineSize + 1 := by
      rw [tag.row_length (by decide), hnarrow tag (List.mem_of_getLast? hlast)]
      rfl
    have hplace : ∀ i, (listing t)[off.toNat + i]? = (tag.row (levels - 1) ++
        (divider ++ textOf (unskipped t off.toNat)))[leftOff t off.toNat + i]? := by
      intro i
      rw [← listing_shift hnarrow hlast]
      congr 1
      have := leftOff_add t off.toNat
      omega
    constructor
    · intro hright tag' htag' c hc hcsize hcline
      obtain rfl : tag = tag' := Option.some.inj (hlast.symm.trans htag')
      obtain ⟨i, rfl⟩ := Nat.exists_eq_add_of_le hc
      obtain ⟨b, hb⟩ : ∃ b, header[leftOff t off.toNat + i]? = some b :=
        ⟨_, List.getElem?_eq_getElem hcline⟩
      have hread : (header ++ divider ++ q)[leftOff t off.toNat + i]? = some b := by
        rw [List.append_assoc, List.getElem?_append_left hcline, hb]
      have hbyte := hright i b ((hcopied i b).2 ⟨by omega, hread⟩)
      rw [hplace, List.getElem?_append_left (hrow ▸ hcline)] at hbyte
      rw [hb, hbyte]
    · intro hsame i b hi
      obtain ⟨hi, hbyte⟩ := (hcopied i b).1 hi
      rw [hplace]
      rw [List.append_assoc] at hbyte
      rcases Nat.lt_or_ge (leftOff t off.toNat + i) (lineSize + 1) with hc | hc
      · -- in the header
        rw [List.getElem?_append_left hc] at hbyte
        rw [List.getElem?_append_left (hrow ▸ hc),
          ← hsame tag hlast _ (Nat.le_add_right _ _) (by omega) hc, hbyte]
      · -- after it
        rw [List.getElem?_append_right hc, header_length] at hbyte
        rw [List.getElem?_append_right (hrow ▸ hc), hrow]
        exact getElem?_of_prefix ((List.prefix_append_right_inj _).2 hq) hbyte

/-- The header and a line end with the same three columns. -/
theorem header_getElem? (tag : Tag) (hwide : tag.wide = false) {j c : ℕ} (hj : j < levels)
    (hc : lineSize - 2 ≤ c) : header[c]? = (tag.row j)[c]? := by
  obtain ⟨s, hs⟩ : ∃ s, tag.row j = s ++ [' ', '|', '\n'] := ⟨_, rfl⟩
  have hlen : s.length = lineSize - 2 := by
    have := tag.row_length hj
    rw [hs, hwide, List.length_append] at this
    exact Nat.add_right_cancel this
  obtain ⟨c, rfl⟩ := Nat.exists_eq_add_of_le hc
  rw [hs, ← hlen, List.getElem?_append_right (Nat.le_add_right _ _), Nat.add_sub_cancel_left, hlen]
  match c with
  | 0 | 1 | 2 => rfl
  | c + 3 =>
    have hbefore : header.length ≤ lineSize - 2 + (c + 3) := by
      rw [header_length, lineSize]
      omega
    rw [List.getElem?_eq_none hbefore]
    rfl

/-- The header has a letter in its column 50, and no line has. -/
theorem header_ne (tag : Tag) (j : ℕ) : header[50]? ≠ (tag.row j)[50]? := by
  intro h
  have hmem : 'T' ∈ tag.row j := List.mem_of_getElem? (h.symm.trans rfl)
  have := mem_rowText hmem
  revert this
  decide

/-- The whole text that a long read can copy. -/
def emitted (t : Table) (off : ℕ) : List Char := header ++ divider ++ textOf (unskipped t off)

theorem emitted_length (t : Table) (off : ℕ) :
    (emitted t off).length =
      108 + (unskipped t off).length * tagSize + wides (unskipped t off) * levels := by
  rw [emitted, List.length_append, textOf_length, ← Nat.add_assoc]
  rfl

/-- It ends with a divider. -/
theorem emitted_end (t : Table) (off : ℕ) : ∃ s, emitted t off = s ++ divider := by
  rcases List.eq_nil_or_concat (unskipped t off) with h | ⟨ts, tag, h⟩
  · exact ⟨header, by rw [emitted, h]; rfl⟩
  · refine ⟨header ++ divider ++ (textOf ts ++ tag.rows), ?_⟩
    rw [emitted, h, List.concat_eq_append, textOf_append]
    simp [textOf, Tag.text]

theorem unskipped_length_le (t : Table) (off : ℕ) : (unskipped t off).length ≤ 256 := by
  rw [unskipped, List.length_drop]
  exact (Nat.sub_le _ _).trans (live_length_le t)

/-- A read that is long enough copies it from the offset that is left. -/
theorem emitted_getElem? {t : Table} {off : ℤ} (hoff : 0 ≤ off)
    (hleft : leftOff t off.toNat ≤ tagSize)
    (hright : ∀ size, 1 ≤ size → ReadsRight t size off) {c : ℕ} {b : Char}
    (hc : leftOff t off.toNat ≤ c) (hb : (emitted t off.toNat)[c]? = some b) :
    (listing t)[(skipped t off.toNat).length * tagSize + c]? = some b := by
  obtain ⟨q, -, hcopied, hall⟩ := copied_getElem? t (show 1 ≤ 2 ^ 20 by decide) hoff
  have hlen : (emitted t off.toNat).length ≤ 2 ^ 19 := by
    have h1 := unskipped_length_le t off.toNat
    have h2 := wides_le (unskipped t off.toNat)
    rw [emitted_length, tagSize, lineSize, levels]
    omega
  have hfit : (textOf (unskipped t off.toNat)).length ≤ sumSize (2 ^ 20) (leftOff t off.toNat) := by
    rw [emitted, List.length_append] at hlen
    rw [sumSize, Nat.mod_eq_of_lt]
    · omega
    · have : tagSize = 1782 := rfl
      omega
  obtain ⟨i, rfl⟩ := Nat.exists_eq_add_of_le hc
  obtain ⟨hlt, -⟩ := List.getElem?_eq_some_iff.1 hb
  have hbyte := hright _ (by decide) i b ((hcopied i b).2 ⟨by omega, by rw [hall hfit]; exact hb⟩)
  rw [← hbyte]
  congr 1
  have := leftOff_add t off.toNat
  omega

/-- **After a tag with a wide owner is skipped**, a long read goes wrong before its last byte. -/
theorem wide_left {t : Table} {off : ℤ} (hoff : 0 ≤ off) (hwide : ¬ Narrow t off.toNat)
    (hleft : leftOff t off.toNat ≤ tagSize)
    (hright : ∀ size, 1 ≤ size → ReadsRight t size off) :
    (emitted t off.toNat).length ≤ leftOff t off.toNat + 1 := by
  by_contra hlong
  obtain ⟨s, hs⟩ := emitted_end t off.toNat
  have hslen : (emitted t off.toNat).length = s.length + 54 := by
    rw [hs, List.length_append, divider_length, lineSize]
  have hend : ∀ j, (emitted t off.toNat)[s.length + j]? = divider[j]? := by
    intro j
    rw [hs, List.getElem?_append_right (Nat.le_add_right _ _), Nat.add_sub_cancel_left]
  have hplus := emitted_getElem? hoff hleft hright (c := s.length + 52) (b := '+') (by omega)
    (hend 52)
  have hnewline := emitted_getElem? hoff hleft hright (c := s.length + 53) (b := '\n') (by omega)
    (hend 53)
  obtain ⟨m, hm, heq⟩ := plus_newline hplus (by rw [Nat.add_assoc, Nat.add_assoc]; exact hnewline)
  -- the divider ends after `m` tags: count the characters from both sides
  have htotal : (live t).length = (skipped t off.toNat).length + (unskipped t off.toNat).length := by
    rw [← List.length_append, ← live_eq]
  have hwides : wides (live t) = wides (skipped t off.toNat) + wides (unskipped t off.toNat) := by
    conv_lhs => rw [live_eq t off.toNat]
    exact List.countP_append
  have h1 := live_length_le t
  have h2 := (wides_le ((live t).take m)).trans (List.length_take_le _ _)
  have h3 := wides_le (unskipped t off.toNat)
  have hpos : wides (skipped t off.toNat) ≠ 0 := mt wides_eq_zero.1 hwide
  have hsize := emitted_length t off.toNat
  rw [show tagSize = 1782 from rfl, show levels = 32 from rfl] at hsize heq
  have hall : m = (live t).length := by omega
  rw [hall, List.take_length] at heq
  omega

/-! ## The offsets at which reads are right

First for one read of a given size, then for all sizes at an offset.  A short read may be right by
chance: the header and a line have some columns in common. -/

/-- Every read at the offset is right: nothing is skipped; or the skipped tags have the expected
size and what is left of the offset is past the letters of the header; or every tag is skipped and
there is nothing left to copy, or only a newline. -/
def OffsetRight (t : Table) (off : ℕ) : Prop :=
  skipped t off = [] ∨
    Narrow t off ∧ 51 ≤ leftOff t off ∨
      unskipped t off = [] ∧
        (108 ≤ leftOff t off ∨ leftOff t off = 107 ∧ (listing t)[off]? = some '\n')

theorem OffsetRight.readsRight {t : Table} {off : ℤ} (h : OffsetRight t off.toNat)
    (hoff : 0 ≤ off) {size : ℕ} (hsize : 1 ≤ size) : ReadsRight t size off := by
  rcases h with hnil | ⟨hnarrow, hleft⟩ | ⟨hnil, hleft⟩
  · exact readsRight_of_skipped_nil hsize hoff hnil
  · rw [readsRight_iff_sameColumns hsize hoff hnarrow]
    intro tag htag c hc _ _
    exact header_getElem? tag (hnarrow tag (List.mem_of_getLast? htag)) (by decide)
      (hleft.trans hc)
  · obtain ⟨q, hq, hcopied, -⟩ := copied_getElem? t hsize hoff
    rw [hnil] at hq
    obtain rfl : q = [] := List.prefix_nil.1 hq
    intro i b hi
    obtain ⟨-, hbyte⟩ := (hcopied i b).1 hi
    have hlt : leftOff t off.toNat + i < 108 := (List.getElem?_eq_some_iff.1 hbyte).1
    rcases hleft with hleft | ⟨hleft, hnewline⟩
    · omega
    · obtain rfl : i = 0 := by omega
      rw [hleft] at hbyte
      rw [Nat.add_zero, hnewline, ← hbyte]
      rfl

/-- **Where and when a read is right.**  When the skipped tags have the expected size, a read is
right if and only if the columns of the header that it copies are those of the line whose place the
header takes.  The offsets at which every read is right are those of `OffsetRight`. -/
theorem reads_right_iff (t : Table) (off : ℤ) (hoff : 0 ≤ off) :
    (Narrow t off.toNat → ∀ size, 1 ≤ size →
      (ReadsRight t size off ↔ SameColumns t size off.toNat)) ∧
    ((∀ size, 1 ≤ size → ReadsRight t size off) ↔ OffsetRight t off.toNat) := by
  refine ⟨fun hnarrow size hsize => readsRight_iff_sameColumns hsize hoff hnarrow,
    fun hright => ?_, fun h size hsize => h.readsRight hoff hsize⟩
  by_cases hnarrow : Narrow t off.toNat
  · cases hlast : (skipped t off.toNat).getLast? with
    | none => exact .inl (List.getLast?_eq_none_iff.1 hlast)
    | some tag =>
      refine .inr (.inl ⟨hnarrow, not_lt.1 fun hleft => ?_⟩)
      -- a read of 51 bytes copies the last letter of the header
      have hsame := (readsRight_iff_sameColumns (show 1 ≤ 51 by decide) hoff hnarrow).1
        (hright 51 (by decide))
      exact header_ne tag _ (hsame tag hlast 50 (by omega) (by omega) (by decide))
  · rcases List.eq_nil_or_concat (unskipped t off.toNat) with hnil | ⟨ts, tag, hcons⟩
    · rcases Nat.lt_or_ge (leftOff t off.toNat) 108 with hlt | hge
      · have hleft : leftOff t off.toNat ≤ tagSize := hlt.le.trans (by decide)
        have hend := wide_left hoff hnarrow hleft hright
        rw [emitted_length, hnil] at hend
        have h107 : leftOff t off.toNat = 107 := by simp at hend; omega
        refine .inr (.inr ⟨hnil, .inr ⟨h107, ?_⟩⟩)
        have := emitted_getElem? hoff hleft hright (c := 107) (b := '\n') h107.le
          (by rw [emitted, hnil]; rfl)
        rwa [← h107, Nat.add_comm, leftOff_add] at this
      · exact .inr (.inr ⟨hnil, .inl hge⟩)
    · exfalso
      have hne : skips (live t).length off.toNat < (live t).length := by
        by_contra hge
        have hnil : unskipped t off.toNat = [] := List.drop_of_length_le (not_lt.1 hge)
        rw [hnil] at hcons
        simp at hcons
      have hleft := sub_skips_le hne
      have hend := wide_left hoff hnarrow hleft hright
      rw [emitted_length, hcons, List.length_concat, Nat.succ_mul] at hend
      rw [leftOff] at hend
      omega

/-! ## One tag

The smallest table, and an offset at which the device goes wrong. -/

/-- A tag with no receiver. -/
def quiet : Tag where
  key := 1
  euid := 1000
  waiting _ := 0
  key_range := by decide
  euid_lt := by decide
  waiting_range _ := by decide

/-- A table with one tag. -/
def oneTag : Table := fun i => if i = 0 then some quiet else none

theorem reads_right_iff_oneTag :
    (Narrow oneTag 1792 → ∀ size, 1 ≤ size →
      (ReadsRight oneTag size 1792 ↔ SameColumns oneTag size 1792)) ∧
    ((∀ size, 1 ≤ size → ReadsRight oneTag size 1792) ↔ OffsetRight oneTag 1792) :=
  reads_right_iff oneTag 1792 (by decide)

/-- Ten characters into the last line of the only tag, the device reads a letter of the header. -/
theorem header_read_again :
    (devRead oneTag true 1 1792).copied = ['E'] ∧ (listing oneTag)[1792]? = some ' ' ∧
      ¬ ReadsRight oneTag 1 1792 := by
  have hcopied : (devRead oneTag true 1 1792).copied = ['E'] := by decide +kernel
  have hlisting : (listing oneTag)[1792]? = some ' ' := by decide +kernel
  refine ⟨hcopied, hlisting, fun hright => ?_⟩
  have hbyte := hright 0 'E' (by rw [hcopied]; rfl)
  rw [show (1792 : ℤ).toNat + 0 = 1792 from rfl, hlisting] at hbyte
  cases hbyte

end TagAos.Device
