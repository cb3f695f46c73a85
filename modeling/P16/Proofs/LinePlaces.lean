import Mathlib.Data.List.Basic
import P16.Source.LineIndex

/-!
# Lines and columns of offsets

The line of an offset is one more than the number of line breaks before it, and its column counts
the bytes behind the last of them. Offsets behind the end of the text are on its last line. The one
offset of 32 bits for which this is not so is behind as many line breaks as fit before it
(`line_zero_behind_breaks`).

A text is looked at byte by byte here. The byte of a line break is never a part of another
character, so the line starts are those that the characters give (`starts_ofString`). The starts
before an offset are the starts of the bytes before it (`startsAfter_split`), and everything about
lines and columns follows from that.
-/

namespace P16

def lineBreakByte : UInt8 := 10

def bytesOf (source : String) : List UInt8 := source.toByteArray.data.toList

/-- The offsets just after each line break, for bytes that begin at `offset`. -/
def startsAfter : Nat → List UInt8 → List Nat
  | _, [] => []
  | offset, b :: bs =>
    if b = lineBreakByte then (offset + 1) :: startsAfter (offset + 1) bs
    else startsAfter (offset + 1) bs

section startsAfter

variable {offset start n : Nat} {bs cs : List UInt8}

theorem startsAfter_append (offset : Nat) (bs cs : List UInt8) :
    startsAfter offset (bs ++ cs) =
      startsAfter offset bs ++ startsAfter (offset + bs.length) cs := by
  induction bs generalizing offset with
  | nil => rfl
  | cons b bs ih =>
      have hnext : offset + (b :: bs).length = offset + 1 + bs.length := by
        rw [List.length_cons]
        omega
      rw [List.cons_append, startsAfter, startsAfter, ih, hnext]
      split
      · rfl
      · rfl

theorem startsAfter_of_not_mem (h : lineBreakByte ∉ bs) : startsAfter offset bs = [] := by
  induction bs generalizing offset with
  | nil => rfl
  | cons b bs ih =>
      rw [List.mem_cons, not_or] at h
      rw [startsAfter, if_neg (Ne.symm h.1), ih h.2]

theorem length_startsAfter (offset : Nat) (bs : List UInt8) :
    (startsAfter offset bs).length = bs.count lineBreakByte := by
  induction bs generalizing offset with
  | nil => rfl
  | cons b bs ih =>
      rw [startsAfter, List.count_cons]
      split
      · next hb => rw [List.length_cons, ih, hb, beq_self_eq_true, if_pos rfl]
      · next hb => rw [ih, beq_eq_false_iff_ne.mpr hb, if_neg Bool.false_ne_true, Nat.add_zero]

theorem bounds_of_mem_startsAfter (h : start ∈ startsAfter offset bs) :
    offset < start ∧ start ≤ offset + bs.length := by
  induction bs generalizing offset with
  | nil => exact absurd h List.not_mem_nil
  | cons b bs ih =>
      rw [List.length_cons]
      rw [startsAfter] at h
      split at h
      · rcases List.mem_cons.mp h with rfl | h
        · omega
        · have := ih h
          omega
      · have := ih h
        omega

theorem pairwise_startsAfter (offset : Nat) (bs : List UInt8) :
    (startsAfter offset bs).Pairwise (· < ·) := by
  induction bs generalizing offset with
  | nil => exact .nil
  | cons b bs ih =>
      rw [startsAfter]
      split
      · exact .cons (fun start h => (bounds_of_mem_startsAfter h).1) (ih _)
      · exact ih _

/-- The starts up to an offset are those of the bytes before it, and the others lie behind it. -/
theorem startsAfter_split (bs : List UInt8) (n : Nat) :
    ∃ after, startsAfter 0 bs = startsAfter 0 (bs.take n) ++ after ∧
      ∀ start ∈ after, n < start := by
  refine ⟨startsAfter (0 + (bs.take n).length) (bs.drop n), ?_, fun start h => ?_⟩
  · rw [← startsAfter_append, List.take_append_drop]
  · have hlt := bounds_of_mem_startsAfter h
    rw [List.length_take, List.length_drop] at hlt
    omega

theorem le_of_mem_startsAfter_take (h : start ∈ startsAfter 0 (bs.take n)) : start ≤ n := by
  have hle := (bounds_of_mem_startsAfter h).2
  rw [List.length_take] at hle
  omega

end startsAfter

section bytes

theorem utf8EncodeChar_lineBreak : String.utf8EncodeChar '\n' = [lineBreakByte] := by decide

theorem lineBreakByte_not_mem_map (ns : List Nat) (h : ∀ n ∈ ns, n % 256 ≠ 10) :
    lineBreakByte ∉ ns.map UInt8.ofNat := by
  intro hmem
  obtain ⟨n, hn, heq⟩ := List.mem_map.mp hmem
  apply h n hn
  rw [← UInt8.toNat_ofNat', heq]
  rfl

/-- No other character has the byte of a line break in it. -/
theorem lineBreakByte_not_mem {c : Char} (h : c ≠ '\n') :
    lineBreakByte ∉ String.utf8EncodeChar c := by
  have hval : c.val.toNat ≠ 10 := fun heq => h (Char.ext (UInt32.toNat_inj.mp heq))
  -- one case for each number of bytes
  unfold String.utf8EncodeChar
  dsimp only
  generalize c.val.toNat = v at hval
  split
  · exact lineBreakByte_not_mem_map [v] (by simpa using by omega)
  split
  · exact lineBreakByte_not_mem_map [v / 64 % 32 + 192, v % 64 + 128]
      (by simp only [List.mem_cons, List.not_mem_nil, or_false, forall_eq_or_imp, forall_eq]; omega)
  split
  · exact lineBreakByte_not_mem_map [v / 4096 % 16 + 224, v / 64 % 64 + 128, v % 64 + 128]
      (by simp only [List.mem_cons, List.not_mem_nil, or_false, forall_eq_or_imp, forall_eq]; omega)
  · exact lineBreakByte_not_mem_map
      [v / 262144 % 8 + 240, v / 4096 % 64 + 128, v / 64 % 64 + 128, v % 64 + 128]
      (by simp only [List.mem_cons, List.not_mem_nil, or_false, forall_eq_or_imp, forall_eq]; omega)

theorem lineStartsFrom_eq (offset : Nat) (cs : List Char) :
    lineStartsFrom offset cs = startsAfter offset (cs.flatMap String.utf8EncodeChar) := by
  induction cs generalizing offset with
  | nil => rfl
  | cons c cs ih =>
      rw [lineStartsFrom, List.flatMap_cons, startsAfter_append, String.length_utf8EncodeChar]
      split
      · next hc =>
          rw [hc, utf8EncodeChar_lineBreak, ih]
          rfl
      · next hc => rw [startsAfter_of_not_mem (lineBreakByte_not_mem hc), ih, List.nil_append]

theorem bytesOf_eq (source : String) :
    bytesOf source = source.toList.flatMap String.utf8EncodeChar := by
  rw [bytesOf, ← String.utf8Encode_toList, List.utf8Encode]
  simp

theorem LineIndex.starts_ofString (source : String) :
    (ofString source).starts = 0 :: startsAfter 0 (bytesOf source) := by
  rw [bytesOf_eq, ← lineStartsFrom_eq]
  rfl

end bytes

/-- How many line breaks are before an offset. -/
def breaksBefore (bs : List UInt8) (offset : Nat) : Nat := (bs.take offset).count lineBreakByte

/-- The line of `offset` begins at `start`: behind the last line break before it, or at the first
byte if there is none. -/
structure IsLineStart (bs : List UInt8) (offset start : Nat) : Prop where
  le : start ≤ offset
  begins : start = 0 ∨ ∃ p, start = p + 1 ∧ bs[p]? = some lineBreakByte
  unbroken : ∀ p, start ≤ p → p < offset → bs[p]? ≠ some lineBreakByte

/-- The last of the starts up to an offset. -/
def lineStart (bs : List UInt8) (offset : Nat) : Nat :=
  (0 :: startsAfter 0 (bs.take offset)).getLastD 0

section lineStart

variable {bs : List UInt8} {offset offset' : Nat}

theorem lineStart_succ_of_break (h : bs[offset]? = some lineBreakByte) :
    lineStart bs (offset + 1) = offset + 1 := by
  have hlength : (bs.take offset).length = offset :=
    List.length_take_of_le (Nat.le_of_lt (List.getElem?_eq_some_iff.mp h).1)
  have hone : startsAfter (0 + offset) [lineBreakByte] = [offset + 1] := by
    simp [startsAfter]
  rw [lineStart, List.take_add_one, h, startsAfter_append, hlength, Option.toList_some, hone,
    ← List.cons_append, List.getLastD_concat]

theorem lineStart_succ_of_ne (h : bs[offset]? ≠ some lineBreakByte) :
    lineStart bs (offset + 1) = lineStart bs offset := by
  have hnone : lineBreakByte ∉ bs[offset]?.toList := by
    rwa [Option.mem_toList]
  rw [lineStart, List.take_add_one, startsAfter_append, startsAfter_of_not_mem hnone,
    List.append_nil]
  rfl

/-- With each byte the line goes on, or a new one begins behind it. -/
theorem isLineStart_lineStart (bs : List UInt8) (offset : Nat) :
    IsLineStart bs offset (lineStart bs offset) := by
  induction offset with
  | zero => exact ⟨Nat.le_refl 0, .inl rfl, fun p _ hp => absurd hp (Nat.not_lt_zero p)⟩
  | succ offset ih =>
      by_cases hbreak : bs[offset]? = some lineBreakByte
      · rw [lineStart_succ_of_break hbreak]
        exact ⟨Nat.le_refl _, .inr ⟨offset, rfl, hbreak⟩, fun p hle hlt => by omega⟩
      · rw [lineStart_succ_of_ne hbreak]
        refine ⟨Nat.le_succ_of_le ih.le, ih.begins, fun p hle hlt => ?_⟩
        rcases Nat.lt_succ_iff_lt_or_eq.mp hlt with hlt | rfl
        · exact ih.unbroken p hle hlt
        · exact hbreak

theorem lineStart_eq_of_breaksBefore (hle : offset ≤ offset')
    (h : breaksBefore bs offset = breaksBefore bs offset') :
    lineStart bs offset = lineStart bs offset' := by
  obtain ⟨after, hafter, -⟩ := startsAfter_split (bs.take offset') offset
  rw [List.take_take, Nat.min_eq_left hle] at hafter
  have hlength := congrArg List.length hafter
  rw [List.length_append, length_startsAfter, length_startsAfter] at hlength
  have hnil : after = [] := List.eq_nil_of_length_eq_zero (by unfold breaksBefore at h; omega)
  rw [lineStart, lineStart, hafter, hnil, List.append_nil]

theorem breaksBefore_le (bs : List UInt8) (offset : Nat) : breaksBefore bs offset ≤ offset :=
  Nat.le_trans List.count_le_length (List.length_take_le offset bs)

theorem breaksBefore_mono (hle : offset ≤ offset') :
    breaksBefore bs offset ≤ breaksBefore bs offset' :=
  (List.take_sublist_take_left hle).count_le _

end lineStart

/-- How a search for a number in a sorted list may end: at a place where the number is, or else at
the place where it could be put in. -/
inductive SearchEnds (sorted : List Nat) (n : Nat) : Except Nat Nat → Prop where
  | found {i : Nat} (h : sorted[i]? = some n) : SearchEnds sorted n (.ok i)
  | missing {next : Nat} (hle : next ≤ sorted.length)
      (hbefore : ∀ i k, i < next → sorted[i]? = some k → k < n)
      (hbehind : ∀ i k, next ≤ i → sorted[i]? = some k → n < k) : SearchEnds sorted n (.error next)

namespace LineIndex

variable (source : String) (offset : Nat)

theorem lineColumn_ofString :
    (ofString source).lineColumn offset =
      ((breaksBefore (bytesOf source) offset + 1) % 0x100000000,
        (offset - lineStart (bytesOf source) offset) % 0x100000000) := by
  obtain ⟨after, hafter, hbehind⟩ := startsAfter_split (bytesOf source) offset
  have htake : (ofString source).starts.takeWhile (· ≤ offset) =
      0 :: startsAfter 0 ((bytesOf source).take offset) := by
    rw [starts_ofString, hafter, ← List.cons_append, List.takeWhile_append_of_pos]
    · cases after with
      | nil => rw [List.takeWhile_nil, List.append_nil]
      | cons start after =>
          have hstart := hbehind start List.mem_cons_self
          rw [List.takeWhile_cons_of_neg (by simpa using hstart), List.append_nil]
    · intro start hstart
      rcases List.mem_cons.mp hstart with rfl | hstart
      · simp
      · simpa using le_of_mem_startsAfter_take hstart
  rw [lineColumn, htake, List.length_cons, length_startsAfter]
  rfl

theorem pairwise_starts : (ofString source).starts.Pairwise (· < ·) := by
  rw [starts_ofString]
  exact .cons (fun start h => (bounds_of_mem_startsAfter h).1) (pairwise_startsAfter 0 _)

theorem starts_getElem? :
    (ofString source).starts[breaksBefore (bytesOf source) offset]? =
      some (lineStart (bytesOf source) offset) := by
  obtain ⟨after, hafter, -⟩ := startsAfter_split (bytesOf source) offset
  have hlength : (0 :: startsAfter 0 ((bytesOf source).take offset)).length =
      breaksBefore (bytesOf source) offset + 1 := by
    rw [List.length_cons, length_startsAfter, breaksBefore]
  rw [starts_ofString, hafter, ← List.cons_append, List.getElem?_append_left (by omega), lineStart,
    List.getLastD_eq_getLast?, List.getLast?_eq_getElem?, hlength, Nat.add_sub_cancel]
  rw [List.getElem?_eq_getElem (by omega)]
  rfl

/-- The starts up to an offset are those of its line and of the lines before. -/
theorem le_offset_iff {i start : Nat} (h : (ofString source).starts[i]? = some start) :
    start ≤ offset ↔ i ≤ breaksBefore (bytesOf source) offset := by
  obtain ⟨after, hafter, hbehind⟩ := startsAfter_split (bytesOf source) offset
  rw [starts_ofString, hafter, ← List.cons_append] at h
  have hlength : (0 :: startsAfter 0 ((bytesOf source).take offset)).length =
      breaksBefore (bytesOf source) offset + 1 := by
    rw [List.length_cons, length_startsAfter, breaksBefore]
  constructor
  · intro hle
    by_contra hlt
    rw [List.getElem?_append_right (by omega)] at h
    have := hbehind start (List.mem_of_getElem? h)
    omega
  · intro hle
    rw [List.getElem?_append_left (by omega)] at h
    rcases List.mem_cons.mp (List.mem_of_getElem? h) with rfl | hmem
    · exact Nat.zero_le _
    · exact le_of_mem_startsAfter_take hmem

theorem start_lt_of_lt {i start : Nat} (h : (ofString source).starts[i]? = some start)
    (hi : i < breaksBefore (bytesOf source) offset) :
    start < lineStart (bytesOf source) offset := by
  obtain ⟨hlength, rfl⟩ := List.getElem?_eq_some_iff.mp h
  obtain ⟨hlength', hentry⟩ := List.getElem?_eq_some_iff.mp (starts_getElem? source offset)
  rw [← hentry]
  exact List.pairwise_iff_getElem.mp (pairwise_starts source) _ _ hlength hlength' hi

/-- A search for an offset among the starts finds the line that begins there, or else the place
behind the start of its line. -/
theorem searchEnds_iff {result : Except Nat Nat} :
    SearchEnds (ofString source).starts offset result ↔
      result = if lineStart (bytesOf source) offset = offset
        then .ok (breaksBefore (bytesOf source) offset)
        else .error (breaksBefore (bytesOf source) offset + 1) := by
  have hentry := starts_getElem? source offset
  have hle := (isLineStart_lineStart (bytesOf source) offset).le
  constructor
  · intro h
    cases h with
    | @found line h =>
        have hline := (le_offset_iff source offset h).mp (Nat.le_refl _)
        have hnot : ¬ line < breaksBefore (bytesOf source) offset := fun hlt =>
          Nat.not_lt.mpr hle (start_lt_of_lt source offset h hlt)
        obtain rfl : line = breaksBefore (bytesOf source) offset := by omega
        rw [if_pos (Option.some_inj.mp (hentry.symm.trans h))]
    | @missing next hnext hbefore hbehind =>
        have hlow : breaksBefore (bytesOf source) offset < next := by
          by_contra hge
          have := hbehind _ _ (Nat.le_of_not_lt hge) hentry
          omega
        have hlast := List.getElem?_eq_getElem
          (show next - 1 < (ofString source).starts.length by omega)
        have hhigh := (le_offset_iff source offset hlast).mp
          (Nat.le_of_lt (hbefore _ _ (by omega) hlast))
        rw [if_neg (Nat.ne_of_lt (hbefore _ _ hlow hentry))]
        exact congrArg Except.error (by omega)
  · rintro rfl
    split
    · next heq => exact .found (hentry.trans (congrArg some heq))
    · next hne =>
        refine .missing (List.getElem?_eq_some_iff.mp hentry).1 (fun i k hi hk => ?_)
          (fun i k hi hk => ?_)
        · rcases Nat.lt_or_eq_of_le (Nat.le_of_lt_succ hi) with hlt | rfl
          · exact Nat.lt_of_lt_of_le (start_lt_of_lt source offset hk hlt) hle
          · obtain rfl := Option.some_inj.mp (hk.symm.trans hentry)
            omega
        · have := le_offset_iff source offset hk
          omega

variable {source offset} {offset' : Nat}

theorem lineColumn_of_lt (h : offset < 0x100000000) :
    (ofString source).lineColumn offset =
      (if breaksBefore (bytesOf source) offset = 0xffffffff then 0
        else breaksBefore (bytesOf source) offset + 1,
        offset - lineStart (bytesOf source) offset) := by
  have hbreaks := breaksBefore_le (bytesOf source) offset
  have hcolumn : offset - lineStart (bytesOf source) offset < 0x100000000 := by omega
  rw [lineColumn_ofString, Nat.mod_eq_of_lt hcolumn]
  split
  · next heq => rw [heq]
  · rw [Nat.mod_eq_of_lt (by omega)]

/-- Later offsets have later lines, or later columns of the same line. -/
theorem lineColumn_lt (hlt : offset < offset') (h : offset' < 0x100000000)
    (hbreaks' : breaksBefore (bytesOf source) offset' ≠ 0xffffffff) :
    Prod.Lex (· < ·) (· < ·) ((ofString source).lineColumn offset)
      ((ofString source).lineColumn offset') := by
  have hlow := breaksBefore_le (bytesOf source) offset
  rw [lineColumn_of_lt (Nat.lt_trans hlt h), lineColumn_of_lt h, if_neg hbreaks',
    if_neg (by omega)]
  rcases Nat.lt_or_eq_of_le (breaksBefore_mono (Nat.le_of_lt hlt)) with hbreaks | hbreaks
  · exact .left _ _ (Nat.succ_lt_succ hbreaks)
  · have hle := (isLineStart_lineStart (bytesOf source) offset).le
    rw [hbreaks, ← lineStart_eq_of_breaksBefore (Nat.le_of_lt hlt) hbreaks]
    exact .right _ (by omega)

end LineIndex

/-- The line of an offset is one more than the number of line breaks before it, and the column is
the distance from the start of the line, from which the offset is found again. The table of starts
has an entry for the line, which is not behind the offset, and a search in the table ends there if
it finds the offset, and just behind it otherwise. Larger offsets have larger places. Only the line
of an offset behind the largest number of line breaks is zero. -/
theorem lineColumn_exact (source : String) {offset : Nat} (h : offset < 0x100000000) :
    ∃ start, IsLineStart (bytesOf source) offset start ∧
      (LineIndex.ofString source).lineColumn offset =
        (if breaksBefore (bytesOf source) offset = 0xffffffff then 0
          else breaksBefore (bytesOf source) offset + 1, offset - start) ∧
      start + ((LineIndex.ofString source).lineColumn offset).2 = offset ∧
      (LineIndex.ofString source).starts[breaksBefore (bytesOf source) offset]? = some start ∧
      (∀ result, SearchEnds (LineIndex.ofString source).starts offset result ↔
        result = if start = offset then .ok (breaksBefore (bytesOf source) offset)
          else .error (breaksBefore (bytesOf source) offset + 1)) ∧
      ∀ offset', offset < offset' → offset' < 0x100000000 →
        breaksBefore (bytesOf source) offset' ≠ 0xffffffff →
        Prod.Lex (· < ·) (· < ·) ((LineIndex.ofString source).lineColumn offset)
          ((LineIndex.ofString source).lineColumn offset') := by
  have hstart := isLineStart_lineStart (bytesOf source) offset
  have hplace := @LineIndex.lineColumn_of_lt source offset h
  refine ⟨lineStart (bytesOf source) offset, hstart, hplace, ?_, LineIndex.starts_getElem? ..,
    fun _ => LineIndex.searchEnds_iff .., fun _ => LineIndex.lineColumn_lt⟩
  rw [hplace]
  exact Nat.add_sub_cancel' hstart.le

/-- Behind the end of a text with a character of two bytes. -/
theorem lineColumn_exact_behind_end :
    breaksBefore (bytesOf "é\n") 7 = 1 ∧ IsLineStart (bytesOf "é\n") 7 3 ∧
      (LineIndex.ofString "é\n").lineColumn 7 = (2, 4) ∧
      SearchEnds (LineIndex.ofString "é\n").starts 7 (.error 2) := by
  obtain ⟨start, hstart, hplace, hsum, -, hsearch, -⟩ :=
    @lineColumn_exact "é\n" 7 (by decide)
  have hbreaks : breaksBefore (bytesOf "é\n") 7 = 1 := by decide +kernel
  have hcolumn : ((LineIndex.ofString "é\n").lineColumn 7).2 = 4 := by decide +kernel
  obtain rfl : start = 3 := by omega
  rw [hbreaks] at hplace hsearch
  exact ⟨hbreaks, hstart, hplace, (hsearch _).mpr rfl⟩

section blankLines

theorem bytesOf_blankLines (n : Nat) :
    bytesOf (String.ofList (List.replicate n '\n')) = List.replicate n lineBreakByte := by
  rw [bytesOf_eq, String.toList_ofList, List.flatMap_replicate, utf8EncodeChar_lineBreak]
  simp

theorem breaksBefore_replicate (n : Nat) :
    breaksBefore (List.replicate n lineBreakByte) n = n := by
  rw [breaksBefore, List.take_of_length_le (by simp), List.count_replicate_self]

theorem lineStart_replicate (n : Nat) : lineStart (List.replicate n lineBreakByte) n = n := by
  cases n with
  | zero => rfl
  | succ n => exact lineStart_succ_of_break (by simp)

end blankLines

/-- The last offset of 32 bits has line zero if all the bytes before it are line breaks. -/
theorem line_zero_behind_breaks :
    breaksBefore (bytesOf (String.ofList (List.replicate 0xffffffff '\n'))) 0xffffffff =
        0xffffffff ∧
      (LineIndex.ofString (String.ofList (List.replicate 0xffffffff '\n'))).lineColumn 0xffffffff =
        (0, 0) := by
  rw [LineIndex.lineColumn_of_lt (by decide), bytesOf_blankLines, breaksBefore_replicate,
    lineStart_replicate, if_pos rfl]
  exact ⟨rfl, rfl⟩

end P16
