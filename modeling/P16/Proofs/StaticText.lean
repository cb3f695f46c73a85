import P16.Proofs.MemoryWrites

/-!
# Static text

A text is written to the screen cell by cell, one line for each character, from memory by its
extension or on the display by its own. Both do the same. The place of a cell is a sum of 64-bit
numbers, which is only formed where the cell before it was an address.
-/

namespace P16

namespace ScreenText

variable {colors : Colors} {location : Int} {c : Char} {cs before rest : List Char}
  {lines : List Line}

/-- The word has the character in its low byte and the colours in its high byte. -/
structure Shows (colors : Colors) (c : Char) (w : UInt16) : Prop where
  character : w.toNat % 0x100 = c.toNat
  background : (w.toNat / 0x100 % 0x10 : Int) = colors.background
  foreground : (w.toNat / 0x1000 : Int) = colors.foreground

theorem Shows.colors_lt {w : UInt16} (h : Shows colors c w) :
    (0 ≤ colors.foreground ∧ colors.foreground < 16) ∧
      0 ≤ colors.background ∧ colors.background < 16 := by
  have hw := w.toNat_lt
  have hbackground := h.background
  have hforeground := h.foreground
  omega

theorem exists_shows (hc : c.toNat < 128)
    (hf : 0 ≤ colors.foreground ∧ colors.foreground < 16)
    (hb : 0 ≤ colors.background ∧ colors.background < 16) : ∃ w, Shows colors c w := by
  obtain ⟨w, hw⟩ : ∃ w : UInt16, w.toNat =
      colors.foreground.toNat * 0x1000 + (colors.background.toNat * 0x100 + c.toNat) :=
    ⟨_, UInt16.toNat_ofNat_of_lt' (show _ < 0x10000 by omega)⟩
  exact ⟨w, by omega, by omega, by omega⟩

theorem toNat_cell {c foreground background : Nat} (hc : c < 0x100) (hf : foreground < 0x10)
    (hb : background < 0x10) :
    (UInt16.ofNat c ||| UInt16.ofNat foreground <<< 12 ||| UInt16.ofNat background <<< 8).toNat =
      foreground * 0x1000 + (background * 0x100 + c) := by
  have hword {n : Nat} (hn : n < 0x100) : (UInt16.ofNat n).toNat = n :=
    UInt16.toNat_ofNat_of_lt' (show n < 0x10000 by omega)
  have hforeground : (UInt16.ofNat foreground <<< 12).toNat = foreground <<< 12 := by
    rw [UInt16.toNat_shiftLeft, hword (by omega)]
    change foreground <<< 12 % 0x10000 = _
    rw [Nat.shiftLeft_eq]
    omega
  have hbackground : (UInt16.ofNat background <<< 8).toNat = background <<< 8 := by
    rw [UInt16.toNat_shiftLeft, hword (by omega)]
    change background <<< 8 % 0x10000 = _
    rw [Nat.shiftLeft_eq]
    omega
  have hlow : background <<< 8 ||| c = background * 0x100 + c := by
    rw [← Nat.shiftLeft_add_eq_or_of_lt (show c < 2 ^ 8 from hc), Nat.shiftLeft_eq]
  have hlt : background * 0x100 + c < 2 ^ 12 := by omega
  calc (UInt16.ofNat c ||| UInt16.ofNat foreground <<< 12 ||| UInt16.ofNat background <<< 8).toNat
      = c ||| foreground <<< 12 ||| background <<< 8 := by
        rw [UInt16.toNat_or, UInt16.toNat_or, hforeground, hbackground, hword hc]
    _ = foreground <<< 12 ||| (background <<< 8 ||| c) := by
        rw [Nat.or_comm c, Nat.or_assoc, Nat.or_comm c]
    _ = foreground * 0x1000 + (background * 0x100 + c) := by
        rw [hlow, ← Nat.shiftLeft_add_eq_or_of_lt hlt, Nat.shiftLeft_eq]

theorem cell_eq_ok_iff {w : UInt16} :
    cell colors c = .ok w ↔ c.toNat < 128 ∧ Shows colors c w := by
  by_cases hc : 128 ≤ c.toNat
  · refine iff_of_false (fun h => ?_) fun h => absurd h.1 (by omega)
    rw [cell, if_pos hc] at h
    cases h
  by_cases hf : 0 ≤ colors.foreground ∧ colors.foreground < 16
  case neg =>
    refine iff_of_false (fun h => ?_) fun h => hf h.2.colors_lt.1
    rw [cell, if_neg hc, checkColor, if_neg hf] at h
    cases h
  by_cases hb : 0 ≤ colors.background ∧ colors.background < 16
  case neg =>
    refine iff_of_false (fun h => ?_) fun h => hb h.2.colors_lt.2
    rw [cell, if_neg hc, checkColor, if_pos hf, checkColor, if_neg hb] at h
    cases h
  have hcell : cell colors c = .ok (UInt16.ofNat c.toNat |||
      UInt16.ofNat colors.foreground.toNat <<< 12 |||
      UInt16.ofNat colors.background.toNat <<< 8) := by
    rw [cell, if_neg hc, checkColor, if_pos hf, checkColor, if_pos hb]
    rfl
  have hw := w.toNat_lt
  rw [hcell, Except.ok.injEq, ← UInt16.toNat_inj, toNat_cell (by omega) (by omega) (by omega)]
  constructor
  · intro h
    exact ⟨by omega, by omega, by omega, by omega⟩
  · rintro ⟨-, hcharacter, hbackground, hforeground⟩
    omega

theorem address_eq_ok_iff {a : Operand} :
    address location = .ok a ↔ ∃ w : UInt16, (w.toNat : Int) = location ∧ a = .mem (.lit w) := by
  unfold address
  constructor
  · intro h
    split at h
    · rename_i w hw
      cases h
      obtain ⟨hw, hle⟩ := Option.filter_eq_some_iff.mp hw
      obtain ⟨hrange, hmod⟩ := word?_eq_some_iff.mp hw
      refine ⟨w, ?_, rfl⟩
      have hle := of_decide_eq_true hle
      have hlt := w.toNat_lt
      unfold Int.ModEq at hmod
      omega
    · cases h
  · rintro ⟨w, rfl, rfl⟩
    have hw : word? w.toNat = some w := word?_eq_some_iff.mpr ⟨by have := w.toNat_lt; omega, rfl⟩
    rw [hw, Option.filter_some_pos (by simp)]

/-- The lines write the characters to successive words of memory. -/
inductive Shown (colors : Colors) : Int → List Char → List Line → Prop where
  | nil {location : Int} : Shown colors location [] []
  | cons {location : Int} {c : Char} {cs : List Char} {lines : List Line} {a w : UInt16}
      (hc : c.toNat < 128) (hw : Shows colors c w) (ha : (a.toNat : Int) = location)
      (hrest : Shown colors (location + 1) cs lines) :
      Shown colors location (c :: cs) (.set (.mem (.lit a)) (.lit w) :: lines)

theorem Shown.getElem? (h : Shown colors location cs lines) {i : Nat} (hi : cs[i]? = some c) :
    ∃ a w : UInt16, lines[i]? = some (.set (.mem (.lit a)) (.lit w)) ∧
      (a.toNat : Int) = location + i ∧ Shows colors c w := by
  induction h generalizing i with
  | nil => simp at hi
  | @cons location _ _ _ a w _ hw ha _ ih =>
      cases i with
      | zero =>
          cases hi
          exact ⟨a, w, rfl, by simpa using ha, hw⟩
      | succ i =>
          obtain ⟨a, w, hline, ha, hw⟩ := ih hi
          exact ⟨a, w, hline, by rw [ha]; push_cast; omega, hw⟩

theorem Shown.length_eq (h : Shown colors location cs lines) : lines.length = cs.length := by
  induction h with
  | nil => rfl
  | cons _ _ _ _ ih => simp [ih]

structure Fits (colors : Colors) (location : Int) (cs : List Char) : Prop where
  ascii : ∀ c ∈ cs, c.toNat < 128
  foreground : 0 ≤ colors.foreground ∧ colors.foreground < 16
  background : 0 ≤ colors.background ∧ colors.background < 16
  inMemory : 0 ≤ location ∧ location + cs.length ≤ 0x10000

theorem exists_shown_iff :
    (∃ lines, Shown colors location cs lines) ↔ cs = [] ∨ Fits colors location cs := by
  induction cs generalizing location with
  | nil => exact iff_of_true ⟨[], .nil⟩ (.inl rfl)
  | cons c cs ih =>
      constructor
      · rintro ⟨_, hshown⟩
        cases hshown with
        | @cons _ _ _ lines a w hc hw ha hrest =>
            have hlt := a.toNat_lt
            obtain ⟨hforeground, hbackground⟩ := hw.colors_lt
            refine .inr ⟨?_, hforeground, hbackground, by omega, ?_⟩
            · rcases ih.mp ⟨lines, hrest⟩ with rfl | hfits
              · simpa using hc
              · exact List.forall_mem_cons.mpr ⟨hc, hfits.ascii⟩
            · rcases ih.mp ⟨lines, hrest⟩ with rfl | hfits
              · simp only [List.length_cons, List.length_nil]
                omega
              · have := hfits.inMemory.2
                simp only [List.length_cons]
                omega
      · rintro (hnil | hfits)
        · cases hnil
        · obtain ⟨hc, hcs⟩ := List.forall_mem_cons.mp hfits.ascii
          obtain ⟨hlow, hhigh⟩ := hfits.inMemory
          rw [List.length_cons, Nat.cast_add, Nat.cast_one] at hhigh
          obtain ⟨w, hw⟩ := exists_shows hc hfits.foreground hfits.background
          obtain ⟨lines, hrest⟩ := ih.mpr (.inr
            ⟨hcs, hfits.foreground, hfits.background, Int.add_nonneg hlow Int.one_nonneg, by omega⟩)
          have ha : (UInt16.ofNat location.toNat).toNat = location.toNat :=
            UInt16.toNat_ofNat_of_lt' (show _ < 0x10000 by omega)
          exact ⟨_, .cons hc hw (by rw [ha]; omega) hrest⟩

theorem write_cons {w : UInt16} {a : Operand} (hw : cell colors c = .ok w)
    (ha : address location = .ok a) (cs : List Char) (t : Target) :
    write colors location (c :: cs) t =
      write colors (location + 1) cs { t with program := t.program.write (.set a (.lit w)) } := by
  rw [write, hw, ha]
  rfl

theorem write_cons_inv {t t' : Target} (h : write colors location (c :: cs) t = .ok () t') :
    ∃ w a, cell colors c = .ok w ∧ address location = .ok a := by
  obtain ⟨w, hw, h⟩ := HookM.check_bind_eq_ok_iff.mp h
  obtain ⟨a, ha, -⟩ := HookM.check_bind_eq_ok_iff.mp h
  exact ⟨w, a, hw, ha⟩

theorem write_eq_ok_iff {t t' : Target} :
    write colors location cs t = .ok () t' ↔ ∃ lines, Shown colors location cs lines ∧
      t' = { t with program := t.program.writeAll lines } := by
  induction cs generalizing location t with
  | nil =>
      constructor
      · rintro ⟨⟩
        exact ⟨[], .nil, rfl⟩
      · rintro ⟨_, ⟨⟩, rfl⟩
        rfl
  | cons c cs ih =>
      constructor
      · intro h
        obtain ⟨w, target, hcell, htarget⟩ := write_cons_inv h
        rw [write_cons hcell htarget, ih] at h
        obtain ⟨lines, hlines, rfl⟩ := h
        obtain ⟨hc, hw⟩ := cell_eq_ok_iff.mp hcell
        obtain ⟨a, ha, rfl⟩ := address_eq_ok_iff.mp htarget
        exact ⟨_, .cons hc hw ha hlines, rfl⟩
      · rintro ⟨_, hshown, rfl⟩
        cases hshown with
        | @cons _ _ _ lines a w hc hw ha hrest =>
            rw [write_cons (cell_eq_ok_iff.mpr ⟨hc, hw⟩) (address_eq_ok_iff.mpr ⟨a, ha, rfl⟩), ih]
            exact ⟨lines, hrest, rfl⟩

theorem exists_write_iff {t : Target} :
    (∃ t', write colors location cs t = .ok () t') ↔ cs = [] ∨ Fits colors location cs := by
  rw [← exists_shown_iff]
  constructor
  · rintro ⟨t', h⟩
    obtain ⟨lines, hlines, -⟩ := write_eq_ok_iff.mp h
    exact ⟨lines, hlines⟩
  · rintro ⟨lines, hlines⟩
    exact ⟨_, write_eq_ok_iff.mpr ⟨lines, hlines, rfl⟩⟩

/-- Once the first characters are written, the rest is written from where they end. -/
theorem write_append {t t' : Target} (h : write colors location before t = .ok () t')
    (rest : List Char) :
    write colors location (before ++ rest) t = write colors (location + before.length) rest t' := by
  induction before generalizing location t with
  | nil =>
      cases h
      simp
  | cons c before ih =>
      obtain ⟨w, a, hw, ha⟩ := write_cons_inv h
      rw [write_cons hw ha] at h
      rw [List.cons_append, write_cons hw ha, ih h, List.length_cons]
      congr 1
      push_cast
      omega

theorem toInt_add_length {start : Int64} {n : Nat} (hlow : 0 ≤ start.toInt)
    (hhigh : start.toInt + n ≤ 0x10000) : (start + Int64.ofNat n).toInt = start.toInt + n := by
  rw [Int64.toInt_add, Int64.toInt_ofNat_of_lt (show n < 0x8000000000000000 by omega)]
  exact Int.bmod_eq_of_le_mul_two (by omega) (by omega)

/-- Where the loop comes to a place, the sum that gives it has not wrapped around. -/
theorem toInt_add_of_write {start : Int64} {t t' : Target}
    (h : write colors start.toInt before t = .ok () t') :
    (start + Int64.ofNat before.length).toInt = start.toInt + before.length := by
  obtain ⟨lines, hlines, -⟩ := write_eq_ok_iff.mp h
  rcases exists_shown_iff.mp ⟨lines, hlines⟩ with rfl | hfits
  · simp
  · exact toInt_add_length hfits.inMemory.1 hfits.inMemory.2

end ScreenText

open ScreenText

theorem Memory.setString_eq (start foreground background : Int) (text : String)
    (keywords : Table String Value) :
    Memory.setString ⟨[.number start, .text text, .number foreground, .number background],
      keywords⟩ = ScreenText.write ⟨foreground, background⟩ start text.toList := rfl

theorem Display.writeStatic_eq (start foreground background : Int) (text : String)
    (keywords : Table String Value) :
    Display.writeStatic ⟨[.text text, .number start, .number foreground, .number background],
      keywords⟩ = ScreenText.write ⟨foreground, background⟩ start text.toList := rfl

/-- The two hooks for static text do the same, also where they fail. They succeed exactly if the
text is empty or can be shown, and then write one line for each character, in order, to successive
words. Wherever they come to, the 64-bit sum of the start and the number of characters before is the
place that is written next. -/
theorem static_text_written (text : String) (start color highlight : Int64)
    (keywords keywords' : Table String Value) :
    let colors : Colors := ⟨color.toInt, highlight.toInt⟩
    let setString := Memory.setString ⟨[.number start.toInt, .text text, .number color.toInt,
      .number highlight.toInt], keywords⟩
    setString = Display.writeStatic ⟨[.text text, .number start.toInt, .number color.toInt,
        .number highlight.toInt], keywords'⟩ ∧
      ∀ t,
        ((∃ t', setString t = .ok () t') ↔
          text = "" ∨ Fits colors start.toInt text.toList) ∧
        (∀ t', setString t = .ok () t' → ∃ lines, lines.length = text.length ∧
          t' = { t with program := t.program.writeAll lines } ∧
          t'.program.written = t.program.written ++ lines ∧
          ∀ (i : Nat) (c : Char), text.toList[i]? = some c → ∃ a w : UInt16,
            lines[i]? = some (.set (.mem (.lit a)) (.lit w)) ∧
              (a.toNat : Int) = start.toInt + i ∧ Shows colors c w) ∧
        ∀ before rest t', text.toList = before ++ rest →
          ScreenText.write colors start.toInt before t = .ok () t' →
          setString t =
              ScreenText.write colors (start + Int64.ofNat before.length).toInt rest t' ∧
            (start + Int64.ofNat before.length).toInt = start.toInt + before.length := by
  intro colors setString
  have heq : setString = ScreenText.write colors start.toInt text.toList :=
    Memory.setString_eq ..
  refine ⟨heq.trans (Display.writeStatic_eq ..).symm, fun t => ?_⟩
  rw [heq]
  refine ⟨?_, fun t' h => ?_, fun before rest t' htext h => ?_⟩
  · rw [← String.toList_eq_nil_iff]
    exact exists_write_iff
  · obtain ⟨lines, hlines, rfl⟩ := write_eq_ok_iff.mp h
    exact ⟨lines, by rw [hlines.length_eq, String.length_toList], rfl,
      t.program.written_writeAll lines, fun i c hi => hlines.getElem? hi⟩
  · have hsum := toInt_add_of_write h
    rw [htext, write_append h, hsum]
    exact ⟨rfl, rfl⟩

/-- The last two words of memory hold a text of two characters. -/
theorem static_text_written_last_words :
    let t : Target := ⟨.start, .start, #[]⟩
    ∃ t' lines,
      Display.writeStatic ⟨[.text "ab", .number 0xfffe, .number 15, .number 2], .empty⟩ t =
        .ok () t' ∧
      t' = { t with program := t.program.writeAll lines } ∧ t'.program.written = lines ∧
      lines.length = 2 ∧
      ∃ a w : UInt16, lines[1]? = some (.set (.mem (.lit a)) (.lit w)) ∧ (a.toNat : Int) = 0xffff ∧
        Shows ⟨15, 2⟩ 'b' w := by
  intro t
  obtain ⟨hsame, hruns⟩ := static_text_written "ab" 0xfffe 15 2 .empty .empty
  obtain ⟨hsucceeds, hlines, -⟩ := hruns t
  have hascii : ∀ c ∈ ['a', 'b'], c.toNat < 128 := by
    rintro c hc
    rcases List.mem_pair.mp hc with rfl | rfl <;> decide
  obtain ⟨t', ht'⟩ := hsucceeds.mpr (.inr ⟨hascii, by decide, by decide, by decide⟩)
  obtain ⟨lines, hlength, rfl, hwritten, hcells⟩ := hlines t' ht'
  exact ⟨_, lines, hsame ▸ ht', rfl, hwritten, hlength, hcells 1 'b' rfl⟩

end P16
