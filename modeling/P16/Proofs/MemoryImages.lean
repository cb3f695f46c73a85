import Mathlib.Order.Monotone.Basic
import P16.Proofs.LoopSimulation

/-!
# Programs in memory

The lines of a program lie in memory one behind the other. A label takes no room and stands for the
address behind it, data takes one word for each of its words, and how much room other instructions
take is left to the assembler. When a program is loaded, the words of its data are in their places.

Every program that is not too large has such a layout.
-/

namespace P16

namespace Machine

/-- Where the lines of a program lie. -/
structure Layout (m : Machine) where
  /-- The number of words before a line. -/
  offset : Nat → Nat
  offset_le : ∀ i, offset i ≤ offset (i + 1)
  offset_label : ∀ {i : Nat} {name : String}, m.lines[i]? = some (.label name) →
    offset (i + 1) = offset i
  offset_data : ∀ {i : Nat} {words : List Operand},
    m.lines[i]? = some (.instruction (.data words)) → offset (i + 1) = offset i + words.length
  offset_length : offset m.lines.length ≤ 0x10000
  word_eq : ∀ {i : Nat} {name : String}, m.position? name = some i →
    m.word name = UInt16.ofNat (offset i)

/-- The numbers in the data of the program are in the memory. -/
def Layout.Loaded {m : Machine} (layout : m.Layout) (memory : UInt16 → UInt16) : Prop :=
  ∀ (i : Nat) (words : List Operand), m.lines[i]? = some (.instruction (.data words)) →
    ∀ (j : Nat) (w : UInt16), words[j]? = some (.lit w) →
      memory (UInt16.ofNat (layout.offset i + j)) = w

variable {m : Machine} {i j : Nat} {name other : String} {w w' : UInt16}

theorem getElem?_of_position? (h : m.position? name = some i) :
    m.lines[i]? = some (.label name) := by
  obtain ⟨hi, hline, -⟩ := List.findIdx?_eq_some_iff_getElem.mp h
  rw [List.getElem?_eq_getElem hi, of_decide_eq_true hline]

namespace Layout

variable (layout : m.Layout)

theorem offset_mono (h : i ≤ j) : layout.offset i ≤ layout.offset j :=
  monotone_nat_of_le_succ layout.offset_le h

theorem offset_datum (hname : m.position? name = some i)
    (hdata : m.lines[i + 1]? = some (.instruction (.data [.lit w]))) :
    layout.offset (i + 2) = layout.offset i + 1 ∧ layout.offset i < 0x10000 := by
  have hlabel := layout.offset_label (getElem?_of_position? hname)
  have hend : layout.offset (i + 2) = layout.offset (i + 1) + 1 := layout.offset_data hdata
  have hlength : i + 2 ≤ m.lines.length := (List.getElem?_eq_some_iff.mp hdata).1
  have hfits := (layout.offset_mono hlength).trans layout.offset_length
  omega

theorem Loaded.datum {layout : m.Layout} {memory : UInt16 → UInt16} (h : layout.Loaded memory)
    (hname : m.position? name = some i)
    (hdata : m.lines[i + 1]? = some (.instruction (.data [.lit w]))) :
    memory (m.word name) = w := by
  have hword := h _ _ hdata 0 w rfl
  rwa [Nat.add_zero, layout.offset_label (getElem?_of_position? hname),
    ← layout.word_eq hname] at hword

theorem offset_lt_of_lt (hi : m.position? name = some i) (hj : m.position? other = some j)
    (hdata : m.lines[i + 1]? = some (.instruction (.data [.lit w]))) (hlt : i < j) :
    layout.offset i < layout.offset j := by
  have hne : j ≠ i + 1 := by
    rintro rfl
    rw [getElem?_of_position? hj] at hdata
    cases hdata
  have hmono := layout.offset_mono (show i + 2 ≤ j by omega)
  have hend := (layout.offset_datum hi hdata).1
  omega

theorem word_ne (layout : m.Layout) (hne : name ≠ other) (hi : m.position? name = some i)
    (hj : m.position? other = some j)
    (hdata : m.lines[i + 1]? = some (.instruction (.data [.lit w])))
    (hdata' : m.lines[j + 1]? = some (.instruction (.data [.lit w']))) :
    m.word name ≠ m.word other := by
  intro heq
  rw [layout.word_eq hi, layout.word_eq hj, ← UInt16.toNat_inj,
    UInt16.toNat_ofNat_of_lt' (layout.offset_datum hi hdata).2,
    UInt16.toNat_ofNat_of_lt' (layout.offset_datum hj hdata').2] at heq
  rcases Nat.lt_trichotomy i j with hlt | rfl | hlt
  · exact (layout.offset_lt_of_lt hi hj hdata hlt).ne heq
  · have hline := getElem?_of_position? hi
    rw [getElem?_of_position? hj] at hline
    cases hline
    exact hne rfl
  · exact (layout.offset_lt_of_lt hj hi hdata' hlt).ne heq.symm

end Layout

end Machine

section assembly

/-- The words behind an instruction that an operand takes, left open here. -/
def Operand.extraWords : Operand → List UInt16
  | lit _ | label _ | mem (lit _) | mem (label _) | memOffset _ _ => [0]
  | _ => []

/-- The words in which a line is kept. Those of instructions are left open here. -/
def Line.image : Line → List UInt16
  | label _ => []
  | instruction (.data words) => words.map fun
      | .lit w => w
      | _ => 0
  | instruction i => 0 :: i.operands.flatMap Operand.extraWords

/-- The words of the first lines of a program. -/
def imageUpTo (lines : List Line) (i : Nat) : List UInt16 := (lines.take i).flatMap Line.image

/-- The line before which there are `n` words, the first if there are several. -/
def lineBehind : List Line → Nat → Nat
  | line :: rest, n + 1 => lineBehind rest (n + 1 - line.image.length) + 1
  | _, _ => 0

variable {lines rest : List Line} {i j n : Nat} {line : Line} {w : UInt16}

theorem imageUpTo_succ (h : lines[i]? = some line) :
    imageUpTo lines (i + 1) = imageUpTo lines i ++ line.image := by
  rw [imageUpTo, List.take_add_one, h, List.flatMap_append]
  simp [imageUpTo]

theorem length_imageUpTo_mono (h : i ≤ j) :
    (imageUpTo lines i).length ≤ (imageUpTo lines j).length := by
  obtain ⟨more, hmore⟩ := List.take_prefix_take_left (l := lines) h
  simp only [imageUpTo, ← hmore, List.flatMap_append, List.length_append]
  exact Nat.le_add_right _ _

theorem imageUpTo_cons : imageUpTo (line :: rest) (i + 1) = line.image ++ imageUpTo rest i := rfl

theorem lineBehind_zero : lineBehind lines 0 = 0 := by
  cases lines <;> rfl

theorem lineBehind_cons (hn : 0 < n) :
    lineBehind (line :: rest) n = lineBehind rest (n - line.image.length) + 1 := by
  obtain ⟨n, rfl⟩ := Nat.exists_eq_add_one_of_ne_zero hn.ne'
  rfl

/-- The line behind one that takes room is found from the words before it. -/
theorem lineBehind_imageUpTo (h : lines[i]? = some line) (hline : 0 < line.image.length) :
    lineBehind lines (imageUpTo lines (i + 1)).length = i + 1 := by
  induction lines generalizing i with
  | nil => simp at h
  | cons first rest ih =>
      rw [imageUpTo_cons, List.length_append]
      cases i with
      | zero =>
          cases h
          have hrest : (imageUpTo rest 0).length = 0 := rfl
          rw [lineBehind_cons (by omega), Nat.add_sub_cancel_left, hrest, lineBehind_zero]
      | succ i =>
          have hrest : rest[i]? = some line := h
          have hpos : 0 < (imageUpTo rest (i + 1)).length := by
            rw [imageUpTo_succ hrest, List.length_append]
            omega
          rw [lineBehind_cons (by omega), Nat.add_sub_cancel_left, ih hrest]

theorem imageUpTo_length_getElem? (h : lines[i]? = some line) (hj : line.image[j]? = some w) :
    (imageUpTo lines lines.length)[(imageUpTo lines i).length + j]? = some w := by
  have hsplit : lines = lines.take i ++ line :: lines.drop (i + 1) := by
    obtain ⟨hi, rfl⟩ := List.getElem?_eq_some_iff.mp h
    rw [List.getElem_cons_drop, List.take_append_drop]
  have himage : imageUpTo lines lines.length =
      imageUpTo lines i ++ (line.image ++ (lines.drop (i + 1)).flatMap Line.image) := by
    rw [imageUpTo, List.take_length]
    conv_lhs => rw [hsplit]
    rw [List.flatMap_append, List.flatMap_cons]
    rfl
  rw [himage, List.getElem?_append_right (Nat.le_add_right _ _), Nat.add_sub_cancel_left,
    List.getElem?_append_left (List.getElem?_eq_some_iff.mp hj).1, hj]

end assembly

namespace Machine

variable (lines : List Line) (compute : BasicOpcode → UInt16 → UInt16 → UInt16)

/-- The machine for a program in which every number and every label takes a word. -/
def ofLines (h : (imageUpTo lines lines.length).length < 0x10000) : Machine where
  lines := lines
  compute := compute
  word name := UInt16.ofNat
    (imageUpTo lines ((lines.findIdx? fun line => line = .label name).getD 0)).length
  address i := UInt16.ofNat (imageUpTo lines i).length
  lineAt a := lineBehind lines a.toNat
  lineAt_address i operand hi := by
    have hlength : i + 1 ≤ lines.length := (List.getElem?_eq_some_iff.mp hi).1
    rw [UInt16.toNat_ofNat_of_lt' ((length_imageUpTo_mono hlength).trans_lt h)]
    exact lineBehind_imageUpTo hi (Nat.zero_lt_succ _)

def imageMemory (a : UInt16) : UInt16 := (imageUpTo lines lines.length)[a.toNat]?.getD 0

variable {lines} (h : (imageUpTo lines lines.length).length < 0x10000)

def imageLayout : (ofLines lines compute h).Layout where
  offset i := (imageUpTo lines i).length
  offset_le i := length_imageUpTo_mono (Nat.le_succ i)
  offset_label {i name} hi := by
    have hi : lines[i]? = some (.label name) := hi
    rw [imageUpTo_succ hi]
    simp [Line.image]
  offset_data {i words} hi := by
    have hi : lines[i]? = some (.instruction (.data words)) := hi
    rw [imageUpTo_succ hi]
    simp [Line.image]
  offset_length := h.le
  word_eq {i name} hi := by
    have hi : lines.findIdx? (fun line => line = .label name) = some i := hi
    simp only [ofLines, hi, Option.getD_some]

theorem imageLayout_loaded : (imageLayout compute h).Loaded (imageMemory lines) := by
  intro i words hi j w hj
  have hword : (imageUpTo lines lines.length)[(imageUpTo lines i).length + j]? = some w :=
    imageUpTo_length_getElem? hi (by simp [Line.image, hj])
  have hlt := (List.getElem?_eq_some_iff.mp hword).1.trans h
  simp only [imageMemory, imageLayout, UInt16.toNat_ofNat_of_lt' hlt, hword, Option.getD_some]

end Machine

end P16
