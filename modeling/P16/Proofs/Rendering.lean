import P16.Proofs.ClosedOutput
import P16.Proofs.LabelWords

/-!
# Reading an assembled program back

Registers, special operands, numbers and labels are all written as words, and only the brackets and
signs between them show where one ends. If no label is spelled like a register or a special operand,
the text of an operand determines the operand, also when more text follows, and the text of a
program determines its lines.
-/

namespace P16

/-- Where a run of characters of one kind ends is determined by what follows. -/
theorem append_inj_of_stops {p : Char → Bool} {u v s t : List Char} (hu : ∀ c ∈ u, p c)
    (hv : ∀ c ∈ v, p c) (hs : ∀ c ∈ s.head?, p c = false) (ht : ∀ c ∈ t.head?, p c = false)
    (h : u ++ s = v ++ t) : u = v ∧ s = t := by
  induction u generalizing v with
  | nil =>
      cases v with
      | nil => exact ⟨rfl, h⟩
      | cons d v =>
          have hstop := hs d (by simp [show s = d :: (v ++ t) from h])
          rw [hv d List.mem_cons_self] at hstop
          cases hstop
  | cons c u ih =>
      cases v with
      | nil =>
          have hstop := ht c (by simp [← show c :: (u ++ s) = t from h])
          rw [hu c List.mem_cons_self] at hstop
          cases hstop
      | cons d v =>
          obtain ⟨rfl, hrest⟩ := List.cons.inj h
          obtain ⟨rfl, rfl⟩ := ih (fun c hc => hu c (List.mem_cons_of_mem _ hc))
            (fun c hc => hv c (List.mem_cons_of_mem _ hc)) hrest
          exact ⟨rfl, rfl⟩

section words

theorem Text.hexDigit_inj {n m : Nat} (hn : n < 16) (hm : m < 16) (h : hexDigit n = hexDigit m) :
    n = m := by
  have hall : ∀ n < 16, ∀ m < 16, hexDigit n = hexDigit m → n = m := by decide
  exact hall n hn m hm h

theorem Text.hexWord_injective : Function.Injective hexWord := by
  intro v w h
  have hlist := congrArg String.toList h
  simp only [hexWord, String.toList_append, String.toList_ofList, List.append_cancel_left_eq,
    List.cons.injEq, and_true] at hlist
  obtain ⟨h₁, h₂, h₃, h₄⟩ := hlist
  have hv := v.toNat_lt
  have hw := w.toNat_lt
  have hmod (n : Nat) : n % 16 < 16 := Nat.mod_lt n (by decide)
  have e₁ := hexDigit_inj (hmod _) (hmod _) h₁
  have e₂ := hexDigit_inj (hmod _) (hmod _) h₂
  have e₃ := hexDigit_inj (hmod _) (hmod _) h₃
  have e₄ := hexDigit_inj (hmod _) (hmod _) h₄
  apply UInt16.toNat_inj.mp
  omega

theorem Text.isWordRest_hexWord (w : UInt16) : ∀ c ∈ (hexWord w).toList, Scan.isWordRest c := by
  have hdigit : ∀ n < 16, Scan.isWordRest (hexDigit n) := by decide
  have hmod (n : Nat) : n % 16 < 16 := Nat.mod_lt n (by decide)
  simp only [hexWord, String.toList_append, String.toList_ofList, List.forall_mem_append,
    List.forall_mem_cons]
  exact ⟨List.all_eq_true.mp (by decide), hdigit _ (hmod _), hdigit _ (hmod _), hdigit _ (hmod _),
    hdigit _ (hmod _), nofun⟩

theorem Text.not_isWord_hexWord (w : UInt16) : ¬ IsWord (hexWord w) := by
  rintro ⟨c, cs, htext, hstart, -⟩
  simp only [hexWord, String.toList_append] at htext
  obtain ⟨rfl, -⟩ := List.cons.inj (show '0' :: _ = c :: cs from htext)
  exact absurd hstart (by decide)

theorem isWord_of_mem_operandNames : ∀ name ∈ operandNames, IsWord name := by decide

theorem Register.name_mem (x : Register) : x.name ∈ operandNames := by cases x <;> decide

theorem SpecialOperand.name_mem (s : SpecialOperand) : s.name ∈ operandNames := by
  cases s <;> decide

theorem Register.name_injective : Function.Injective Register.name := by
  intro x y h
  rw [← Option.some_inj, ← ofName?_name, h, ofName?_name]

theorem SpecialOperand.name_injective : Function.Injective SpecialOperand.name := by
  have hname (s : SpecialOperand) : ofName? s.name = some s := by cases s <;> decide
  intro s t h
  rw [← Option.some_inj, ← hname, h, hname]

theorem Register.name_ne (x : Register) (s : SpecialOperand) : x.name ≠ s.name := by
  cases x <;> cases s <;> decide

end words

namespace Operand

/-- The labels in the operand are words that stand for nothing else. -/
def Clear (a : Operand) : Prop := ∀ label ∈ a.labels, IsWord label ∧ label ∉ operandNames

/-- The operand is written as one word. -/
def isPlain : Operand → Bool
  | mem _ | memOffset _ _ => false
  | _ => true

theorem isWordRest_render {a : Operand} (hp : a.isPlain) (h : a.Clear) :
    ∀ c ∈ a.render.toList, Scan.isWordRest c := by
  cases a with
  | reg x => exact (isWord_of_mem_operandNames _ x.name_mem).isWordRest
  | special s => exact (isWord_of_mem_operandNames _ s.name_mem).isWordRest
  | lit w => exact Text.isWordRest_hexWord w
  | label name => exact (h name List.mem_cons_self).1.isWordRest
  | mem address => cases hp
  | memOffset base offset => cases hp

/-- Among words, the numbers are those that begin with a digit, and registers and special operands
those of `operandNames`. -/
theorem eq_of_render_eq {a b : Operand} (ha : a.isPlain) (hb : b.isPlain) (hca : a.Clear)
    (hcb : b.Clear) (h : a.render = b.render) : a = b := by
  have hnumber {w : UInt16} {name : String} (hname : IsWord name) : Text.hexWord w ≠ name :=
    fun he => Text.not_isWord_hexWord w (he ▸ hname)
  have hregister (x : Register) := isWord_of_mem_operandNames _ x.name_mem
  have hspecial (s : SpecialOperand) := isWord_of_mem_operandNames _ s.name_mem
  have hlabel {name other : String} (hc : Clear (label name)) (ho : other ∈ operandNames) :
      name ≠ other := fun he => (hc name List.mem_cons_self).2 (he ▸ ho)
  cases a with
  | reg x =>
      cases b with
      | reg y => rw [Register.name_injective h]
      | special t => exact absurd h (x.name_ne t)
      | lit w => exact absurd h.symm (hnumber (hregister x))
      | label name => exact absurd h.symm (hlabel hcb x.name_mem)
      | mem _ => cases hb
      | memOffset _ _ => cases hb
  | special s =>
      cases b with
      | reg y => exact absurd h.symm (y.name_ne s)
      | special t => rw [SpecialOperand.name_injective h]
      | lit w => exact absurd h.symm (hnumber (hspecial s))
      | label name => exact absurd h.symm (hlabel hcb s.name_mem)
      | mem _ => cases hb
      | memOffset _ _ => cases hb
  | lit v =>
      cases b with
      | reg y => exact absurd h (hnumber (hregister y))
      | special t => exact absurd h (hnumber (hspecial t))
      | lit w => rw [Text.hexWord_injective h]
      | label name => exact absurd h (hnumber (hcb name List.mem_cons_self).1)
      | mem _ => cases hb
      | memOffset _ _ => cases hb
  | label name =>
      cases b with
      | reg y => exact absurd h (hlabel hca y.name_mem)
      | special t => exact absurd h (hlabel hca t.name_mem)
      | lit w => exact absurd h.symm (hnumber (hca name List.mem_cons_self).1)
      | label other => exact congrArg label h
      | mem _ => cases hb
      | memOffset _ _ => cases hb
  | mem _ => cases ha
  | memOffset _ _ => cases ha

section bracketed

variable (a base offset : Operand)

theorem toList_render_mem : (mem a).render.toList = '[' :: (a.render.toList ++ [']']) := by
  simp only [render, String.toList_append]
  rfl

theorem toList_render_memOffset :
    (memOffset base offset).render.toList =
      '[' :: (base.render.toList ++ '+' :: (offset.render.toList ++ [']'])) := by
  simp only [render, String.toList_append, List.append_assoc]
  rfl

end bracketed

theorem exists_render_eq_cons {a : Operand} (hp : a.isPlain) (h : a.Clear) :
    ∃ c cs, a.render.toList = c :: cs := by
  have hword {name : String} (hname : IsWord name) : ∃ c cs, name.toList = c :: cs := by
    obtain ⟨c, cs, htext, -⟩ := hname
    exact ⟨c, cs, htext⟩
  cases a with
  | reg x => exact hword (isWord_of_mem_operandNames _ x.name_mem)
  | special s => exact hword (isWord_of_mem_operandNames _ s.name_mem)
  | lit w =>
      simp only [render, Text.hexWord, String.toList_append]
      exact ⟨'0', _, rfl⟩
  | label name => exact hword (h name List.mem_cons_self).1
  | mem address => cases hp
  | memOffset base offset => cases hp

/-- A word does not begin with a bracket, so a plain operand is not a memory operand. -/
theorem render_append_ne_bracket {a : Operand} (hp : a.isPlain) (h : a.Clear) (s t : List Char) :
    a.render.toList ++ s ≠ '[' :: t := by
  obtain ⟨c, cs, htext⟩ := exists_render_eq_cons hp h
  have hfirst := isWordRest_render hp h c (by simp [htext])
  rw [htext]
  intro he
  obtain ⟨rfl, -⟩ := List.cons.inj he
  exact absurd hfirst (by decide)

/-- No word goes on with this text. -/
def Stops (s : List Char) : Prop := ∀ c ∈ s.head?, Scan.isWordRest c = false

theorem stops_cons {c : Char} (hc : Scan.isWordRest c = false) (s : List Char) :
    Stops (c :: s) := by
  rintro _ ⟨⟩
  exact hc

theorem Clear.of_mem {a : Operand} (h : (mem a).Clear) : a.Clear := h

theorem Clear.of_memOffset {base offset : Operand} (h : (memOffset base offset).Clear) :
    base.Clear ∧ offset.Clear :=
  List.forall_mem_append.mp h

section following

variable {a b : Operand} {s t : List Char}

theorem render_append_inj_of_isPlain (hp : a.isPlain) (ha : a.Clear) (hb : b.Clear)
    (hs : Stops s) (ht : Stops t) (h : a.render.toList ++ s = b.render.toList ++ t) :
    a = b ∧ s = t := by
  by_cases hq : b.isPlain
  · obtain ⟨hword, hrest⟩ :=
      append_inj_of_stops (isWordRest_render hp ha) (isWordRest_render hq hb) hs ht h
    exact ⟨eq_of_render_eq hp hq ha hb (String.toList_injective hword), hrest⟩
  · cases b with
    | mem address =>
        rw [toList_render_mem] at h
        exact absurd h (render_append_ne_bracket hp ha s _)
    | memOffset base offset =>
        rw [toList_render_memOffset] at h
        exact absurd h (render_append_ne_bracket hp ha s _)
    | _ => exact absurd rfl hq

/-- The text of an operand determines it, whatever follows, as long as that does not go on with the
last word. The induction is over the brackets. -/
theorem render_append_inj (ha : a.Clear) (hb : b.Clear) (hs : Stops s) (ht : Stops t)
    (h : a.render.toList ++ s = b.render.toList ++ t) : a = b ∧ s = t := by
  have hclose (s : List Char) : Stops (']' :: s) := stops_cons (by decide) s
  have hplus (s : List Char) : Stops ('+' :: s) := stops_cons (by decide) s
  induction a generalizing b s t with
  | mem x ih =>
      cases b with
      | mem y =>
          have hinner : x.render.toList ++ ']' :: s = y.render.toList ++ ']' :: t := by
            simpa [toList_render_mem] using h
          obtain ⟨rfl, hrest⟩ := ih ha.of_mem hb.of_mem (hclose s) (hclose t) hinner
          exact ⟨rfl, (List.cons.inj hrest).2⟩
      | memOffset base offset =>
          have hinner : x.render.toList ++ ']' :: s =
              base.render.toList ++ '+' :: (offset.render.toList ++ ']' :: t) := by
            simpa [toList_render_mem, toList_render_memOffset] using h
          obtain ⟨-, hrest⟩ := ih ha.of_mem hb.of_memOffset.1 (hclose s) (hplus _) hinner
          exact absurd (List.cons.inj hrest).1 (by decide)
      | _ =>
          obtain ⟨hab, hst⟩ := render_append_inj_of_isPlain rfl hb ha ht hs h.symm
          exact ⟨hab.symm, hst.symm⟩
  | memOffset x y ihx ihy =>
      obtain ⟨hx, hy⟩ := ha.of_memOffset
      cases b with
      | mem address =>
          have hinner : x.render.toList ++ '+' :: (y.render.toList ++ ']' :: s) =
              address.render.toList ++ ']' :: t := by
            simpa [toList_render_mem, toList_render_memOffset] using h
          obtain ⟨-, hrest⟩ := ihx hx hb.of_mem (hplus _) (hclose t) hinner
          exact absurd (List.cons.inj hrest).1 (by decide)
      | memOffset base offset =>
          obtain ⟨hbase, hoffset⟩ := hb.of_memOffset
          have hinner : x.render.toList ++ '+' :: (y.render.toList ++ ']' :: s) =
              base.render.toList ++ '+' :: (offset.render.toList ++ ']' :: t) := by
            simpa [toList_render_memOffset] using h
          obtain ⟨rfl, hsecond⟩ := ihx hx hbase (hplus _) (hplus _) hinner
          obtain ⟨rfl, hend⟩ := ihy hy hoffset (hclose s) (hclose t) (List.cons.inj hsecond).2
          exact ⟨rfl, (List.cons.inj hend).2⟩
      | _ =>
          obtain ⟨hab, hst⟩ := render_append_inj_of_isPlain rfl hb ha ht hs h.symm
          exact ⟨hab.symm, hst.symm⟩
  | _ => exact render_append_inj_of_isPlain rfl ha hb hs ht h

end following

theorem render_inj {a b : Operand} (ha : a.Clear) (hb : b.Clear) (h : a.render = b.render) :
    a = b := by
  have hnil : Stops [] := nofun
  refine (render_append_inj ha hb hnil hnil ?_).1
  rw [h]

theorem Clear.newline_not_mem {a : Operand} (h : a.Clear) : '\n' ∉ a.render.toList := by
  have hplain {a : Operand} (hp : a.isPlain) (h : a.Clear) : '\n' ∉ a.render.toList := fun hmem =>
    absurd (isWordRest_render hp h '\n' hmem) (by decide)
  induction a with
  | mem x ih =>
      rw [toList_render_mem]
      simp [ih h.of_mem]
  | memOffset x y ihx ihy =>
      rw [toList_render_memOffset]
      simp [ihx h.of_memOffset.1, ihy h.of_memOffset.2]
  | _ => exact hplain rfl h

def parts : Operand → List Operand
  | mem address => mem address :: address.parts
  | memOffset base offset => memOffset base offset :: (base.parts ++ offset.parts)
  | a => [a]

theorem Clear.of_mem_parts {a b : Operand} (h : a.Clear) (hb : b ∈ a.parts) : b.Clear := by
  induction a with
  | mem x ih =>
      rcases List.mem_cons.mp hb with rfl | hb
      · exact h
      · exact ih h.of_mem hb
  | memOffset x y ihx ihy =>
      rcases List.mem_cons.mp hb with rfl | hb
      · exact h
      · exact (List.mem_append.mp hb).elim (ihx h.of_memOffset.1) (ihy h.of_memOffset.2)
  | _ =>
      cases List.mem_singleton.mp hb
      exact h

/-- The text of the operands behind the first. -/
def followingText (rest : List Operand) : List Char :=
  rest.flatMap fun a => ',' :: ' ' :: a.render.toList

theorem intercalate_render (a : Operand) (rest : List Operand) :
    [',', ' '].intercalate ((a :: rest).map fun a => a.render.toList) =
      a.render.toList ++ followingText rest := by
  induction rest generalizing a with
  | nil => simp [followingText]
  | cons next rest ih =>
      have htail := ih next
      rw [List.map_cons] at htail
      simp [followingText, List.intercalate_cons_cons, htail]

theorem stops_followingText (rest : List Operand) : Stops (followingText rest) := by
  cases rest with
  | nil => exact nofun
  | cons a rest => exact stops_cons (by decide) _

theorem followingText_inj {xs ys : List Operand} (hx : ∀ a ∈ xs, a.Clear) (hy : ∀ a ∈ ys, a.Clear)
    (h : followingText xs = followingText ys) : xs = ys := by
  induction xs generalizing ys with
  | nil =>
      cases ys with
      | nil => rfl
      | cons y ys => cases h
  | cons x xs ih =>
      cases ys with
      | nil => cases h
      | cons y ys =>
          obtain ⟨hxclear, hxrest⟩ := List.forall_mem_cons.mp hx
          obtain ⟨hyclear, hyrest⟩ := List.forall_mem_cons.mp hy
          have htext :
              x.render.toList ++ followingText xs = y.render.toList ++ followingText ys := by
            simpa [followingText] using h
          obtain ⟨rfl, hrest⟩ := render_append_inj hxclear hyclear (stops_followingText xs)
            (stops_followingText ys) htext
          rw [ih hxrest hyrest hrest]

end Operand

namespace Opcode

theorem mnemonic_injective : Function.Injective mnemonic := by
  have hname (op : Opcode) : ofMnemonic? op.mnemonic = some op := by
    cases op with
    | basic op => cases op <;> decide
    | special op => cases op <;> decide
    | data => decide
  intro op op' h
  rw [← Option.some_inj, ← hname, h, hname]

theorem length_mnemonic (op : Opcode) : op.mnemonic.toList.length = 3 := by
  cases op with
  | basic op => cases op <;> decide
  | special op => cases op <;> decide
  | data => decide

theorem isUpper_mnemonic (op : Opcode) : ∀ c ∈ op.mnemonic.toList, c.isUpper := by
  rw [← List.all_eq_true]
  cases op with
  | basic op => cases op <;> decide
  | special op => cases op <;> decide
  | data => decide

end Opcode

namespace Instruction

theorem eq_of_operands {i j : Instruction} (ho : i.opcode = j.opcode)
    (h : i.operands = j.operands) : i = j := by
  cases i <;> cases j <;> simp_all [opcode, operands]

def operandText : List Operand → List Char
  | [] => []
  | first :: rest => ' ' :: (first.render.toList ++ Operand.followingText rest)

theorem toList_render (i : Instruction) :
    i.render.toList = i.opcode.mnemonic.toList ++ operandText i.operands := by
  unfold render operandText
  cases i.operands with
  | nil => simp
  | cons first rest =>
      have hseparator : ", ".toList = [',', ' '] := rfl
      have hoperands := Operand.intercalate_render first rest
      simp only [String.toList_append, String.toList_intercalate, hseparator, List.map_map,
        List.append_assoc]
      rw [← hoperands]
      rfl

theorem operandText_inj {xs ys : List Operand} (hx : ∀ a ∈ xs, a.Clear) (hy : ∀ a ∈ ys, a.Clear)
    (h : operandText xs = operandText ys) : xs = ys := by
  cases xs with
  | nil =>
      cases ys with
      | nil => rfl
      | cons y ys => cases h
  | cons x xs =>
      cases ys with
      | nil => cases h
      | cons y ys =>
          apply Operand.followingText_inj hx hy
          simpa [Operand.followingText] using (List.cons.inj h).2

theorem newline_not_mem_operandText {operands : List Operand} (h : ∀ a ∈ operands, a.Clear) :
    '\n' ∉ operandText operands := by
  cases operands with
  | nil => exact List.not_mem_nil
  | cons first rest =>
      obtain ⟨hfirst, hrest⟩ := List.forall_mem_cons.mp h
      have hlines : ∀ a ∈ rest, '\n' ∉ a.render.toList := fun a ha => (hrest a ha).newline_not_mem
      simpa [operandText, Operand.followingText, hfirst.newline_not_mem] using hlines

theorem render_inj {i j : Instruction} (hi : ∀ a ∈ i.operands, a.Clear)
    (hj : ∀ a ∈ j.operands, a.Clear) (h : i.render = j.render) : i = j := by
  have hchars := congrArg String.toList h
  rw [toList_render, toList_render] at hchars
  have hlength : i.opcode.mnemonic.toList.length = j.opcode.mnemonic.toList.length := by
    rw [i.opcode.length_mnemonic, j.opcode.length_mnemonic]
  obtain ⟨hmnemonic, hoperands⟩ := List.append_inj hchars hlength
  have hopcode := Opcode.mnemonic_injective (String.toList_injective hmnemonic)
  exact eq_of_operands hopcode (operandText_inj hi hj hoperands)

end Instruction

namespace Line

/-- The labels in the line are words, and those among its operands stand for nothing else. -/
def Clear : Line → Prop
  | label name => IsWord name
  | instruction i => ∀ a ∈ i.operands, a.Clear

theorem toList_render_label (name : String) : (label name).render.toList = ':' :: name.toList := by
  simp only [render, String.toList_append]
  rfl

theorem render_label_ne (name : String) (i : Instruction) : (label name).render ≠ i.render := by
  intro h
  have hchars := congrArg String.toList h
  rw [toList_render_label, Instruction.toList_render] at hchars
  have hlength := i.opcode.length_mnemonic
  have hupper := i.opcode.isUpper_mnemonic
  cases hm : i.opcode.mnemonic.toList with
  | nil => simp [hm] at hlength
  | cons c cs =>
      rw [hm] at hchars hupper
      obtain ⟨rfl, -⟩ := List.cons.inj hchars
      exact absurd (hupper ':' List.mem_cons_self) (by decide)

theorem render_inj {l m : Line} (hl : l.Clear) (hm : m.Clear) (h : l.render = m.render) :
    l = m := by
  cases l with
  | label name =>
      cases m with
      | label other =>
          have hchars := congrArg String.toList h
          rw [toList_render_label, toList_render_label] at hchars
          rw [String.toList_injective (List.cons.inj hchars).2]
      | instruction j => exact absurd h (render_label_ne name j)
  | instruction i =>
      cases m with
      | label other => exact absurd h.symm (render_label_ne other i)
      | instruction j => rw [Instruction.render_inj hl hm h]

theorem Clear.newline_not_mem {l : Line} (h : l.Clear) : '\n' ∉ l.render.toList := by
  cases l with
  | label name =>
      rw [toList_render_label]
      simp [IsWord.not_mem h (c := '\n') (by decide)]
  | instruction i =>
      have hmnemonic : '\n' ∉ i.opcode.mnemonic.toList := fun hmem =>
        absurd (i.opcode.isUpper_mnemonic '\n' hmem) (by decide)
      have hoperands : '\n' ∉ Instruction.operandText i.operands :=
        Instruction.newline_not_mem_operandText h
      change '\n' ∉ i.render.toList
      rw [Instruction.toList_render]
      simp [hmnemonic, hoperands]

end Line

/-- The text of a program determines its lines. -/
theorem Program.lines_eq_of_assemble_eq {p q : Program} (hp : ∀ line ∈ p.lines, line.Clear)
    (hq : ∀ line ∈ q.lines, line.Clear) (h : p.assemble = q.assemble) : p.lines = q.lines := by
  have hchars := congrArg String.toList h
  simp only [assemble, String.toList_join, List.flatMap_map, String.toList_append] at hchars
  generalize p.lines = ls at hp hchars
  generalize q.lines = ms at hq hchars
  have hnewline : "\n".toList = ['\n'] := rfl
  rw [hnewline] at hchars
  induction ls generalizing ms with
  | nil =>
      cases ms with
      | nil => rfl
      | cons m ms => simp at hchars
  | cons l ls ih =>
      cases ms with
      | nil => simp at hchars
      | cons m ms =>
          obtain ⟨hl, hls⟩ := List.forall_mem_cons.mp hp
          obtain ⟨hm, hms⟩ := List.forall_mem_cons.mp hq
          simp only [List.flatMap_cons, List.append_assoc, List.singleton_append] at hchars
          obtain ⟨hline, hrest⟩ := append_inj_of_stops (p := (· ≠ '\n'))
            (fun c hc => decide_eq_true fun he => hl.newline_not_mem (he ▸ hc))
            (fun c hc => decide_eq_true fun he => hm.newline_not_mem (he ▸ hc))
            (by simp) (by simp) hchars
          rw [Line.render_inj hl hm (String.toList_injective hline),
            ih hls ms hms (List.cons.inj hrest).2]

def everyOperand (lines : List Line) : List Operand :=
  (lines.flatMap Line.operands).flatMap Operand.parts

theorem clear_of_mem_everyOperand {lines : List Line} (h : ∀ line ∈ lines, line.Clear)
    {a : Operand} (ha : a ∈ everyOperand lines) : a.Clear := by
  obtain ⟨whole, hwhole, hpart⟩ := List.mem_flatMap.mp ha
  obtain ⟨line, hline, hmem⟩ := List.mem_flatMap.mp hwhole
  cases line with
  | label name => cases hmem
  | instruction i => exact (h _ hline whole hmem).of_mem_parts hpart

namespace Lowers

variable {env : Environment} {code : List Stmt} {file? : Option String} {c : Compilation}

theorem everyLine_eq (hr : env.registry.OnlyBundled) (hl : Lowers env code (.start file?) c) :
    c.program.everyLine = c.program.lines := by
  have hset : c.program.setAside = #[] := (hl.frame hr).setAside rfl rfl
  simp [Program.everyLine, Program.lines, hset]

theorem labelOperands_subset (hr : env.registry.OnlyBundled)
    (hl : Lowers env code (.start file?) c) :
    labelOperands c.program.lines ⊆ labelNames c.program.lines := by
  have hclosed := (Compilation.Closed.start file?).of_lowers hr hl
  have hoperands := hclosed.operands
  simpa [Compilation.promised, hl.everyLine_eq hr] using hoperands

section named

variable (hr : env.registry.OnlyBundled) (hsources : ∃ files, env.sources.tree = .ofFiles files)
  (hcode : Stmt.AllNamed code) (hl : Lowers env code (.start file?) c)
include hr hsources hcode hl

theorem isWord_of_mem_labelNames {label : String} (h : label ∈ labelNames c.program.lines) :
    IsWord label := by
  have hnamed := (Compilation.WellNamed.start file?).of_lowers hr hsources hcode hl
  apply hnamed.isWord
  rwa [List.append_nil, hl.everyLine_eq hr]

theorem mem_labelNames_iff_of_mem_operandNames {name : String} (h : name ∈ operandNames) :
    name ∈ labelNames c.program.lines ↔ (.root, name) ∈ c.origins := by
  constructor
  · intro hlabel
    have hnamed := (Compilation.WellNamed.start file?).of_lowers hr hsources hcode hl
    apply hnamed.mem_origins _ h
    rwa [List.append_nil, hl.everyLine_eq hr]
  · intro horigin
    obtain ⟨event, hevent, horigin⟩ := List.mem_filterMap.mp horigin
    cases event with
    | label path word =>
        cases horigin
        have hclosed := (Compilation.Closed.start file?).of_lowers hr hl
        have hwritten := hclosed.events _ _ hevent
        simpa [ModulePath.mangle_root, Compilation.promised, hl.everyLine_eq hr] using hwritten
    | _ => cases horigin

theorem clear (hfree : ∀ name ∈ operandNames, (.root, name) ∉ c.origins) :
    ∀ line ∈ c.program.lines, line.Clear := by
  intro line hline
  cases line with
  | label name => exact hl.isWord_of_mem_labelNames hr hsources hcode (mem_labelNames.mpr hline)
  | instruction i =>
      intro a ha label hlabel
      have hoperand : label ∈ labelOperands c.program.lines :=
        mem_labelOperands.mpr ⟨_, hline, a, ha, hlabel⟩
      have hwritten := hl.labelOperands_subset hr hoperand
      refine ⟨hl.isWord_of_mem_labelNames hr hsources hcode hwritten, fun hspelled => ?_⟩
      exact hfree label hspelled
        ((hl.mem_labelNames_iff_of_mem_operandNames hr hsources hcode hspelled).mp hwritten)

end named

end Lowers

/-- No label is spelled like a register or a special operand exactly if no name of the root that is
spelled so gets a label. Then operands with the same text are equal, and the text of the program
determines its lines. -/
theorem assembly_unambiguous (env : Environment) (hr : env.registry.OnlyBundled)
    (hsources : ∃ files, env.sources.tree = .ofFiles files) (file? : Option String)
    (modules : List Module) (hparsed : ∀ m ∈ modules, ∃ source, parseModule source = .ok m) :
    Lowers env (modules.flatMap Module.body) (.start file?) (compileModules env file? modules) ∧
      ∀ c, Lowers env (modules.flatMap Module.body) (.start file?) c →
        ((∀ label ∈ labelNames c.program.lines ++ labelOperands c.program.lines,
            label ∉ operandNames) ↔ ∀ name ∈ operandNames, (.root, name) ∉ c.origins) ∧
        ((∀ name ∈ operandNames, (.root, name) ∉ c.origins) →
          (∀ line ∈ c.program.lines, line.Clear) ∧
          (∀ a ∈ everyOperand c.program.lines, ∀ b ∈ everyOperand c.program.lines,
            a.render = b.render → a = b) ∧
          ∀ p : Program, (∀ line ∈ p.lines, line.Clear) → p.assemble = c.program.assemble →
            p.lines = c.program.lines) := by
  have hcode : Stmt.AllNamed (modules.flatMap Module.body) := by
    rw [Stmt.allNamed_iff]
    intro s hs
    obtain ⟨m, hm, hs⟩ := List.mem_flatMap.mp hs
    obtain ⟨source, hsource⟩ := hparsed m hm
    exact Stmt.allNamed_iff.mp (parseModule_named hsource) s hs
  refine ⟨compileModules_lowers env file? modules, fun c hl => ⟨?_, fun hfree => ?_⟩⟩
  · have hiff {name : String} (hname : name ∈ operandNames) :=
      hl.mem_labelNames_iff_of_mem_operandNames hr hsources hcode hname
    constructor
    · intro h name hname horigin
      exact h name (List.mem_append_left _ ((hiff hname).mpr horigin)) hname
    · intro h label hlabel hname
      have hwritten : label ∈ labelNames c.program.lines :=
        (List.mem_append.mp hlabel).elim id fun ho => hl.labelOperands_subset hr ho
      exact h label hname ((hiff hname).mp hwritten)
  · have hclear := hl.clear hr hsources hcode hfree
    refine ⟨hclear, fun a ha b hb heq => ?_, fun p hp heq => ?_⟩
    · exact Operand.render_inj (clear_of_mem_everyOperand hclear ha)
        (clear_of_mem_everyOperand hclear hb) heq
    · exact Program.lines_eq_of_assemble_eq hp hclear heq

/-- Whether a source can be parsed and its module passes a check. -/
def parsesAnd (source : String) (check : Module → Bool) : Bool :=
  match parseModule source with
  | .ok m => check m
  | .error _ => false

theorem exists_of_parsesAnd {source : String} {check : Module → Bool}
    (h : parsesAnd source check = true) : ∃ m, parseModule source = .ok m ∧ check m = true := by
  unfold parsesAnd at h
  cases hm : parseModule source with
  | ok m => exact ⟨m, rfl, by simpa [hm] using h⟩
  | error e => simp [hm] at h

/-- The module on its own, with calls up to two levels deep. -/
def Module.alone (m : Module) : Compilation :=
  LowerM.body (.bundled [] (.empty [])) 2 m.body (.start none)

theorem Module.alone_lowers (m : Module) :
    Lowers (.bundled [] (.empty [])) ([m].flatMap Module.body) (.start none) m.alone := by
  rw [List.flatMap_singleton]
  exact LowerM.body_lowers _ 2 m.body _

def callsNamedLikeRegister : String := "def A():\n    pass\nA = 5\nA()\n"

/-- A function that is named like a register is accepted, and then an operand that is written `A`
may be either of the two. -/
theorem function_named_like_register :
    ∃ m, parseModule callsNamedLikeRegister = .ok m ∧ m.alone.diagnostics.isEmpty ∧
      .reg .A ∈ everyOperand m.alone.program.lines ∧
      .label "A" ∈ everyOperand m.alone.program.lines ∧
      (Operand.reg .A).render = (Operand.label "A").render ∧ Operand.reg .A ≠ .label "A" := by
  have hcheck : parsesAnd callsNamedLikeRegister (fun m => m.alone.diagnostics.isEmpty ∧
      .reg .A ∈ everyOperand m.alone.program.lines ∧
      .label "A" ∈ everyOperand m.alone.program.lines) = true := by
    decide +kernel
  obtain ⟨m, hm, hcheck⟩ := exists_of_parsesAnd hcheck
  obtain ⟨hempty, hreg, hlabel⟩ := of_decide_eq_true hcheck
  exact ⟨m, hm, hempty, hreg, hlabel, rfl, nofun⟩

def callsInLoop : String :=
  "import dev.drivers\ndef a(x):\n    return x\nB = 1\nwhile B < 3:\n    B = a(B)\n"

theorem assembly_unambiguous_callsInLoop :
    ∃ m, parseModule callsInLoop = .ok m ∧ m.alone.diagnostics.isEmpty ∧
      .reg .B ∈ everyOperand m.alone.program.lines ∧
      .label "a" ∈ everyOperand m.alone.program.lines ∧
      (∀ name ∈ operandNames, (.root, name) ∉ m.alone.origins) ∧
      (∀ a ∈ everyOperand m.alone.program.lines, ∀ b ∈ everyOperand m.alone.program.lines,
        a.render = b.render → a = b) ∧
      ∀ p : Program, (∀ line ∈ p.lines, line.Clear) → p.assemble = m.alone.program.assemble →
        p.lines = m.alone.program.lines := by
  have hcheck : parsesAnd callsInLoop (fun m => m.alone.diagnostics.isEmpty ∧
      .reg .B ∈ everyOperand m.alone.program.lines ∧
      .label "a" ∈ everyOperand m.alone.program.lines ∧
      ∀ name ∈ operandNames, (.root, name) ∉ m.alone.origins) = true := by
    decide +kernel
  obtain ⟨m, hm, hcheck⟩ := exists_of_parsesAnd hcheck
  obtain ⟨hempty, hreg, hlabel, hfree⟩ := of_decide_eq_true hcheck
  have hparsed : ∀ m' ∈ [m], ∃ source, parseModule source = .ok m' :=
    List.forall_mem_singleton.mpr ⟨callsInLoop, hm⟩
  have hall := assembly_unambiguous (.bundled [] (.empty [])) Registry.onlyBundled_bundled
    ⟨.empty [], rfl⟩ none [m] hparsed
  have hafter := (hall.2 m.alone m.alone_lowers).2 hfree
  exact ⟨m, hm, hempty, hreg, hlabel, hfree, hafter.2⟩

end P16
