import Mathlib.Data.List.Basic
import P16.Lowering.Function

/-!
# Lines written by lowering

Everything that lowering writes to a program outside of opening and closing footer blocks is a list
of lines at the end of the active segment. Each of the code patterns is given here as that list.
-/

namespace P16

namespace Line

def set (target source : Operand) : Line := .instruction (.basic .set target source)

def jump (name : String) : Line := set (.special .pc) (.label name)

def push (operand : Operand) : Line := set (.special .push) operand

def pop (operand : Operand) : Line := set operand (.special .pop)

def call (name : String) : Line := .instruction (.special .jsr (.label name))

def jumpBack : Line := set (.special .pc) (.reg .link)

def name? : Line → Option String
  | label name => some name
  | instruction _ => none

end Line

def labelNames (lines : List Line) : List String := lines.filterMap Line.name?

@[simp] theorem labelNames_nil : labelNames [] = [] := rfl

@[simp] theorem labelNames_label (name : String) (lines : List Line) :
    labelNames (.label name :: lines) = name :: labelNames lines := rfl

@[simp] theorem labelNames_instruction (i : Instruction) (lines : List Line) :
    labelNames (.instruction i :: lines) = labelNames lines := rfl

@[simp] theorem labelNames_append (first rest : List Line) :
    labelNames (first ++ rest) = labelNames first ++ labelNames rest :=
  List.filterMap_append

theorem labelNames_perm {lines lines' : List Line} (h : lines.Perm lines') :
    (labelNames lines).Perm (labelNames lines') :=
  h.filterMap _

theorem mem_labelNames {name : String} {lines : List Line} :
    name ∈ labelNames lines ↔ .label name ∈ lines := by
  rw [labelNames, List.mem_filterMap]
  constructor
  · rintro ⟨line | i, hline, hname⟩
    · cases hname
      exact hline
    · cases hname
  · intro h
    exact ⟨_, h, rfl⟩

def LoopTest.headerLines (test : LoopTest) (labels : LoopLabels) (bodyLabel : String) :
    List Line :=
  .label labels.start :: .instruction (.basic test.op test.left test.right) ::
    if test.op = .ifg then [.jump bodyLabel, .jump labels.stop, .label bodyLabel]
    else [.jump labels.stop]

def LoopLabels.footerLines (labels : LoopLabels) : List Line :=
  [.jump labels.start, .label labels.stop]

def FunctionSymbol.prologueLines (f : FunctionSymbol) : List Line :=
  .label f.label :: .pop (.reg .link) ::
    ((Register.arguments.take f.arity).reverse.map fun x => .pop (.reg x))

def enterLines (nested : Bool) (arguments : List Operand) : List Line :=
  (if nested then [.push (.reg .link)] else []) ++ arguments.map .push

def leaveLines (nested : Bool) (results : List Register) : List Line :=
  (results.reverse.map fun x => .pop (.reg x)) ++ if nested then [.pop (.reg .link)] else []

def callLines (nested : Bool) (name : String) (arguments : List Operand)
    (results : List Register) : List Line :=
  enterLines nested arguments ++ .call name :: leaveLines nested results

def giveBackLines (operands : List Operand) : List Line :=
  operands.map .push ++ [.jumpBack]

namespace Program

def writeAll (p : Program) (lines : List Line) : Program := lines.foldl write p

/-- The lines of the active segment. -/
def written (p : Program) : List Line :=
  match p.active with
  | .body => p.body.toList
  | .footer => p.footer.toList

@[simp] theorem writeAll_nil (p : Program) : p.writeAll [] = p := rfl

@[simp] theorem writeAll_cons (p : Program) (line : Line) (lines : List Line) :
    p.writeAll (line :: lines) = (p.write line).writeAll lines := rfl

@[simp] theorem writeAll_append (p : Program) (first rest : List Line) :
    p.writeAll (first ++ rest) = (p.writeAll first).writeAll rest :=
  List.foldl_append

@[simp] theorem active_write (p : Program) (line : Line) : (p.write line).active = p.active := by
  unfold write
  split <;> rfl

@[simp] theorem counters_write (p : Program) (line : Line) :
    (p.write line).counters = p.counters := by
  unfold write
  split <;> rfl

@[simp] theorem setAside_write (p : Program) (line : Line) :
    (p.write line).setAside = p.setAside := by
  unfold write
  split <;> rfl

@[simp] theorem openBlocks_write (p : Program) (line : Line) :
    (p.write line).openBlocks = p.openBlocks := by
  unfold write
  split <;> rfl

theorem body_write (p : Program) (line : Line) (h : p.active = .footer) :
    (p.write line).body = p.body := by
  unfold write
  rw [h]

theorem written_write (p : Program) (line : Line) :
    (p.write line).written = p.written ++ [line] := by
  unfold written
  rw [active_write]
  unfold write
  cases p.active <;> simp

section writeAll

variable (p : Program) (lines : List Line)

@[simp] theorem active_writeAll : (p.writeAll lines).active = p.active := by
  induction lines generalizing p with
  | nil => rfl
  | cons line lines ih => rw [writeAll_cons, ih, active_write]

@[simp] theorem counters_writeAll : (p.writeAll lines).counters = p.counters := by
  induction lines generalizing p with
  | nil => rfl
  | cons line lines ih => rw [writeAll_cons, ih, counters_write]

@[simp] theorem setAside_writeAll : (p.writeAll lines).setAside = p.setAside := by
  induction lines generalizing p with
  | nil => rfl
  | cons line lines ih => rw [writeAll_cons, ih, setAside_write]

@[simp] theorem openBlocks_writeAll : (p.writeAll lines).openBlocks = p.openBlocks := by
  induction lines generalizing p with
  | nil => rfl
  | cons line lines ih => rw [writeAll_cons, ih, openBlocks_write]

theorem body_writeAll (h : p.active = .footer) : (p.writeAll lines).body = p.body := by
  induction lines generalizing p with
  | nil => rfl
  | cons line lines ih =>
      have hactive : (p.write line).active = .footer := (p.active_write line).trans h
      rw [writeAll_cons, ih _ hactive, body_write p line h]

@[simp] theorem written_writeAll : (p.writeAll lines).written = p.written ++ lines := by
  induction lines generalizing p with
  | nil => simp
  | cons line lines ih =>
      rw [writeAll_cons, ih, written_write, List.append_assoc, List.singleton_append]

theorem foldl_write {α : Type} (f : α → Line) (items : List α) :
    items.foldl (fun p item => p.write (f item)) p = p.writeAll (items.map f) := by
  rw [writeAll, List.foldl_map]

end writeAll

/-- The lines of the program in some order, those set aside included. -/
def everyLine (p : Program) : List Line :=
  p.body.toList ++ p.footer.toList ++ p.setAside.toList

theorem everyLine_write (p : Program) (line : Line) :
    (p.write line).everyLine.Perm (p.everyLine ++ [line]) := by
  rw [List.perm_iff_count]
  intro a
  unfold write everyLine
  cases p.active with
  | body =>
      simp only [Array.toList_push, List.count_append]
      omega
  | footer =>
      simp only [Array.toList_push, List.count_append]
      omega

theorem everyLine_writeAll (p : Program) (lines : List Line) :
    (p.writeAll lines).everyLine.Perm (p.everyLine ++ lines) := by
  induction lines generalizing p with
  | nil => simp
  | cons line lines ih =>
      rw [writeAll_cons, ← List.singleton_append, ← List.append_assoc]
      exact (ih _).trans (.append_right _ (p.everyLine_write line))

theorem labelNames_writeAll (p : Program) (lines held : List Line) :
    (labelNames ((p.writeAll lines).everyLine ++ held)).Perm
      (labelNames lines ++ labelNames (p.everyLine ++ held)) := by
  rw [← labelNames_append, ← List.append_assoc]
  refine labelNames_perm (.append_right held ?_)
  exact (p.everyLine_writeAll lines).trans List.perm_append_comm

theorem everyLine_enterFooter (p : Program) :
    (p.enterFooter.2.everyLine ++ p.enterFooter.1.lines.toList).Perm p.everyLine := by
  rw [List.perm_iff_count]
  intro a
  simp only [everyLine, enterFooter, openBlock, switch, List.count_append, List.count_nil]
  omega

theorem everyLine_leaveFooter (p : Program) (mark : FooterMark) :
    (p.leaveFooter mark).everyLine.Perm (p.everyLine ++ mark.lines.toList) := by
  rw [List.perm_iff_count]
  intro a
  unfold leaveFooter switch closeBlock everyLine
  dsimp only
  split <;> simp only [Array.toList_append, List.count_append, List.count_nil] <;> omega

section leaveFooter

variable (p : Program) (mark : FooterMark)

@[simp] theorem active_leaveFooter : (p.leaveFooter mark).active = mark.segment := by
  unfold leaveFooter switch closeBlock
  split <;> rfl

@[simp] theorem counters_leaveFooter : (p.leaveFooter mark).counters = p.counters := by
  unfold leaveFooter switch closeBlock
  split <;> rfl

@[simp] theorem openBlocks_leaveFooter : (p.leaveFooter mark).openBlocks = p.openBlocks - 1 := by
  unfold leaveFooter switch closeBlock
  split
  · rename_i h
    exact h.symm
  · rfl

@[simp] theorem body_leaveFooter : (p.leaveFooter mark).body = p.body := by
  unfold leaveFooter switch closeBlock
  split <;> rfl

theorem footer_leaveFooter (h : 1 < p.openBlocks) : (p.leaveFooter mark).footer = mark.lines := by
  unfold leaveFooter switch closeBlock
  have hinner : ¬ p.openBlocks - 1 = 0 := by omega
  rw [if_neg hinner]

theorem setAside_leaveFooter (h : p.openBlocks = 1) : (p.leaveFooter mark).setAside = #[] := by
  unfold leaveFooter switch closeBlock
  rw [if_pos (by simp [h])]

end leaveFooter

/-- Lines have been added to the segments, behind those that were there. -/
structure Continues (p p' : Program) : Prop where
  body : p.body.toList <+: p'.body.toList
  footer : p.footer.toList <+: p'.footer.toList

theorem Continues.refl (p : Program) : Continues p p := ⟨List.prefix_rfl, List.prefix_rfl⟩

theorem Continues.trans {p p₁ p₂ : Program} (h : Continues p p₁) (g : Continues p₁ p₂) :
    Continues p p₂ :=
  ⟨h.body.trans g.body, h.footer.trans g.footer⟩

theorem continues_writeAll (p : Program) (lines : List Line) : Continues p (p.writeAll lines) := by
  induction lines generalizing p with
  | nil => exact .refl p
  | cons line lines ih =>
      have hwrite : Continues p (p.write line) := by
        unfold write
        split
        · exact ⟨by simp, List.prefix_rfl⟩
        · exact ⟨List.prefix_rfl, by simp⟩
      exact hwrite.trans (ih _)

theorem Continues.inFooter {p p' : Program} (h : Continues p.enterFooter.2 p') :
    Continues p (p'.leaveFooter p.enterFooter.1) := by
  refine ⟨?_, ?_⟩
  · rw [body_leaveFooter]
    exact h.body
  · unfold leaveFooter switch closeBlock
    split
    · rw [Array.toList_append, Array.toList_append, List.append_assoc]
      exact List.prefix_append _ _
    · exact List.prefix_rfl

theorem pushAll_eq (p : Program) (operands : List Operand) :
    p.pushAll operands = p.writeAll (operands.map .push) :=
  p.foldl_write .push operands

theorem popAll_eq (p : Program) (operands : List Operand) :
    p.popAll operands = p.writeAll (operands.reverse.map .pop) :=
  p.foldl_write .pop operands.reverse

theorem callSequence_eq (p : Program) (nested : Bool) (label : String) (arguments : List Operand)
    (results : List Register) :
    p.callSequence nested label arguments results =
      p.writeAll (callLines nested label arguments results) := by
  unfold callSequence
  simp only [pushAll_eq, popAll_eq, ← List.map_reverse, List.map_map]
  cases nested <;> simp [callLines, enterLines, leaveLines] <;> rfl

theorem giveBack_eq (p : Program) (operands : List Operand) :
    (p.pushAll operands).jumpBack = p.writeAll (giveBackLines operands) := by
  rw [pushAll_eq, giveBackLines, writeAll_append]
  rfl

end Program

theorem LoopTest.header_eq (test : LoopTest) (labels : LoopLabels) (bodyLabel : String)
    (p : Program) :
    test.header labels bodyLabel p = p.writeAll (test.headerLines labels bodyLabel) := by
  unfold header headerLines
  split <;> rfl

theorem FunctionSymbol.prologue_eq (f : FunctionSymbol) (p : Program) :
    f.prologue p = p.writeAll f.prologueLines := by
  unfold prologue prologueLines
  rw [Program.popAll_eq, ← List.map_reverse, List.map_map]
  rfl

section labels

theorem labelNames_map {α : Type} {f : α → Line} (hf : ∀ a, (f a).name? = none) (items : List α) :
    labelNames (items.map f) = [] := by
  rw [labelNames, List.filterMap_map, List.filterMap_eq_nil_iff]
  exact fun a _ => hf a

theorem labelNames_enterLines (nested : Bool) (arguments : List Operand) :
    labelNames (enterLines nested arguments) = [] := by
  unfold enterLines
  rw [labelNames_append, labelNames_map fun _ => rfl]
  cases nested <;> rfl

theorem labelNames_leaveLines (nested : Bool) (results : List Register) :
    labelNames (leaveLines nested results) = [] := by
  unfold leaveLines
  rw [labelNames_append, labelNames_map fun _ => rfl]
  cases nested <;> rfl

theorem labelNames_callLines (nested : Bool) (name : String) (arguments : List Operand)
    (results : List Register) : labelNames (callLines nested name arguments results) = [] := by
  unfold callLines
  rw [labelNames_append, labelNames_enterLines]
  exact labelNames_leaveLines nested results

theorem labelNames_giveBackLines (operands : List Operand) :
    labelNames (giveBackLines operands) = [] := by
  unfold giveBackLines
  rw [labelNames_append, labelNames_map fun _ => rfl]
  rfl

theorem labelNames_prologueLines (f : FunctionSymbol) :
    labelNames f.prologueLines = [f.label] := by
  change f.label :: labelNames (List.map _ _) = _
  rw [labelNames_map fun _ => rfl]

end labels

namespace Compilation

variable (c : Compilation) (key : FunctionKey) (f : FunctionSymbol)

theorem openBody_program :
    (c.openBody key f).program = c.program.enterFooter.2.writeAll f.prologueLines :=
  f.prologue_eq _

theorem openBody_written : (c.openBody key f).program.written = f.prologueLines := by
  rw [openBody_program, Program.written_writeAll]
  rfl

theorem everyLine_openBody :
    ((c.openBody key f).program.everyLine ++ c.program.footer.toList).Perm
      (c.program.everyLine ++ f.prologueLines) := by
  rw [openBody_program]
  refine ((Program.everyLine_writeAll _ _).append_right _).trans ?_
  rw [List.append_assoc]
  refine (List.perm_append_comm.append_left _).trans ?_
  rw [← List.append_assoc]
  exact c.program.everyLine_enterFooter.append_right _

theorem closeBody_program (inner : Compilation) :
    (closeBody key c inner).program =
      (inner.program.writeAll [.jumpBack]).leaveFooter c.program.enterFooter.1 := rfl

theorem everyLine_closeBody (inner : Compilation) :
    (closeBody key c inner).program.everyLine.Perm
      (inner.program.everyLine ++ c.program.footer.toList ++ [.jumpBack]) := by
  rw [closeBody_program]
  refine (Program.everyLine_leaveFooter _ _).trans ?_
  refine ((Program.everyLine_writeAll _ _).append_right _).trans ?_
  rw [List.append_assoc, List.append_assoc]
  exact List.perm_append_comm.append_left _

end Compilation

end P16
