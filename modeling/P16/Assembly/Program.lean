import P16.Assembly.Instruction
import P16.Table

/-!
# Programs under construction

A program has two segments: the body, which is top-level code in source order, and the footer, which
holds subroutines and data. Lines go to the active segment.

What is written to the footer between opening and closing a block stays together. A block that is
closed while another one is open is set aside and placed after the outermost block.
-/

namespace P16

inductive Segment where
  | body
  | footer
deriving DecidableEq, Inhabited

structure Program where
  body : Array Line
  footer : Array Line
  active : Segment
  /-- How many numbers have been given out for each purpose. -/
  counters : Table String Nat
  /-- Lines of blocks that were closed inside another block. -/
  setAside : Array Line
  openBlocks : Nat

/-- What has to be put back when a footer block is closed. -/
structure FooterMark where
  lines : Array Line
  segment : Segment

namespace Program

def haltLabel : String := "builtin_halt"

def empty : Program := ⟨#[], #[], .body, .empty, #[], 0⟩

def write (p : Program) (line : Line) : Program :=
  match p.active with
  | .body => { p with body := p.body.push line }
  | .footer => { p with footer := p.footer.push line }

def basic (p : Program) (op : BasicOpcode) (target source : Operand) : Program :=
  p.write (.instruction (.basic op target source))

def special (p : Program) (op : SpecialOpcode) (operand : Operand) : Program :=
  p.write (.instruction (.special op operand))

def data (p : Program) (words : List Operand) : Program :=
  p.write (.instruction (.data words))

def label (p : Program) (name : String) : Program :=
  p.write (.label name)

def set (p : Program) (target source : Operand) : Program :=
  p.basic .set target source

def jump (p : Program) (name : String) : Program :=
  p.set (.special .pc) (.label name)

def callSubroutine (p : Program) (name : String) : Program :=
  p.special .jsr (.label name)

def push (p : Program) (operand : Operand) : Program :=
  p.set (.special .push) operand

def pop (p : Program) (operand : Operand) : Program :=
  p.set operand (.special .pop)

def popReturn (p : Program) : Program :=
  p.pop (.special .pc)

def pushAll (p : Program) (operands : List Operand) : Program :=
  operands.foldl push p

/-- Pops into the operands, the last one first. -/
def popAll (p : Program) (operands : List Operand) : Program :=
  operands.reverse.foldl pop p

def preserve (p : Program) (registers : List Register) (inner : Program → Program) : Program :=
  (inner (p.pushAll (registers.map .reg))).popAll (registers.map .reg)

def switch (p : Program) (segment : Segment) : Segment × Program :=
  (p.active, { p with active := segment })

/-- Begins a footer block and gives the lines that the footer held before. -/
def openBlock (p : Program) : Array Line × Program :=
  (p.footer, { p with footer := #[], openBlocks := p.openBlocks + 1 })

/-- Ends the innermost block, where `outer` is what the footer held before it. -/
def closeBlock (p : Program) (outer : Array Line) : Program :=
  if p.openBlocks - 1 = 0 then
    { p with footer := outer ++ p.footer ++ p.setAside, setAside := #[], openBlocks := 0 }
  else
    { p with
      footer := outer
      setAside := p.setAside ++ p.footer
      openBlocks := p.openBlocks - 1 }

def enterFooter (p : Program) : FooterMark × Program :=
  let (lines, p) := p.openBlock
  let (segment, p) := p.switch .footer
  (⟨lines, segment⟩, p)

def leaveFooter (p : Program) (mark : FooterMark) : Program :=
  (p.switch mark.segment).2.closeBlock mark.lines

/-- Puts what `inner` writes into one footer block. -/
def inFooter (p : Program) (inner : Program → Program) : Program :=
  let (mark, p) := p.enterFooter
  (inner p).leaveFooter mark

/-- The next number for a purpose. The first is one. Numbers are 32 bits wide, and after the largest
they start again from zero. -/
def nextCounter (p : Program) (purpose : String) : Nat × Program :=
  let n := (p.counters.find? purpose).getD 0 + 1
  (n % 0x100000000, { p with counters := p.counters.insert purpose n })

def start : Program :=
  empty.inFooter fun p => ((p.jump haltLabel).label haltLabel).jump haltLabel

def lines (p : Program) : List Line :=
  p.body.toList ++ p.footer.toList

def assemble (p : Program) : String :=
  String.join (p.lines.map fun line => line.render ++ "\n")

end Program

end P16
