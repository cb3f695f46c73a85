import Mathlib.Logic.Function.Basic
import Mathlib.Tactic.Common
import P16.Assembly.Instruction

/-!
# The machine

Lines are executed one after another on 16-bit words. A failed test passes over the next
instruction, and over the one after it if the next one is itself a test. A label as a jump's target
stands for its line; everywhere else it stands for a word.

Only what compiled programs use is executed: a machine stops at data, at instructions for hardware,
at those that use `EX`, and at operands `SP`, `EX` and `PC` outside of a jump.

The stack is kept apart from the memory, or it lies in memory. Then pushing a word overwrites a
cell, and storing a word may overwrite the stack.
-/

namespace P16

abbrev Registers := Register → UInt16

/-- A program in the memory of a machine. -/
structure Machine where
  lines : List Line
  /-- What an arithmetic instruction makes of its target and its source. -/
  compute : BasicOpcode → UInt16 → UInt16 → UInt16
  /-- The word for which a label stands. -/
  word : String → UInt16
  address : Nat → UInt16
  /-- The line to which a jump to an address leads. -/
  lineAt : UInt16 → Nat
  /-- The address behind a call leads back behind the call. -/
  lineAt_address : ∀ (i : Nat) (operand : Operand),
    lines[i]? = some (.instruction (.special .jsr operand)) → lineAt (address (i + 1)) = i + 1

namespace BasicOpcode

def test? : BasicOpcode → Option (UInt16 → UInt16 → Bool)
  | ifb => some fun a b => a &&& b ≠ 0
  | ifc => some fun a b => a &&& b = 0
  | ife => some fun a b => a = b
  | ifn => some fun a b => a ≠ b
  | ifg => some fun a b => b < a
  | ifa => some fun a b => b.toInt16 < a.toInt16
  | ifl => some fun a b => a < b
  | ifu => some fun a b => a.toInt16 < b.toInt16
  | _ => none

def isArithmetic : BasicOpcode → Bool
  | add | sub | mul | mli | div | dvi | mod | mdi | and | bor | xor | shr | asr | shl => true
  | _ => false

end BasicOpcode

/-- How many lines a failed test passes over. -/
def skipped : List Line → Nat
  | [] => 0
  | .label _ :: rest => skipped rest + 1
  | .instruction (.basic op _ _) :: rest => if op.test?.isSome then skipped rest + 1 else 1
  | .instruction _ :: _ => 1

namespace Machine

/-- A way to keep a stack. -/
class Stack (σ : Type) where
  /-- The memory and the stack with one word more on it. -/
  push : (UInt16 → UInt16) → σ → UInt16 → (UInt16 → UInt16) × σ
  /-- The top of the stack, and the stack without it. -/
  pop? : (UInt16 → UInt16) → σ → Option (UInt16 × σ)

/-- The words themselves, the top first. -/
instance : Stack (List UInt16) where
  push memory stack w := (memory, w :: stack)
  pop?
    | _, [] => none
    | _, w :: rest => some (w, rest)

@[simp] theorem push_list (memory : UInt16 → UInt16) (stack : List UInt16) (w : UInt16) :
    Stack.push memory stack w = (memory, w :: stack) := rfl

/-- The address of the top in memory, which goes down with each word. -/
instance : Stack UInt16 where
  push memory sp w := (Function.update memory (sp - 1) w, sp - 1)
  pop? memory sp := some (memory sp, sp + 1)

structure State (σ : Type := List UInt16) where
  line : Nat
  registers : Registers
  memory : UInt16 → UInt16
  stack : σ

variable {σ : Type}

namespace State

def jump (s : State σ) (i : Nat) : State σ := { s with line := i }

def next (s : State σ) : State σ := s.jump (s.line + 1)

def assign (s : State σ) (x : Register) (w : UInt16) : State σ :=
  { s with registers := Function.update s.registers x w }

def push [Stack σ] (s : State σ) (w : UInt16) : State σ :=
  { s with
    memory := (Stack.push s.memory s.stack w).1
    stack := (Stack.push s.memory s.stack w).2 }

/-- The address of the top of a stack in memory. -/
abbrev sp (s : State UInt16) : UInt16 := s.stack

@[simp] theorem line_jump (s : State σ) (i : Nat) : (s.jump i).line = i := rfl

@[simp] theorem registers_jump (s : State σ) (i : Nat) : (s.jump i).registers = s.registers := rfl

@[simp] theorem stack_jump (s : State σ) (i : Nat) : (s.jump i).stack = s.stack := rfl

@[simp] theorem memory_jump (s : State σ) (i : Nat) : (s.jump i).memory = s.memory := rfl

@[simp] theorem jump_jump (s : State σ) (i j : Nat) : (s.jump i).jump j = s.jump j := rfl

@[simp] theorem line_assign (s : State σ) (x : Register) (w : UInt16) :
    (s.assign x w).line = s.line := rfl

@[simp] theorem registers_assign (s : State σ) (x : Register) (w : UInt16) :
    (s.assign x w).registers = Function.update s.registers x w := rfl

@[simp] theorem stack_assign (s : State σ) (x : Register) (w : UInt16) :
    (s.assign x w).stack = s.stack := rfl

@[simp] theorem memory_assign (s : State σ) (x : Register) (w : UInt16) :
    (s.assign x w).memory = s.memory := rfl

@[simp] theorem line_push [Stack σ] (s : State σ) (w : UInt16) : (s.push w).line = s.line := rfl

@[simp] theorem registers_push [Stack σ] (s : State σ) (w : UInt16) :
    (s.push w).registers = s.registers := rfl

@[simp] theorem stack_push (s : State) (w : UInt16) : (s.push w).stack = w :: s.stack := rfl

@[simp] theorem memory_push (s : State) (w : UInt16) : (s.push w).memory = s.memory := rfl

end State

variable (m : Machine) [Stack σ]

/-- The line of a label, the first if there are several. -/
def position? (name : String) : Option Nat := m.lines.findIdx? fun line => line = .label name

/-- The word of an operand that looks neither at the memory nor at the stack. -/
def plain? (r : Registers) : Operand → Option UInt16
  | .reg x => some (r x)
  | .lit w => some w
  | .label name => some (m.word name)
  | _ => none

def cell? (r : Registers) : Operand → Option UInt16
  | .mem a => m.plain? r a
  | .memOffset a b => do return (← m.plain? r a) + (← m.plain? r b)
  | _ => none

def read? (s : State σ) : Operand → Option (UInt16 × State σ)
  | .special .pop => (Stack.pop? s.memory s.stack).map fun top => (top.1, { s with stack := top.2 })
  | .special .peek => (Stack.pop? s.memory s.stack).map fun top => (top.1, s)
  | operand =>
    (m.plain? s.registers operand <|> (m.cell? s.registers operand).map s.memory).map (·, s)

def write? (s : State σ) (w : UInt16) : Operand → Option (State σ)
  | .reg x => some (s.assign x w)
  | .special .push => some (s.push w)
  | operand =>
    (m.cell? s.registers operand).map fun a =>
      { s with memory := Function.update s.memory a w }

def jump? (s : State σ) : Operand → Option (State σ)
  | .label name => (m.position? name).map s.jump
  | operand => (m.read? s operand).map fun (w, s) => s.jump (m.lineAt w)

/-- Executes an instruction; the line of `s` is the one behind it. -/
def execute? (s : State σ) : Instruction → Option (State σ)
  | .basic .set (.special .pc) source => m.jump? s source
  | .basic .set target source => do
    let (w, s) ← m.read? s source
    m.write? s w target
  | .basic op target source =>
    match op.test? with
    | some test => do
      let (b, s) ← m.read? s source
      let (a, s) ← m.read? s target
      return if test a b then s else s.jump (s.line + skipped (m.lines.drop s.line))
    | none =>
      if op.isArithmetic then do
        let (b, s) ← m.read? s source
        let (a, s) ← m.read? s target
        m.write? s (m.compute op a b) target
      else none
  | .special .jsr operand => m.jump? (s.push (m.address s.line)) operand
  | .special .. | .data _ => none

def step? (s : State σ) : Option (State σ) :=
  match m.lines[s.line]? with
  | none => none
  | some (.label _) => some s.next
  | some (.instruction i) => m.execute? s.next i

def run? : Nat → State σ → Option (State σ)
  | 0, s => some s
  | n + 1, s => (m.step? s).bind (run? n)

def Reaches (s t : State σ) : Prop := ∃ n, m.run? n s = some t

/-- The program holds `code` from line `i` on. -/
def Holds (i : Nat) (code : List Line) : Prop := code <+: m.lines.drop i

variable {m} {s t u : State σ} {i n k : Nat}

theorem holds_cons {line : Line} {code : List Line} :
    m.Holds i (line :: code) ↔ m.lines[i]? = some line ∧ m.Holds (i + 1) code := by
  unfold Holds
  rcases Nat.lt_or_ge i m.lines.length with hi | hi
  · rw [List.drop_eq_getElem_cons hi, List.cons_prefix_cons, List.getElem?_eq_getElem hi,
      Option.some_inj, eq_comm]
  · simp [List.drop_eq_nil_of_le hi, List.getElem?_eq_none hi]

theorem holds_append {code rest : List Line} :
    m.Holds i (code ++ rest) ↔ m.Holds i code ∧ m.Holds (i + code.length) rest := by
  induction code generalizing i with
  | nil => simp [Holds]
  | cons line code ih =>
      rw [List.cons_append, holds_cons, holds_cons, ih, List.length_cons, and_assoc]
      rw [show i + 1 + code.length = i + (code.length + 1) by omega]

theorem holds_of_split {before code after : List Line}
    (h : m.lines = before ++ (code ++ after)) : m.Holds before.length code := by
  rw [Holds, h, List.drop_left]
  exact List.prefix_append code after

theorem read?_of_plain? {operand : Operand} {w : UInt16}
    (h : m.plain? s.registers operand = some w) : m.read? s operand = some (w, s) := by
  cases operand <;> simp_all [read?, plain?]

theorem step?_label {name : String} (h : m.lines[s.line]? = some (.label name)) :
    m.step? s = some s.next := by
  simp [step?, h]

theorem step?_set {x : Register} {source : Operand} {w : UInt16}
    (h : m.lines[s.line]? = some (.instruction (.basic .set (.reg x) source)))
    (hw : m.plain? s.registers source = some w) : m.step? s = some (s.next.assign x w) := by
  have hr : m.read? s.next source = some (w, s.next) := read?_of_plain? hw
  simp [step?, h, execute?, hr, write?]

theorem step?_compute {op : BasicOpcode} {x : Register} {source : Operand} {w : UInt16}
    (h : m.lines[s.line]? = some (.instruction (.basic op (.reg x) source)))
    (hop : op.isArithmetic = true) (hw : m.plain? s.registers source = some w) :
    m.step? s = some (s.next.assign x (m.compute op (s.registers x) w)) := by
  have hr : m.read? s.next source = some (w, s.next) := read?_of_plain? hw
  have hx : m.read? s.next (.reg x) = some (s.registers x, s.next) := read?_of_plain? rfl
  cases op <;> simp_all [step?, execute?, BasicOpcode.test?, BasicOpcode.isArithmetic, write?]

theorem step?_test {op : BasicOpcode} {test : UInt16 → UInt16 → Bool} {target source : Operand}
    {a b : UInt16} (h : m.lines[s.line]? = some (.instruction (.basic op target source)))
    (hop : op.test? = some test) (ha : m.plain? s.registers target = some a)
    (hb : m.plain? s.registers source = some b) :
    m.step? s = some (if test a b then s.next
      else s.jump (s.line + 1 + skipped (m.lines.drop (s.line + 1)))) := by
  have hra : m.read? s.next target = some (a, s.next) := read?_of_plain? ha
  have hrb : m.read? s.next source = some (b, s.next) := read?_of_plain? hb
  have he : m.execute? s.next (.basic op target source) = some (if test a b then s.next
      else s.next.jump (s.next.line + skipped (m.lines.drop s.next.line))) := by
    cases op <;> simp_all [execute?, BasicOpcode.test?]
  simp only [step?, h, he]
  rfl

theorem step?_jump {name : String}
    (h : m.lines[s.line]? = some (.instruction (.basic .set (.special .pc) (.label name)))) :
    m.step? s = (m.position? name).map s.jump := by
  simp only [step?, h, execute?, jump?]
  rfl

theorem step?_jump_register {x : Register}
    (h : m.lines[s.line]? = some (.instruction (.basic .set (.special .pc) (.reg x)))) :
    m.step? s = some (s.jump (m.lineAt (s.registers x))) := by
  simp [step?, h, execute?, jump?, read?, plain?, State.next]

theorem step?_push {source : Operand} {w : UInt16}
    (h : m.lines[s.line]? = some (.instruction (.basic .set (.special .push) source)))
    (hw : m.plain? s.registers source = some w) : m.step? s = some (s.next.push w) := by
  have hr : m.read? s.next source = some (w, s.next) := read?_of_plain? hw
  simp [step?, h, execute?, hr, write?]

theorem pop?_of_cons {memory : UInt16 → UInt16} {stack rest : List UInt16} {w : UInt16}
    (h : stack = w :: rest) : Stack.pop? memory stack = some (w, rest) := by
  rw [h]
  rfl

theorem step?_pop {x : Register} {w : UInt16} {rest : σ}
    (h : m.lines[s.line]? = some (.instruction (.basic .set (.reg x) (.special .pop))))
    (hw : Stack.pop? s.memory s.stack = some (w, rest)) :
    m.step? s = some ({ s.next with stack := rest }.assign x w) := by
  have hr : m.read? s.next (.special .pop) = some (w, { s.next with stack := rest }) := by
    simp [read?, State.next, hw]
  simp [step?, h, execute?, hr, write?]

theorem step?_popReturn {w : UInt16} {rest : σ}
    (h : m.lines[s.line]? = some (.instruction (.basic .set (.special .pc) (.special .pop))))
    (hw : Stack.pop? s.memory s.stack = some (w, rest)) :
    m.step? s = some ({ s with stack := rest }.jump (m.lineAt w)) := by
  have hr : m.read? s.next (.special .pop) = some (w, { s.next with stack := rest }) := by
    simp [read?, State.next, hw]
  simp only [step?, h, execute?, jump?, hr]
  rfl

theorem execute?_store {target source : Operand} {a w : UInt16}
    (ha : m.cell? s.registers target = some a) (hw : m.plain? s.registers source = some w) :
    m.execute? s (.basic .set target source) =
      some { s with memory := Function.update s.memory a w } := by
  have hr : m.read? s source = some (w, s) := read?_of_plain? hw
  cases target with
  | mem _ => simp [execute?, hr, write?, ha]
  | memOffset _ _ => simp [execute?, hr, write?, ha]
  | _ => cases ha

theorem step?_store {target source : Operand} {a w : UInt16}
    (h : m.lines[s.line]? = some (.instruction (.basic .set target source)))
    (ha : m.cell? s.registers target = some a) (hw : m.plain? s.registers source = some w) :
    m.step? s = some { s.next with memory := Function.update s.memory a w } := by
  simp only [step?, h]
  exact execute?_store (s := s.next) ha hw

theorem step?_call {name : String}
    (h : m.lines[s.line]? = some (.instruction (.special .jsr (.label name)))) :
    m.step? s = (m.position? name).map (s.push (m.address (s.line + 1))).jump := by
  simp only [step?, h, execute?, jump?]
  rfl

theorem run?_add (s : State σ) (k n : Nat) :
    m.run? (k + n) s = (m.run? k s).bind (m.run? n) := by
  induction k generalizing s with
  | zero => simp [run?]
  | succ k ih =>
      rw [Nat.add_right_comm, run?, run?]
      cases m.step? s with
      | none => rfl
      | some t => simpa using ih t

theorem Reaches.refl (s : State σ) : m.Reaches s s := ⟨0, rfl⟩

theorem Reaches.trans (h : m.Reaches s t) (g : m.Reaches t u) : m.Reaches s u := by
  obtain ⟨k, hk⟩ := h
  obtain ⟨n, hn⟩ := g
  exact ⟨k + n, by rw [run?_add, hk]; exact hn⟩

theorem Reaches.head (h : m.step? s = some t) (g : m.Reaches t u) : m.Reaches s u := by
  obtain ⟨n, hn⟩ := g
  exact ⟨n + 1, by rw [run?, h]; exact hn⟩

theorem Reaches.single (h : m.step? s = some t) : m.Reaches s t := .head h (.refl t)

end Machine

end P16
