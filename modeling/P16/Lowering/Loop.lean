import P16.Lowering.Operand

/-!
# Loops

`while l OP r:` becomes

```text
:start
<run the next line unless l OP r>
SET PC, end
<body>
SET PC, start
:end
```

No instruction runs the next line unless its first operand is greater, so `>` and `<` jump into the
body through a third label.
-/

namespace P16

def loopName (n : Nat) (part : String) : String :=
  "builtin_loop_" ++ toString n ++ "_" ++ part

def LoopLabels.numbered (path : ModulePath) (n : Nat) : LoopLabels :=
  ⟨path.mangle (loopName n "start"), path.mangle (loopName n "end")⟩

/-- The instruction that decides whether a loop goes on. -/
structure LoopTest where
  op : BasicOpcode
  left : Operand
  right : Operand
deriving DecidableEq, Inhabited

def LoopTest.ofCompare? (op : CompareOp) (left right : Operand) : Option LoopTest :=
  match op with
  | .notEq => some ⟨.ife, left, right⟩
  | .eq => some ⟨.ifn, left, right⟩
  | .gt => some ⟨.ifg, left, right⟩
  | .lt => some ⟨.ifg, right, left⟩
  | _ => none

def LoopTest.header (test : LoopTest) (labels : LoopLabels) (bodyLabel : String) (p : Program) :
    Program :=
  let p := (p.label labels.start).basic test.op test.left test.right
  if test.op = .ifg then ((p.jump bodyLabel).jump labels.stop).label bodyLabel
  else p.jump labels.stop

/-- The label lines before the body, the last first. -/
def LoopTest.labelEvents (test : LoopTest) (path : ModulePath) (n : Nat) : List Event :=
  let start := Event.label path (loopName n "start")
  if test.op = .ifg then [.label path (loopName n "body"), start] else [start]

def LoopLabels.footer (labels : LoopLabels) (p : Program) : Program :=
  (p.jump labels.start).label labels.stop

namespace Compilation

def loopTest (c : Compilation) : Expr → Except Failure LoopTest
  | .compare left [(op, right)] span => do
    let l ← c.operand left
    let r ← c.operand right
    match LoopTest.ofCompare? op l r with
    | some test => return test
    | none => throw ⟨.unsupportedOperator op.symbol, span⟩
  | .compare _ _ span => .error ⟨.unsupportedSyntax "chained comparison in loop condition", span⟩
  | e =>
    .error ⟨.unsupportedSyntax ("loop condition must be a comparison, found " ++ e.kindName),
      e.span⟩

def nextLoop (c : Compilation) : Nat := (c.program.nextCounter "loop").1

def openLoop (test : LoopTest) (c : Compilation) : Compilation :=
  let path := c.store.current
  let (n, program) := c.program.nextCounter "loop"
  let labels := LoopLabels.numbered path n
  { c with
    program := test.header labels (path.mangle (loopName n "body")) program
    scope := { c.scope with loops := labels :: c.scope.loops }
    events := test.labelEvents path n ++ c.events }

/-- Leaves the innermost loop, which has number `n`, and writes the lines after its body. -/
def closeLoop (path : ModulePath) (n : Nat) (c : Compilation) : Compilation :=
  { c with
    program := (LoopLabels.numbered path n).footer c.program
    scope := { c.scope with loops := c.scope.loops.tail }
    events := .label path (loopName n "end") :: c.events }

end Compilation

namespace LowerM

def loopJump (jump : LoopJump) (span : Span) : LowerM Unit := do
  match (← get).scope.loops with
  | [] => fail (.loopControlOutsideLoop jump) span
  | labels :: _ =>
    match jump with
    | .breakLoop => write fun p => p.jump labels.stop
    | .continueLoop => write fun p => p.jump labels.start

end LowerM

end P16
