import P16.Lowering.Import

/-!
# Statements
-/

namespace P16.LowerM

def augmentedOpcode? : BinaryOp → Option BasicOpcode
  | .add => some .add
  | .sub => some .sub
  | .mul => some .mul
  | .div => some .div
  | .shl => some .shl
  | .shr => some .shr
  | .bitOr => some .bor
  | .bitAnd => some .and
  | .bitXor => some .xor
  | .floorDiv | .mod | .pow | .and | .or => none

/-- The targets of a call that a left side stands for. -/
def callTargets : Expr → List Expr
  | .tuple items _ | .list items _ => items
  | e => [e]

def assignOperand (target value : Expr) : LowerM Unit := do
  match target with
  | .tuple _ span | .list _ span =>
    fail (.invalidTarget "several targets need a function call on the right") span
  | _ =>
    let register ← ask fun c => c.target target
    let operand ← ask fun c => c.operand value
    write fun p => p.set (.reg register) operand

def assign (env : Environment) (enter : Enter) (targets : List Expr) (value : Expr)
    (span : Span) : LowerM Unit := do
  match targets with
  | [target] =>
    match value with
    | .call callee args keywords callSpan =>
      call env enter ⟨callee, args, keywords, callSpan⟩ (callTargets target)
    | _ => assignOperand target value
  | _ => fail (.unsupportedSyntax "chained assignment") span

def augAssign (target : Expr) (op : BinaryOp) (value : Expr) (span : Span) : LowerM Unit := do
  match augmentedOpcode? op with
  | none => fail (.unsupportedOperator (op.symbol ++ "=")) span
  | some opcode =>
    let register ← ask fun c => c.target target
    let operand ← ask fun c => c.operand value
    write fun p => p.basic opcode (.reg register) operand

/-- A text on its own is a comment; of other expressions only calls do anything. -/
def exprStmt (env : Environment) (enter : Enter) : Expr → LowerM Unit
  | .call callee args keywords span => call env enter ⟨callee, args, keywords, span⟩ []
  | .text .. => return
  | e => fail (.unsupportedNode e.kindName) e.span

mutual

def stmt (env : Environment) (enter : Enter) : Stmt → LowerM Unit
  | .importNames names _ => modify (importNames env enter names)
  | .assign targets value span => assign env enter targets value span
  | .augAssign target op value span => augAssign target op value span
  | .expr e _ => exprStmt env enter e
  | .define name params decorators body span => define enter ⟨name, params, decorators, body, span⟩
  | .giveBack value? span => giveBack value? span
  | .whileLoop test body _ => do
    let loopTest ← ask fun c => c.loopTest test
    modify fun c =>
      (block env enter body (c.openLoop loopTest)).closeLoop c.store.current c.nextLoop
  | .breakLoop span => loopJump .breakLoop span
  | .continueLoop span => loopJump .continueLoop span
  | .pass _ => return
  | .unsupported form span => fail (.unsupportedNode form.name) span

/-- Lowers statements in order and reports those that fail. -/
def block (env : Environment) (enter : Enter) : List Stmt → Compilation → Compilation
  | [], c => c
  | s :: rest, c => block env enter rest (reporting (stmt env enter s) c)

end

/-- Lowers a body in which at most `depth` other bodies are entered inside each other. -/
def body (env : Environment) : Nat → Enter
  | 0, _, c => c
  | depth + 1, stmts, c => block env (body env depth) stmts c

end P16.LowerM
