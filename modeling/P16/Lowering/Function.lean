import P16.Lowering.Builtin

/-!
# Functions and calls

The caller pushes the arguments in order and calls the subroutine. The subroutine pops the return
address into `J` and the arguments into `A B C X Y Z I`, the last one first; to return it pushes its
results and jumps through `J`. The caller then pops the results into its targets, the last one
first. A caller that is itself a subroutine keeps `J` on the stack around the call.

The body of a function is written when the function is called for the first time, or at once if it
is marked `@export`. `enter` lowers a body that is reached in this way.
-/

namespace P16

/-- Lowers the statements of another body. -/
abbrev Enter := List Stmt → Compilation → Compilation

def firstRepeated? (seen : List String) : List Ident → Option Ident
  | [] => none
  | ident :: rest =>
    if ident.text ∈ seen then some ident else firstRepeated? (ident.text :: seen) rest

/-- Whether a function is marked `@export`; no other mark is allowed. -/
def isExported : List Expr → Except Failure Bool
  | [] => .ok false
  | [e] =>
    match e with
    | .name ident =>
      if ident.text = "export" then .ok true
      else .error ⟨.invalidDecorator "only `@export` is supported", ident.span⟩
    | other => .error ⟨.invalidDecorator "only `@export` is supported", other.span⟩
  | _ :: extra :: _ => .error ⟨.invalidDecorator "at most one decorator is allowed", extra.span⟩

namespace FunctionSymbol

def prologue (f : FunctionSymbol) (p : Program) : Program :=
  ((p.label f.label).pop (.reg .link)).popAll ((Register.arguments.take f.arity).map .reg)

def scope (f : FunctionSymbol) (key : FunctionKey) : Scope :=
  ⟨f.file?, [], .ofList (f.params.zip Register.arguments), some key⟩

end FunctionSymbol

namespace Program

def jumpBack (p : Program) : Program :=
  p.set (.special .pc) (.reg .link)

/-- The lines of a call, where `nested` says that the caller is a subroutine. -/
def callSequence (p : Program) (nested : Bool) (label : String) (arguments : List Operand)
    (results : List Register) : Program :=
  let p := if nested then p.push (.reg .link) else p
  let p := ((p.pushAll arguments).callSubroutine label).popAll (results.map .reg)
  if nested then p.pop (.reg .link) else p

end Program

namespace Compilation

def function? (c : Compilation) (key : FunctionKey) : Option FunctionSymbol :=
  c.store.functionIn? key.path key.name

def updateFunction (c : Compilation) (key : FunctionKey) (f : FunctionSymbol → FunctionSymbol) :
    Compilation :=
  c.updateStore fun s => s.updateFunction key.path key.name f

/-- Begins the footer block of a function's body. The function is marked first, so that a call of it
inside its own body does not write it again. -/
def openBody (key : FunctionKey) (f : FunctionSymbol) (c : Compilation) : Compilation :=
  let c := c.updateFunction key fun f => { f with emitted := true }
  ({ c with program := f.prologue c.program.enterFooter.2 }.enterScope f.path (f.scope key)).record
    (.label key.path key.name)

/-- Ends the footer block of a function's body, where `before` is the state before its beginning. A
function whose body gives nothing back has no results. -/
def closeBody (key : FunctionKey) (before inner : Compilation) : Compilation :=
  let mark := before.program.enterFooter.1
  ((leaveScope before inner).write fun p => p.jumpBack.leaveFooter mark).updateFunction key
    fun f => { f with returns? := f.returns? <|> some 0 }

/-- Writes the body of a function if that has not been done. -/
def ensureEmitted (enter : Enter) (key : FunctionKey) (c : Compilation) : Compilation :=
  match c.function? key with
  | none => c
  | some f => if f.emitted then c else closeBody key c (enter f.definition.body (openBody key f c))

end Compilation

namespace LowerM

/-- Fixes the number of results of a function, or compares it if it is fixed already. -/
def settleReturns (key : FunctionKey) (count : Nat) (shown : String) (span : Span) :
    LowerM Unit := do
  match ((← get).function? key).map FunctionSymbol.returns? with
  | none => return
  | some none => modify fun c => c.updateFunction key fun f => { f with returns? := some count }
  | some (some expected) =>
    if expected ≠ count then
      fail (.arityMismatch shown "return values" expected count) span

def callFunction (enter : Enter) (key : FunctionKey) (shown : String) (f : FunctionSymbol)
    (site : CallSite) (targets : List Expr) : LowerM Unit := do
  if let k :: _ := site.keywords then
    fail (.unsupportedSyntax
      ("keyword argument `" ++ k.name.text ++ "` in call to function `" ++ shown ++ "`")) k.span
  if site.args.length ≠ f.arity then
    fail (.arityMismatch shown "arguments" f.arity site.args.length) site.span
  let arguments ← ask fun c => site.args.mapM c.operand
  let registers ← ask fun c => targets.mapM c.target
  modify (Compilation.ensureEmitted enter key)
  settleReturns key registers.length shown site.span
  let nested := (← get).scope.function?.isSome
  modify fun c =>
    (c.write fun p => p.callSequence nested f.label arguments registers).record
      (.call key registers.length nested)

def callHook (env : Environment) (key : FunctionKey) (shown : String) (ref : HookRef)
    (site : CallSite) : LowerM Unit := do
  let positional ← ask fun c => c.values site.args
  let keywords ← ask fun c => c.keywordValues .empty site.keywords
  match env.registry.hook? ref with
  | none => fail (.undefinedName shown) site.callee.span
  | some hook =>
    match ← runHook key.path (hook.run ⟨positional, keywords⟩) with
    | .ok _ => return
    | .error message => fail (.hookFailed shown message) site.span

def noTargets (name : String) : List Expr → LowerM Unit
  | [] => return
  | e :: _ => fail (.invalidTarget ("`" ++ name ++ "` produces no value to assign")) e.span

/-- The built-in that a callee stands for; other reserved names are undefined. -/
def builtinCallee (e : Expr) : Except Failure (Option Builtin) :=
  match e with
  | .name ident =>
    if ident.text.startsWith Builtin.reserved then
      match Builtin.ofName? ident.text with
      | some b => .ok (some b)
      | none => .error ⟨.undefinedName ident.text, ident.span⟩
    else .ok none
  | _ => .ok none

/-- A call whose results go to `targets`. -/
def call (env : Environment) (enter : Enter) (site : CallSite) (targets : List Expr) :
    LowerM Unit := do
  match ← ask fun _ => builtinCallee site.callee with
  | some b =>
    noTargets b.name targets
    builtin b site
  | none =>
    let key ← ask fun c => c.callee site.callee
    let c ← get
    let shown := c.shownName key
    match c.store.lookup? key.path key.name with
    | some (.hook ref) =>
      noTargets shown targets
      callHook env key shown ref site
    | some (.function f) => callFunction enter key shown f site targets
    | some (.constant _) =>
      fail (.invalidOperand ("constant `" ++ shown ++ "` is not callable")) site.callee.span
    | none => fail (.undefinedName shown) site.callee.span

def returned : Option Expr → List Expr
  | none => []
  | some (.tuple items _) => items
  | some e => [e]

def giveBack (value? : Option Expr) (span : Span) : LowerM Unit := do
  match (← get).scope.function? with
  | none => fail .returnOutsideFunction span
  | some key =>
    let operands ← ask fun c => (returned value?).mapM c.operand
    settleReturns key operands.length key.name span
    modify fun c =>
      (c.write fun p => (p.pushAll operands).jumpBack).record (.giveBack key operands.length)

def checkDefinition (d : FunctionDef) : LowerM Unit := do
  let name := d.name.text
  let invalid (why : String) : LowerM Unit := fail (.invalidFunction why) d.name.span
  let c ← get
  if c.scope.function?.isSome then invalid ("`" ++ name ++ "` is nested in another function")
  if name.startsWith Builtin.reserved then
    invalid ("`" ++ name ++ "` uses the reserved `" ++ Builtin.reserved ++ "` prefix")
  if Register.arguments.length < d.params.length then
    invalid ("`" ++ name ++ "` takes " ++ toString d.params.length ++ " parameters, at most " ++
      toString Register.arguments.length ++ " are supported")
  if let some repeated := firstRepeated? [] d.params then
    fail (.invalidFunction ("duplicate parameter `" ++ repeated.text ++ "`")) repeated.span
  if let some existing := c.store.lookup? c.store.current name then
    invalid ("`" ++ name ++ "` is already defined as a " ++ existing.kindName)

def define (enter : Enter) (d : FunctionDef) : LowerM Unit := do
  checkDefinition d
  let exported ← ask fun _ => isExported d.decorators
  let c ← get
  let path := c.store.current
  let name := d.name.text
  let symbol : FunctionSymbol :=
    { label := path.mangle name
      params := d.params.map Ident.text
      returns? := none
      definition := d
      path := path
      file? := c.scope.file?
      emitted := false }
  modify fun c => c.updateStore fun s => s.define name (.function symbol)
  if exported then modify (Compilation.ensureEmitted enter ⟨path, name⟩)

end LowerM

end P16
