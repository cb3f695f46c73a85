import P16.Lowering.Loop

/-!
# Built-in calls

Calls of reserved names, which the compiler handles itself.
-/

namespace P16

inductive Builtin where
  | halt
  | memset
  | continueLoop
  | breakLoop
  | defineEnumerate
deriving DecidableEq, Inhabited

namespace Builtin

/-- All names that begin so are reserved. -/
def reserved : String := "builtin_"

def all : List Builtin := [halt, memset, continueLoop, breakLoop, defineEnumerate]

def name : Builtin → String
  | halt => "builtin_halt"
  | memset => "builtin_memset"
  | continueLoop => "builtin_continue"
  | breakLoop => "builtin_break"
  | defineEnumerate => "builtin_define_enumerate"

def ofName? (name : String) : Option Builtin :=
  all.find? fun b => b.name = name

def arity? : Builtin → Option Nat
  | halt | continueLoop | breakLoop => some 0
  | memset => some 2
  | defineEnumerate => none

end Builtin

structure CallSite where
  callee : Expr
  args : List Expr
  keywords : List (Keyword Expr)
  span : Span

namespace LowerM

/-- The names to be numbered, all of them or none. -/
def enumerated : List Expr → Except Failure (List String)
  | [] => .ok []
  | .name ident :: rest => do return ident.text :: (← enumerated rest)
  | e :: _ =>
    .error ⟨.invalidOperand
      ("`" ++ Builtin.defineEnumerate.name ++ "` expects names, found " ++ e.kindName), e.span⟩

/-- Defines the names as the numbers from zero on. -/
def defineNumbers (names : List String) (s : Store) : Store :=
  names.zipIdx.foldl (fun s entry => s.define entry.1 (.constant (.number entry.2))) s

def memset (site : CallSite) : LowerM Unit := do
  match site.args with
  | [location, value] =>
    let target ← ask fun c => c.address location
    let source ← ask fun c => c.operand value
    write fun p => p.set target source
  | _ => return

def runBuiltin (b : Builtin) (site : CallSite) : LowerM Unit := do
  match b with
  | .halt => write fun p => p.jump Program.haltLabel
  | .continueLoop => loopJump .continueLoop site.span
  | .breakLoop => loopJump .breakLoop site.span
  | .memset => memset site
  | .defineEnumerate =>
    let names ← ask fun _ => enumerated site.args
    modify fun c => c.updateStore (defineNumbers names)

def builtin (b : Builtin) (site : CallSite) : LowerM Unit := do
  if let k :: _ := site.keywords then
    fail (.unsupportedSyntax ("keyword argument `" ++ k.name.text ++ "` to `" ++ b.name ++ "`"))
      k.span
  if let some expected := b.arity? then
    if site.args.length ≠ expected then
      fail (.arityMismatch b.name "arguments" expected site.args.length) site.span
  runBuiltin b site

end LowerM

end P16
