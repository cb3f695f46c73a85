import P16.Diagnostic
import P16.Extension.Basic
import P16.Files.Library

/-!
# Compilations under way

Lowering turns statements into lines of a program. Statements are lowered one by one: a failing
statement is reported and the next one is lowered all the same.

What a construct changes only for the statements inside it is kept in a `Scope`, which is put back
at the end of the construct.
-/

namespace P16

structure LoopLabels where
  start : String
  stop : String
deriving DecidableEq, Inhabited

structure FunctionKey where
  path : ModulePath
  name : String
deriving DecidableEq, Inhabited

/-- What lowering has done, for those who ask about its course. -/
inductive Event where
  | label (path : ModulePath) (name : String)
  /-- A call with so many targets was written; `nested` if the caller is a subroutine. -/
  | call (key : FunctionKey) (results : Nat) (nested : Bool)
  /-- A `return` of so many values was written. -/
  | giveBack (key : FunctionKey) (results : Nat)
  /-- The extension of a module is installed, which runs its start-up code. -/
  | install (dotted : String)
  /-- The file of a module is lowered. -/
  | load (dotted : String)
deriving DecidableEq, Inhabited

structure Scope where
  file? : Option String
  /-- The loops around the current statement, the innermost first. -/
  loops : List LoopLabels
  aliases : Table String Register
  /-- The function whose body is being lowered. -/
  function? : Option FunctionKey

def Scope.ofFile (file? : Option String) : Scope := ⟨file?, [], .empty, none⟩

/-- What a compilation reads and never changes. -/
structure Environment where
  sources : Sources
  registry : Registry

structure Compilation where
  program : Program
  store : Store
  notes : Array String
  imported : List String
  diagnostics : Array Diagnostic
  scope : Scope
  /-- The latest first. -/
  events : List Event

/-- Lowering of one statement. A failure keeps what has been done before it. -/
abbrev LowerM := EStateM Failure Compilation

namespace Compilation

def start (file? : Option String) : Compilation :=
  ⟨.start, .start, #[], [], #[], .ofFile file?, [.label .root Program.haltLabel]⟩

def write (c : Compilation) (f : Program → Program) : Compilation :=
  { c with program := f c.program }

def updateStore (c : Compilation) (f : Store → Store) : Compilation :=
  { c with store := f c.store }

def record (c : Compilation) (event : Event) : Compilation :=
  { c with events := event :: c.events }

/-- Records a failure in the file that is being lowered. -/
def report (c : Compilation) (failure : Failure) : Compilation :=
  { c with diagnostics := c.diagnostics.push ⟨failure, c.scope.file?⟩ }

def errorCount (c : Compilation) : Nat :=
  (c.diagnostics.toList.filter Diagnostic.isError).length

def enterScope (path : ModulePath) (scope : Scope) (c : Compilation) : Compilation :=
  { c with store := c.store.enter path, scope := scope }

/-- Goes back to the module and the scope of `before`. -/
def leaveScope (before inner : Compilation) : Compilation :=
  { inner with store := inner.store.enter before.store.current, scope := before.scope }

end Compilation

namespace LowerM

variable {α : Type}

def ask (f : Compilation → Except Failure α) : LowerM α := fun c =>
  match f c with
  | .ok a => .ok a c
  | .error failure => .error failure c

def write (f : Program → Program) : LowerM Unit :=
  modify fun c => c.write f

def fail (cause : Cause) (span : Span) : LowerM α :=
  throw ⟨cause, span⟩

def runHook (path : ModulePath) (act : HookM Unit) : LowerM (Except String Unit) := fun c =>
  let back (t : Target) : Compilation :=
    { c with program := t.program, store := t.store.restore c.store.current, notes := t.notes }
  match act ⟨c.program, c.store.enter path, c.notes⟩ with
  | .ok _ t => .ok (.ok ()) (back t)
  | .error message t => .ok (.error message) (back t)

def reporting (act : LowerM Unit) (c : Compilation) : Compilation :=
  match act c with
  | .ok _ c => c
  | .error failure c => c.report failure

end LowerM

end P16
