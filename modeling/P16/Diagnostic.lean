import P16.Source.Span

/-!
# Diagnostics

What can go wrong while a statement is lowered, and how it is reported. Statements of an unsupported
form are warnings; everything else is an error.
-/

namespace P16

inductive LoopJump where
  | breakLoop
  | continueLoop
deriving DecidableEq, Inhabited

def LoopJump.verb : LoopJump → String
  | breakLoop => "break"
  | continueLoop => "continue"

inductive Cause where
  | unsupportedNode (form : String)
  | unsupportedSyntax (what : String)
  | invalidTarget (why : String)
  | invalidOperand (why : String)
  | undefinedName (name : String)
  | arityMismatch (name what : String) (expected found : Nat)
  | moduleNotFound (name : String) (reason? : Option String)
  | importFailed (name : String)
  | loopControlOutsideLoop (jump : LoopJump)
  | unsupportedOperator (symbol : String)
  | invalidDecorator (why : String)
  | invalidFunction (why : String)
  | returnOutsideFunction
  | hookFailed (name message : String)
deriving DecidableEq, Inhabited

inductive Severity where
  | warning
  | error
deriving DecidableEq, Inhabited

def Severity.name : Severity → String
  | warning => "WARN"
  | error => "ERROR"

namespace Cause

def message : Cause → String
  | unsupportedNode form => "unsupported node `" ++ form ++ "`"
  | unsupportedSyntax what => "unsupported syntax: " ++ what
  | invalidTarget why => "invalid assignment target: " ++ why
  | invalidOperand why => "invalid operand: " ++ why
  | undefinedName name => "undefined name `" ++ name ++ "`"
  | arityMismatch name what expected found =>
    "`" ++ name ++ "` expects " ++ toString expected ++ " " ++ what ++ ", found " ++ toString found
  | moduleNotFound name none => "module `" ++ name ++ "` not found"
  | moduleNotFound name (some reason) => "module `" ++ name ++ "` not found (" ++ reason ++ ")"
  | importFailed name => "error in imported module `" ++ name ++ "`"
  | loopControlOutsideLoop jump => "cannot " ++ jump.verb ++ " outside loop"
  | unsupportedOperator symbol => "operator `" ++ symbol ++ "` is not supported here"
  | invalidDecorator why => "invalid decorator: " ++ why
  | invalidFunction why => "invalid function definition: " ++ why
  | returnOutsideFunction => "`return` outside function"
  | hookFailed name message => "macro `" ++ name ++ "` failed: " ++ message

def severity : Cause → Severity
  | unsupportedNode _ => .warning
  | _ => .error

end Cause

structure Failure where
  cause : Cause
  span : Span
deriving DecidableEq, Inhabited

structure Diagnostic where
  failure : Failure
  file? : Option String
deriving DecidableEq, Inhabited

namespace Diagnostic

def severity (d : Diagnostic) : Severity := d.failure.cause.severity

def isError (d : Diagnostic) : Bool := d.severity = .error

def render (d : Diagnostic) : String :=
  "[" ++ d.severity.name ++ "] " ++
    (match d.file? with
      | some file => file ++ ":"
      | none => "") ++
    toString d.failure.span.line ++ ":" ++ toString d.failure.span.column ++ " " ++
    d.failure.cause.message

end Diagnostic

def withContext (context message : String) : String :=
  if context.isEmpty then message else context ++ ": " ++ message

end P16
