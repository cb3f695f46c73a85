import P16.Tree.Expr

/-!
# Statements and modules
-/

namespace P16

structure ImportName where
  path : DottedName
  newName? : Option Ident
  span : Span
deriving DecidableEq, Inhabited

inductive UnsupportedForm where
  | conditional
  | iteration
  | classDefinition
  | importFrom
deriving DecidableEq, Inhabited

def UnsupportedForm.name : UnsupportedForm → String
  | conditional => "If"
  | iteration => "For"
  | classDefinition => "ClassDef"
  | importFrom => "ImportFrom"

inductive Stmt where
  | importNames (names : List ImportName) (span : Span)
  /-- One target for each `=`; a tuple on the left of one `=` is a single target. -/
  | assign (targets : List Expr) (value : Expr) (span : Span)
  | augAssign (target : Expr) (op : BinaryOp) (value : Expr) (span : Span)
  | expr (expr : Expr) (span : Span)
  | define (name : Ident) (params : List Ident) (decorators : List Expr) (body : List Stmt)
      (span : Span)
  | giveBack (value? : Option Expr) (span : Span)
  | whileLoop (test : Expr) (body : List Stmt) (span : Span)
  | breakLoop (span : Span)
  | continueLoop (span : Span)
  | pass (span : Span)
  | unsupported (form : UnsupportedForm) (span : Span)
deriving Inhabited

def Stmt.span : Stmt → Span
  | importNames _ span | assign _ _ span | augAssign _ _ _ span | expr _ span
  | define _ _ _ _ span | giveBack _ span | whileLoop _ _ span | breakLoop span
  | continueLoop span | pass span | unsupported _ span => span

structure FunctionDef where
  name : Ident
  params : List Ident
  decorators : List Expr
  body : List Stmt
  span : Span
deriving Inhabited

structure Module where
  body : List Stmt
  span : Span
deriving Inhabited

end P16
