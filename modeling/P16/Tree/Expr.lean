import P16.Tree.Name

/-!
# Expressions
-/

namespace P16

inductive BinaryOp where
  | add | sub | mul | div | floorDiv | mod | pow | shl | shr | bitOr | bitAnd | bitXor | and | or
deriving DecidableEq, Inhabited

namespace BinaryOp

def symbol : BinaryOp → String
  | add => "+"
  | sub => "-"
  | mul => "*"
  | div => "/"
  | floorDiv => "//"
  | mod => "%"
  | pow => "**"
  | shl => "<<"
  | shr => ">>"
  | bitOr => "|"
  | bitAnd => "&"
  | bitXor => "^"
  | and => "and"
  | or => "or"

def name : BinaryOp → String
  | add => "Add"
  | sub => "Sub"
  | mul => "Mul"
  | div => "Div"
  | floorDiv => "FloorDiv"
  | mod => "Mod"
  | pow => "Pow"
  | shl => "Shl"
  | shr => "Shr"
  | bitOr => "BitOr"
  | bitAnd => "BitAnd"
  | bitXor => "BitXor"
  | and => "And"
  | or => "Or"

end BinaryOp

inductive UnaryOp where
  | neg | pos | invert | not
deriving DecidableEq, Inhabited

def UnaryOp.name : UnaryOp → String
  | neg => "Neg"
  | pos => "Pos"
  | invert => "Invert"
  | not => "Not"

inductive CompareOp where
  | eq | notEq | lt | le | gt | ge | isIn | notIn | is | isNot
deriving DecidableEq, Inhabited

namespace CompareOp

def symbol : CompareOp → String
  | eq => "=="
  | notEq => "!="
  | lt => "<"
  | le => "<="
  | gt => ">"
  | ge => ">="
  | isIn => "in"
  | notIn => "not in"
  | is => "is"
  | isNot => "is not"

def name : CompareOp → String
  | eq => "Eq"
  | notEq => "NotEq"
  | lt => "Lt"
  | le => "LtE"
  | gt => "Gt"
  | ge => "GtE"
  | isIn => "In"
  | notIn => "NotIn"
  | is => "Is"
  | isNot => "IsNot"

end CompareOp

structure Keyword (α : Type) where
  name : Ident
  value : α
  span : Span
deriving Inhabited

inductive Expr where
  | name (ident : Ident)
  | member (value : Expr) (attr : Ident) (span : Span)
  | number (value : Int) (span : Span)
  | text (value : String) (span : Span)
  | tuple (items : List Expr) (span : Span)
  | list (items : List Expr) (span : Span)
  | dict (entries : List (Expr × Expr)) (span : Span)
  | call (callee : Expr) (args : List Expr) (keywords : List (Keyword Expr)) (span : Span)
  | binary (op : BinaryOp) (left right : Expr) (span : Span)
  | unary (op : UnaryOp) (operand : Expr) (span : Span)
  /-- A chain `left op₁ e₁ op₂ e₂ …`. -/
  | compare (left : Expr) (links : List (CompareOp × Expr)) (span : Span)
  | subscript (value index : Expr) (span : Span)
deriving Inhabited

namespace Expr

def span : Expr → Span
  | name ident => ident.span
  | member _ _ span | number _ span | text _ span | tuple _ span | list _ span | dict _ span
  | call _ _ _ span | binary _ _ _ span | unary _ _ span | compare _ _ span
  | subscript _ _ span => span

def kindName : Expr → String
  | name _ => "Name"
  | member .. => "Attribute"
  | number .. => "Number"
  | text .. => "Str"
  | tuple .. => "Tuple"
  | list .. => "List"
  | dict .. => "Dict"
  | call .. => "Call"
  | binary .. => "BinOp"
  | unary .. => "UnaryOp"
  | compare .. => "Compare"
  | subscript .. => "Subscript"

/-- A name or a chain of members of a name, as one dotted name. -/
def toDottedName? : Expr → Option DottedName
  | name ident => some (.ofIdent ident)
  | member value attr _ => (toDottedName? value).map (·.snoc attr)
  | _ => none

end Expr

end P16
