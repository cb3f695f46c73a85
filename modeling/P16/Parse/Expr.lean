import P16.Literal
import P16.Parse.Basic
import P16.Parse.Power

/-!
# Reading expressions

Operators are read by their binding powers. The parsers for parts of an expression take the parser
for the expressions inside them as an argument; `expr` ties the knot, one unit of the bound for each
level of nesting.
-/

namespace P16.Parser

/-- Whether a list of expressions ends here, after a comma. -/
def atExprListEnd : Parser Bool := do
  match ← peekKind with
  | none => return true
  | some kind =>
    return kind = .newline || kind = .semi || kind = .eq || kind = .rparen ||
      (BinaryOp.ofAugmented? kind).isSome

def exprListTail (expr : Parser Expr) : Nat → Parser (List Expr)
  | 0 => tooDeep
  | bound + 1 => do
    if ← accept .comma then
      if ← atExprListEnd then return []
      let first ← expr
      return first :: (← exprListTail expr bound)
    else return []

def exprList (expr : Parser Expr) (bound : Nat) : Parser Expr := do
  let first ← expr
  if (← peekKind) = some .comma then
    let rest ← exprListTail expr bound
    return .tuple (first :: rest) (first.span.through (rest.getLastD first).span)
  else return first

/-- Adjacent texts are one text. -/
def textTail : Nat → String → Span → Parser Expr
  | 0, _, _ => tooDeep
  | bound + 1, value, span => do
    match ← accept? .str with
    | none => return .text value span
    | some token =>
      match Literal.text token.text with
      | .ok more => textTail bound (value ++ more) (span.through token.span)
      | .error fault => failAt token.span (.badText fault)

def parenthesized (expr : Parser Expr) (bound : Nat) (start : Span) : Parser Expr := do
  match ← accept? .rparen with
  | some close => return .tuple [] (start.through close.span)
  | none =>
    let inner ← exprList expr bound
    let close ← expect .rparen
    match inner with
    | .tuple items _ => return .tuple items (start.through close.span)
    | other => return other

def dictEntry (expr : Parser Expr) : Parser (Expr × Expr) := do
  let key ← expr
  let _ ← expect .colon
  return (key, ← expr)

def primary (expr : Parser Expr) (bound : Nat) : Parser Expr := do
  match ← next? with
  | none => failHere .unexpectedEnd
  | some token =>
    match token.kind with
    | .ident => return .name ⟨token.text, token.span⟩
    | .int =>
      match Literal.integer? token.text with
      | some value => return .number value token.span
      | none => failAt token.span .badInteger
    | .str =>
      match Literal.text token.text with
      | .ok value => textTail bound value token.span
      | .error fault => failAt token.span (.badText fault)
    | .lparen => parenthesized expr bound token.span
    | .lbracket =>
      let items ← listUntil .rbracket expr bound
      return .list items (token.span.through (← expect .rbracket).span)
    | .lbrace =>
      let entries ← listUntil .rbrace (dictEntry expr) bound
      return .dict entries (token.span.through (← expect .rbrace).span)
    | found => failAt token.span (.expectedExpression found)

def operand (expr : Nat → Parser Expr) (bound : Nat) : Parser Expr := do
  match (← peekKind).bind UnaryOp.ofKind? with
  | some (op, power) =>
    let start ← skip
    let inner ← expr power
    return .unary op inner (start.through inner.span)
  | none => primary (expr 0) bound

inductive Argument where
  | positional (value : Expr)
  | keyword (keyword : Keyword Expr)

namespace Argument

def positional? : Argument → Option Expr
  | positional value => some value
  | keyword _ => none

def keyword? : Argument → Option (Keyword Expr)
  | positional _ => none
  | keyword k => some k

end Argument

def atKeyword : Parser Bool := do
  match ← get with
  | first :: second :: _ => return first.kind = .ident && second.kind = .eq
  | _ => return false

/-- One argument, where `latest` is the keyword argument before it, if there is one. -/
def argument (expr : Parser Expr) (latest : Option (Keyword Expr)) : Parser Argument := do
  if ← atKeyword then
    let name ← ident
    let _ ← expect .eq
    let value ← expr
    return .keyword ⟨name, value, name.span.through value.span⟩
  else
    match latest with
    | some keyword => failAt keyword.span .positionalAfterKeyword
    | none => return .positional (← expr)

def arguments (expr : Parser Expr) : Nat → Option (Keyword Expr) → Parser (List Argument)
  | 0, _ => tooDeep
  | bound + 1, latest => do
    if (← peekKind) = some .rparen then return []
    let first ← argument expr latest
    if ← accept .comma then
      return first :: (← arguments expr bound (first.keyword? <|> latest))
    else return [first]

def call (expr : Parser Expr) (bound : Nat) (callee : Expr) : Parser Expr := do
  let _ ← expect .lparen
  let args ← arguments expr bound none
  let close ← expect .rparen
  return .call callee (args.filterMap Argument.positional?) (args.filterMap Argument.keyword?)
    (callee.span.through close.span)

def trailer (expr : Parser Expr) (bound : Nat) (value : Expr) : Parser Expr := do
  match ← accept? .dot with
  | some _ =>
    let attr ← ident
    return .member value attr (value.span.through attr.span)
  | none =>
    match ← accept? .lbracket with
    | some _ =>
      let index ← exprList expr bound
      let close ← expect .rbracket
      return .subscript value index (value.span.through close.span)
    | none => call expr bound value

def compareOp? : Parser (Option CompareOp) := do
  let taken (op : CompareOp) : Parser (Option CompareOp) := do
    let _ ← skip
    return some op
  match ← peekKind with
  | some .eqEq => taken .eq
  | some .notEq => taken .notEq
  | some .lt => taken .lt
  | some .lte => taken .le
  | some .gt => taken .gt
  | some .gte => taken .ge
  | some .kwIn => taken .isIn
  | some .kwNot =>
    let _ ← skip
    let _ ← expect .kwIn
    return some .notIn
  | some .kwIs =>
    let _ ← skip
    if ← accept .kwNot then return some .isNot else return some .is
  | _ => return none

def comparisonLinks (operand : Parser Expr) : Nat → Parser (List (CompareOp × Expr))
  | 0 => tooDeep
  | bound + 1 => do
    match ← compareOp? with
    | none => return []
    | some op =>
      let right ← operand
      return (op, right) :: (← comparisonLinks operand bound)

def comparison (operand : Parser Expr) (bound : Nat) (left : Expr) : Parser Expr := do
  let links ← comparisonLinks operand bound
  return .compare left links (left.span.through ((links.getLast?.map (·.2)).getD left).span)

/-- The operators after `left` that hold at least as tightly as `power`. -/
def operators (expr : Nat → Parser Expr) (bound power : Nat) : Nat → Expr → Parser Expr
  | 0, _ => tooDeep
  | rounds + 1, left => do
    match ← peekKind with
    | none => return left
    | some kind =>
      if kind.startsTrailer then
        if Power.trailer < power then return left
        operators expr bound power rounds (← trailer (expr 0) bound left)
      else if kind.startsComparison then
        if Power.comparison.left < power then return left
        operators expr bound power rounds
          (← comparison (expr Power.comparison.right) bound left)
      else
        match BinaryOp.ofKind? kind with
        | none => return left
        | some op =>
          if op.power.left < power then return left
          let _ ← skip
          let right ← expr op.power.right
          operators expr bound power rounds (.binary op left right (left.span.through right.span))

/-- An expression whose operators hold at least as tightly as the given power. -/
def expr : Nat → Nat → Parser Expr
  | 0, _ => tooDeep
  | bound + 1, power => do
    let left ← operand (expr bound) bound
    operators (expr bound) bound power bound left

end P16.Parser
