import P16.Parse.Expr
import P16.Token.Layout
import P16.Tree.Stmt

/-!
# Reading statements and modules

A logical line holds simple statements with semicolons between them; a compound statement has a
header and a suite. As for expressions, the parsers for parts of a statement take the parser for the
statements inside them, and `stmt` ties the knot.
-/

namespace P16

namespace Parser

def atSimpleEnd : Option TokenKind → Bool
  | none | some .newline | some .semi => true
  | _ => false

def returnStmt (bound : Nat) : Parser Stmt := do
  let start := (← expect .kwReturn).span
  if atSimpleEnd (← peekKind) then return .giveBack none start
  let value ← exprList (expr bound 0) bound
  return .giveBack (some value) (start.through value.span)

def importName (bound : Nat) : Parser ImportName := do
  let path ← dottedName bound
  if ← accept .kwAs then
    let newName ← ident
    return ⟨path, some newName, path.span.through newName.span⟩
  else return ⟨path, none, path.span⟩

def importStmt (bound : Nat) : Parser Stmt := do
  let start := (← expect .kwImport).span
  let names ← listOf (importName bound) bound
  return .importNames names (start.through ((names.getLast?.map ImportName.span).getD start))

/-- `from … import …` is read to the end of the statement without looking at its names. -/
def fromStmt (bound : Nat) : Parser Stmt := do
  let start := (← expect .kwFrom).span
  let _ ← dottedName bound
  let _ ← expect .kwImport
  let (names, rest) := (← get).span fun token => !atSimpleEnd (some token.kind)
  set rest
  return .unsupported .importFrom (start.through ((names.getLast?.map Token.span).getD start))

def assignedTail (bound : Nat) : Nat → Parser (List Expr)
  | 0 => tooDeep
  | rounds + 1 => do
    if ← accept .eq then
      let side ← exprList (expr bound 0) bound
      return side :: (← assignedTail bound rounds)
    else return []

def exprStmt (bound : Nat) : Parser Stmt := do
  let first ← exprList (expr bound 0) bound
  match (← peekKind).bind BinaryOp.ofAugmented? with
  | some op =>
    let _ ← skip
    let value ← expr bound 0
    return .augAssign first op value (first.span.through value.span)
  | none =>
    let sides ← assignedTail bound bound
    match sides.getLast? with
    | none => return .expr first first.span
    | some value => return .assign (first :: sides.dropLast) value (first.span.through value.span)

def simpleStmt (bound : Nat) : Parser Stmt := do
  match ← peekKind with
  | some .kwPass => return .pass (← skip)
  | some .kwBreak => return .breakLoop (← skip)
  | some .kwContinue => return .continueLoop (← skip)
  | some .kwReturn => returnStmt bound
  | some .kwImport => importStmt bound
  | some .kwFrom => fromStmt bound
  | _ => exprStmt bound

def simpleStmtsTail (bound : Nat) : Nat → Parser (List Stmt)
  | 0 => tooDeep
  | rounds + 1 => do
    if ← accept .semi then
      match ← peekKind with
      | none | some .newline => return []
      | _ =>
        let first ← simpleStmt bound
        return first :: (← simpleStmtsTail bound rounds)
    else return []

def lineEnd : Parser Unit := do
  match ← peekKind with
  | some .newline =>
    let _ ← skip
  | none | some .dedent => return
  | some found => failHere (.expectedLineEnd found)

def simpleStmts (bound : Nat) : Parser (List Stmt) := do
  let first ← simpleStmt bound
  let rest ← simpleStmtsTail bound bound
  lineEnd
  return first :: rest

def blockStmts (stmt : Parser (List Stmt)) : Nat → Parser (List Stmt)
  | 0 => tooDeep
  | rounds + 1 => do
    match ← peekKind with
    | none | some .dedent => return []
    | _ =>
      let first ← stmt
      return first ++ (← blockStmts stmt rounds)

/-- A colon and either the rest of its line or an indented block. The span is that of the last
statement. -/
def suite (stmt : Parser (List Stmt)) (bound : Nat) : Parser (List Stmt × Span) := do
  let colon ← expect .colon
  if ← accept .newline then
    let _ ← expect .indent
    let body ← blockStmts stmt bound
    let _ ← accept .dedent
    return (body, (body.getLast?.map Stmt.span).getD colon.span)
  else
    let body ← simpleStmts bound
    return (body, (body.getLast?.map Stmt.span).getD colon.span)

def decorators (bound : Nat) : Nat → Parser (List Expr)
  | 0 => tooDeep
  | rounds + 1 => do
    if ← accept .atSign then
      let first ← expr bound 0
      let _ ← expect .newline
      return first :: (← decorators bound rounds)
    else return []

def defineStmt (stmt : Parser (List Stmt)) (bound : Nat) : Parser Stmt := do
  let start ← here
  let marks ← decorators bound bound
  let _ ← expect .kwDef
  let name ← ident
  let _ ← expect .lparen
  let params ← listUntil .rparen ident bound
  let _ ← expect .rparen
  let (body, stop) ← suite stmt bound
  return .define name params marks body (start.through stop)

def whileStmt (stmt : Parser (List Stmt)) (bound : Nat) : Parser Stmt := do
  let start := (← expect .kwWhile).span
  let test ← expr bound 0
  let (body, stop) ← suite stmt bound
  if (← peekKind) = some .kwElse then failHere .whileElse
  return .whileLoop test body (start.through stop)

/-- The `elif` branches; the span is that of the last suite. -/
def elifBranches (stmt : Parser (List Stmt)) (bound : Nat) : Nat → Span → Parser Span
  | 0, _ => tooDeep
  | rounds + 1, stop => do
    if ← accept .kwElif then
      let _ ← expr bound 0
      let (_, stop) ← suite stmt bound
      elifBranches stmt bound rounds stop
    else return stop

def ifStmt (stmt : Parser (List Stmt)) (bound : Nat) : Parser Stmt := do
  let start := (← expect .kwIf).span
  let _ ← expr bound 0
  let (_, stop) ← suite stmt bound
  let stop ← elifBranches stmt bound bound stop
  if ← accept .kwElse then
    let (_, stop) ← suite stmt bound
    return .unsupported .conditional (start.through stop)
  else return .unsupported .conditional (start.through stop)

def forStmt (stmt : Parser (List Stmt)) (bound : Nat) : Parser Stmt := do
  let start := (← expect .kwFor).span
  let _ ← listOf (expr bound Power.loopTarget) bound
  let _ ← expect .kwIn
  let _ ← exprList (expr bound 0) bound
  let (_, stop) ← suite stmt bound
  return .unsupported .iteration (start.through stop)

def classStmt (stmt : Parser (List Stmt)) (bound : Nat) : Parser Stmt := do
  let start := (← expect .kwClass).span
  let _ ← ident
  if ← accept .lparen then
    let _ ← listUntil .rparen (expr bound 0) bound
    let _ ← expect .rparen
  let (_, stop) ← suite stmt bound
  return .unsupported .classDefinition (start.through stop)

def stmt : Nat → Parser (List Stmt)
  | 0 => tooDeep
  | bound + 1 => do
    match ← peekKind with
    | some .atSign | some .kwDef => return [← defineStmt (stmt bound) (bound + 1)]
    | some .kwWhile => return [← whileStmt (stmt bound) (bound + 1)]
    | some .kwIf => return [← ifStmt (stmt bound) (bound + 1)]
    | some .kwFor => return [← forStmt (stmt bound) (bound + 1)]
    | some .kwClass => return [← classStmt (stmt bound) (bound + 1)]
    | some .indent => failHere .unexpectedIndent
    | some _ => simpleStmts (bound + 1)
    | none => failHere .unexpectedEnd

def moduleStmts (bound : Nat) : Nat → Parser (List Stmt)
  | 0 => tooDeep
  | rounds + 1 => do
    match ← peekKind with
    | none => return []
    | some .newline =>
      let _ ← skip
      moduleStmts bound rounds
    | _ =>
      let first ← stmt bound
      return first ++ (← moduleStmts bound rounds)

def wholeModule (bound : Nat) : Parser Module := do
  let start ← here
  let body ← moduleStmts bound bound
  return ⟨body, start.through (← read)⟩

end Parser

def parseTokens (eof : Span) (tokens : List Token) : Except ParseError Module :=
  (((Parser.wholeModule (tokens.length + 1)).run eof).run tokens).map (·.1)

/-- Where the input ends: after its last byte, on the line of its last token. -/
def endSpan (source : String) (tokens : List Token) : Span :=
  match tokens.getLast? with
  | some token =>
    ⟨source.utf8ByteSize, source.utf8ByteSize, token.span.line, token.span.column⟩
  | none => default

def parseModule (source : String) : Except ParseError Module := do
  let tokens ← lex source
  parseTokens (endSpan source tokens) tokens

end P16
