import P16.Parse.Error
import P16.Token.Scan
import P16.Tree.Name

/-!
# Reading tokens

A parser reads a part of the remaining tokens or fails at a place. The span it can read with `read`
is where the input ends; faults found after the last token are reported there.

Parsers that read nested or repeated forms take a bound. One level of nesting, and one round of a
repetition, reads at least one token and uses up one unit, so a bound above the number of remaining
tokens is never used up.
-/

namespace P16

abbrev Parser := ReaderT Span (StateT (List Token) (Except ParseError))

namespace Parser

variable {α : Type}

def peekKind : Parser (Option TokenKind) :=
  return (← get).head?.map Token.kind

def here : Parser Span := do
  match ← get with
  | token :: _ => return token.span
  | [] => read

def failAt (span : Span) (cause : ParseError.Cause) : Parser α :=
  throw ⟨cause, span⟩

def failHere (cause : ParseError.Cause) : Parser α := do
  failAt (← here) cause

def tooDeep : Parser α :=
  failHere .tooDeep

def next? : Parser (Option Token) := do
  match ← get with
  | token :: rest =>
    set rest
    return some token
  | [] => return none

def accept? (kind : TokenKind) : Parser (Option Token) := do
  match ← get with
  | token :: rest =>
    if token.kind = kind then
      set rest
      return some token
    else return none
  | [] => return none

def accept (kind : TokenKind) : Parser Bool :=
  return (← accept? kind).isSome

def expect (kind : TokenKind) : Parser Token := do
  match ← accept? kind with
  | some token => return token
  | none =>
    match ← peekKind with
    | some found => failHere (.expectedKind kind found)
    | none => failHere .unexpectedEnd

def ident : Parser Ident := do
  match ← accept? .ident with
  | some token => return ⟨token.text, token.span⟩
  | none =>
    match ← peekKind with
    | some found => failHere (.expectedName found)
    | none => failHere .unexpectedEnd

/-- The span of the token just ahead, which is read. -/
def skip : Parser Span := do
  match ← next? with
  | some token => return token.span
  | none => read

/-- Items with a comma after each but possibly the last, up to a token of the kind `close`, which is
not read. -/
def listUntil (close : TokenKind) (item : Parser α) : Nat → Parser (List α)
  | 0 => tooDeep
  | bound + 1 => do
    if (← peekKind) = some close then return []
    let first ← item
    if ← accept .comma then return first :: (← listUntil close item bound)
    else return [first]

def listOf (item : Parser α) : Nat → Parser (List α)
  | 0 => tooDeep
  | bound + 1 => do
    let first ← item
    if ← accept .comma then return first :: (← listOf item bound)
    else return [first]

def dottedNameTail : Nat → DottedName → Parser DottedName
  | 0, _ => tooDeep
  | bound + 1, name => do
    if ← accept .dot then dottedNameTail bound (name.snoc (← ident))
    else return name

def dottedName (bound : Nat) : Parser DottedName := do
  dottedNameTail bound (.ofIdent (← ident))

end Parser

end P16
