import P16.Source.LineIndex
import P16.Token.Kind

/-!
# Scanning

A text is cut from left to right into lexemes. Blanks, comments and escaped line breaks are passed
over; every other lexeme becomes a token. A piece that begins no token becomes an `error` token and
scanning goes on after it, so `scan` answers for every text.
-/

namespace P16

structure Token where
  kind : TokenKind
  span : Span
  text : String
deriving DecidableEq, Inhabited

namespace Scan

def isBlank (c : Char) : Bool :=
  c = ' ' || c = '\t' || c = '\r' || c = '\x0c'

def isQuote (c : Char) : Bool :=
  c = '"' || c = '\''

def isWordStart (c : Char) : Bool :=
  c.isAlpha || c = '_'

def isWordRest (c : Char) : Bool :=
  c.isAlphanum || c = '_'

def isDecimalRest (c : Char) : Bool :=
  c.isDigit || c = '_'

def isRadixRest (letter c : Char) : Bool :=
  c = '_' ||
    match letter with
    | 'x' | 'X' => c.isDigit || ('a' ≤ c && c ≤ 'f') || ('A' ≤ c && c ≤ 'F')
    | 'o' | 'O' => '0' ≤ c && c ≤ '7'
    | 'b' | 'B' => c = '0' || c = '1'
    | _ => false

def isRadixLetter (c : Char) : Bool :=
  c = 'x' || c = 'X' || c = 'o' || c = 'O' || c = 'b' || c = 'B'

/-- How far a one-line text reaches after its opening quote: whether it is closed, and the number
of characters, with the closing quote if there is one. -/
def lineTextLength (quote : Char) : List Char → Bool × Nat
  | [] => (false, 0)
  | c :: cs =>
    if c = quote then (true, 1)
    else if c = '\n' then (false, 0)
    else if c = '\\' then
      match cs with
      | [] => (false, 0)
      | d :: ds =>
        if d = '\n' then (false, 0)
        else
          let (closed, n) := lineTextLength quote ds
          (closed, n + 2)
    else
      let (closed, n) := lineTextLength quote cs
      (closed, n + 1)

/-- How far a text opened by three quotes reaches after them: whether it is closed, and the number
of characters, with the closing quotes if there are any. One or two quotes inside the text must be
followed by a character that is neither a quote nor a backslash. -/
def blockTextLength (quote : Char) : List Char → Bool × Nat
  | [] => (false, 0)
  | c :: cs =>
    if c = '\\' then
      match cs with
      | [] => (false, 0)
      | _ :: ds =>
        let (closed, n) := blockTextLength quote ds
        (closed, n + 2)
    else if c = quote then
      match cs with
      | [] => (false, 0)
      | d :: ds =>
        if d = quote then
          match ds with
          | [] => (false, 0)
          | e :: es =>
            if e = quote then (true, 3)
            else if e = '\\' then (false, 0)
            else
              let (closed, n) := blockTextLength quote es
              (closed, n + 3)
        else if d = '\\' then (false, 0)
        else
          let (closed, n) := blockTextLength quote ds
          (closed, n + 2)
    else
      let (closed, n) := blockTextLength quote cs
      (closed, n + 1)

def textKind (closed : Bool) : TokenKind :=
  if closed then .str else .error

def quotedText (quote : Char) (cs : List Char) : TokenKind × Nat :=
  if [quote, quote].isPrefixOf cs then
    let (closed, n) := blockTextLength quote (cs.drop 2)
    (textKind closed, n + 2)
  else
    let (closed, n) := lineTextLength quote cs
    (textKind closed, n)

/-- The number of characters of a number after its first digit. -/
def numberLength (digit : Char) : List Char → Nat
  | letter :: cs =>
    let digits := cs.takeWhile (isRadixRest letter)
    if digit = '0' && isRadixLetter letter && !digits.isEmpty then 1 + digits.length
    else ((letter :: cs).takeWhile isDecimalRest).length
  | [] => 0

/-- The lexeme that begins with the character `c` when `cs` follows: its kind, or `none` if it is
passed over, and how many characters of `cs` belong to it. -/
def lexeme (c : Char) (cs : List Char) : Option TokenKind × Nat :=
  if isBlank c then (none, (cs.takeWhile isBlank).length)
  else if c = '#' then (none, (cs.takeWhile (· ≠ '\n')).length)
  else if c = '\\' && ['\n'].isPrefixOf cs then (none, 1)
  else if c = '\\' && ['\r', '\n'].isPrefixOf cs then (none, 2)
  else if isQuote c then
    let (kind, n) := quotedText c cs
    (some kind, n)
  else if isWordStart c then
    let tail := cs.takeWhile isWordRest
    (some (.ofWord (String.ofList (c :: tail))), tail.length)
  else if c.isDigit then (some .int, numberLength c cs)
  else
    match TokenKind.symbols.find? fun s => s.1.isPrefixOf (c :: cs) with
    | some (spelling, kind) => (some kind, spelling.length - 1)
    | none => (some .error, 0)

/-- The tokens of a text that begins at the byte `offset`. -/
def tokensFrom (index : LineIndex) (offset : Nat) : List Char → List Token
  | [] => []
  | c :: cs =>
    let found := lexeme c cs
    let text := String.ofList (c :: cs.take found.2)
    let stop := offset + text.utf8ByteSize
    let rest := tokensFrom index stop (cs.drop found.2)
    match found.1 with
    | none => rest
    | some kind => ⟨kind, index.span offset stop, text⟩ :: rest
termination_by cs => cs.length
decreasing_by
  simp only [List.length_drop, List.length_cons]
  omega

end Scan

def scan (source : String) : List Token :=
  Scan.tokensFrom (.ofString source) 0 source.toList

end P16
