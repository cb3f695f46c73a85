import P16.Parse.Error

/-!
# Literals

What the spellings of numbers and texts denote.
-/

namespace P16.Literal

def maxInteger : Nat := 0x7fffffffffffffff

def digit? (base : Nat) (c : Char) : Option Nat :=
  let value :=
    if c.isDigit then some (c.toNat - '0'.toNat)
    else if 'a' ≤ c && c ≤ 'f' then some (c.toNat - 'a'.toNat + 10)
    else none
  value.filter (· < base)

def digitsFrom? (base : Nat) : Nat → List Char → Option Nat
  | value, [] => some value
  | value, c :: cs => (digit? base c).bind fun d => digitsFrom? base (value * base + d) cs

/-- The number written by digits of the given base; there must be at least one. -/
def digits? (base : Nat) (cs : List Char) : Option Nat :=
  if cs.isEmpty then none else digitsFrom? base 0 cs

def radix? (c : Char) : Option Nat :=
  if c = 'x' then some 16 else if c = 'o' then some 8 else if c = 'b' then some 2 else none

/-- The number written by lower-case digits, with or without a mark for their base. -/
def numeral? : List Char → Option Nat
  | c :: d :: cs =>
    match if c = '0' then radix? d else none with
    | some base => digits? base cs
    | none => digits? 10 (c :: d :: cs)
  | cs => digits? 10 cs

/-- The number that a spelling denotes. Underscores and the case of letters do not matter. -/
def integer? (text : String) : Option Int :=
  let value := numeral? ((text.toList.filter (· ≠ '_')).map Char.toLower)
  (value.filter (· ≤ maxInteger)).map Int.ofNat

def escaped? (c : Char) : Option Char :=
  if c = 'n' then some '\n'
  else if c = 'r' then some '\r'
  else if c = 't' then some '\t'
  else if c = '0' then some '\x00'
  else if c = '\\' || c = '"' || c = '\'' then some c
  else none

/-- The characters that a spelling without its quotes denotes. An escaped line break denotes
nothing. -/
def unescape : List Char → Except TextFault (List Char)
  | [] => .ok []
  | c :: cs =>
    if c = '\\' then
      match cs with
      | [] => .error .unterminatedEscape
      | d :: ds =>
        if d = '\n' then unescape ds
        else
          match escaped? d with
          | some e => (unescape ds).map (e :: ·)
          | none => .error (.unsupportedEscape d)
    else (unescape cs).map (c :: ·)

def delimiters : List (List Char) :=
  [['"', '"', '"'], ['\'', '\'', '\''], ['"'], ['\'']]

/-- What stands between the quotes of a spelling. -/
def unquote? (cs : List Char) : Option (List Char) :=
  let encloses (d : List Char) : Bool :=
    2 * d.length ≤ cs.length && d.isPrefixOf cs && d.isSuffixOf cs
  (delimiters.find? encloses).map fun d =>
    (cs.drop d.length).take (cs.length - 2 * d.length)

def text (spelling : String) : Except TextFault String :=
  match unquote? spelling.toList with
  | none => .error .missingQuotes
  | some body => (unescape body).map String.ofList

end P16.Literal
