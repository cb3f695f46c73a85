import P16.Assembly.Operand
import P16.Text.Quoted

/-!
# Compile-time values

What constants hold and what hooks receive.
-/

namespace P16

inductive Value where
  | number (n : Int)
  | text (s : String)
  | register (r : Register)
  | label (name : String)
  | tuple (items : List Value)
  | list (items : List Value)
  | mapping (entries : List (Value × Value))
deriving Inhabited

/-- A number as a machine word; negative numbers wrap around. -/
def word? (n : Int) : Option UInt16 :=
  if -0x8000 ≤ n ∧ n ≤ 0xffff then some (UInt16.ofNat (n % 0x10000).toNat) else none

namespace Value

def kindName : Value → String
  | number _ => "number"
  | text _ => "string"
  | register _ => "register"
  | label _ => "label"
  | tuple _ => "tuple"
  | list _ => "list"
  | mapping _ => "mapping"

def number? : Value → Option Int
  | number n => some n
  | _ => none

def text? : Value → Option String
  | text s => some s
  | _ => none

/-- The value as an operand of an instruction, if it is a word. -/
def operand? : Value → Option Operand
  | number n => (word? n).map .lit
  | register r => some (.reg r)
  | label name => some (.label name)
  | _ => none

mutual

def render : Value → String
  | number n => toString n
  | text s => Text.quoted s
  | register r => r.name
  | label name => name
  | tuple [item] => "(" ++ item.render ++ ",)"
  | tuple items => "(" ++ ", ".intercalate (renderItems items) ++ ")"
  | list items => "[" ++ ", ".intercalate (renderItems items) ++ "]"
  | mapping entries => "\x7b" ++ ", ".intercalate (renderEntries entries) ++ "\x7d"

def renderItems : List Value → List String
  | [] => []
  | item :: rest => item.render :: renderItems rest

def renderEntries : List (Value × Value) → List String
  | [] => []
  | (key, value) :: rest => (key.render ++ ": " ++ value.render) :: renderEntries rest

end

end Value

end P16
