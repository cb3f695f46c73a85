import P16.Text.Hex

/-!
# Registers and operands
-/

namespace P16

inductive Register where
  | A | B | C | X | Y | Z | I | J
deriving DecidableEq, Inhabited

namespace Register

def all : List Register := [A, B, C, X, Y, Z, I, J]

/-- Holds the return address inside a subroutine. -/
def link : Register := J

def arguments : List Register := [A, B, C, X, Y, Z, I]

def name : Register → String
  | A => "A"
  | B => "B"
  | C => "C"
  | X => "X"
  | Y => "Y"
  | Z => "Z"
  | I => "I"
  | J => "J"

def ofName? (name : String) : Option Register :=
  all.find? fun r => r.name = name

theorem ofName?_name (r : Register) : ofName? r.name = some r := by
  cases r <;> decide

end Register

inductive SpecialOperand where
  | pc | sp | ex | push | pop | peek
deriving DecidableEq, Inhabited

namespace SpecialOperand

def all : List SpecialOperand := [pc, sp, ex, push, pop, peek]

def name : SpecialOperand → String
  | pc => "PC"
  | sp => "SP"
  | ex => "EX"
  | push => "PUSH"
  | pop => "POP"
  | peek => "PEEK"

def ofName? (name : String) : Option SpecialOperand :=
  all.find? fun s => s.name = name

end SpecialOperand

inductive Operand where
  | reg (register : Register)
  | special (special : SpecialOperand)
  | lit (word : UInt16)
  | label (name : String)
  | mem (address : Operand)
  /-- The memory word at the sum of a base and an offset. -/
  | memOffset (base offset : Operand)
deriving DecidableEq, Inhabited

namespace Operand

def render : Operand → String
  | reg register => register.name
  | special s => s.name
  | lit word => Text.hexWord word
  | label name => name
  | mem address => "[" ++ address.render ++ "]"
  | memOffset base offset => "[" ++ base.render ++ "+" ++ offset.render ++ "]"

end Operand

end P16
