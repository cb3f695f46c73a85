import P16.Token.Kind
import P16.Tree.Expr

/-!
# Binding powers

How tightly operators hold their operands. An operator continues an operand only if its power to
the left is at least the power asked for; its right operand is read at its power to the right, so an
operator whose right power exceeds its left one associates to the left.
-/

namespace P16

structure Power where
  left : Nat
  right : Nat
deriving DecidableEq, Inhabited

namespace Power

def negation : Nat := 5

def comparison : Power := ⟨7, 8⟩

/-- Just above a comparison, so that the `in` of a loop header is left alone. -/
def loopTarget : Nat := 9

def sign : Nat := 21

def trailer : Nat := 25

end Power

namespace BinaryOp

def power : BinaryOp → Power
  | or => ⟨1, 2⟩
  | and => ⟨3, 4⟩
  | bitOr => ⟨9, 10⟩
  | bitXor => ⟨11, 12⟩
  | bitAnd => ⟨13, 14⟩
  | shl | shr => ⟨15, 16⟩
  | add | sub => ⟨17, 18⟩
  | mul | div | floorDiv | mod => ⟨19, 20⟩
  | pow => ⟨24, 23⟩

def ofKind? : TokenKind → Option BinaryOp
  | .plus => some add
  | .minus => some sub
  | .star => some mul
  | .slash => some div
  | .slashSlash => some floorDiv
  | .percent => some mod
  | .starStar => some pow
  | .shl => some shl
  | .shr => some shr
  | .pipe => some bitOr
  | .amp => some bitAnd
  | .caret => some bitXor
  | .kwAnd => some and
  | .kwOr => some or
  | _ => none

def ofAugmented? : TokenKind → Option BinaryOp
  | .plusEq => some add
  | .minusEq => some sub
  | .starEq => some mul
  | .slashEq => some div
  | .slashSlashEq => some floorDiv
  | .percentEq => some mod
  | .starStarEq => some pow
  | .shlEq => some shl
  | .shrEq => some shr
  | .pipeEq => some bitOr
  | .ampEq => some bitAnd
  | .caretEq => some bitXor
  | _ => none

end BinaryOp

def UnaryOp.ofKind? : TokenKind → Option (UnaryOp × Nat)
  | .minus => some (neg, Power.sign)
  | .plus => some (pos, Power.sign)
  | .tilde => some (invert, Power.sign)
  | .kwNot => some (not, Power.negation)
  | _ => none

namespace TokenKind

def startsTrailer : TokenKind → Bool
  | dot | lparen | lbracket => true
  | _ => false

def startsComparison : TokenKind → Bool
  | eqEq | notEq | lt | lte | gt | gte | kwIn | kwNot | kwIs => true
  | _ => false

end TokenKind

end P16
