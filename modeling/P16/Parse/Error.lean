import P16.Source.Span
import P16.Token.Kind

/-!
# Faults found while reading a module

A fault is a cause at a place. The wording of every cause is in `ParseError.Cause.message`.
-/

namespace P16

inductive TextFault where
  | missingQuotes
  | unterminatedEscape
  | unsupportedEscape (escaped : Char)
deriving DecidableEq

def TextFault.message : TextFault → String
  | missingQuotes => "missing quotes"
  | unterminatedEscape => "unterminated escape"
  | unsupportedEscape escaped => "unsupported escape \\" ++ escaped.toString

namespace ParseError

inductive Cause where
  | badDedent
  | unexpectedIndent
  | unexpectedEnd
  | expectedKind (wanted found : TokenKind)
  | expectedName (found : TokenKind)
  | expectedExpression (found : TokenKind)
  | expectedLineEnd (found : TokenKind)
  | badInteger
  | badText (fault : TextFault)
  | positionalAfterKeyword
  | whileElse
  /-- The bound on nesting is used up. The bound that `parseModule` computes is large enough for
  every input. -/
  | tooDeep
deriving DecidableEq

def Cause.message : Cause → String
  | badDedent => "unindent does not match any outer indentation level"
  | unexpectedIndent => "unexpected indent"
  | unexpectedEnd => "unexpected end of input"
  | expectedKind wanted found => "expected " ++ wanted.name ++ ", found " ++ found.name
  | expectedName found => "expected identifier, found " ++ found.name
  | expectedExpression found => "expected expression, found " ++ found.name
  | expectedLineEnd found => "expected end of line, found " ++ found.name
  | badInteger => "invalid integer literal"
  | badText fault => "invalid string literal: " ++ fault.message
  | positionalAfterKeyword => "positional argument follows keyword argument"
  | whileElse => "`while ... else` is not supported"
  | tooDeep => "input is nested too deeply"

end ParseError

structure ParseError where
  cause : ParseError.Cause
  span : Span
deriving DecidableEq

def ParseError.message (error : ParseError) : String :=
  error.cause.message

end P16
