import P16.Parse.Error
import P16.Token.Scan

/-!
# Layout

Indentation becomes explicit: where a line is indented deeper than the line before it, an `indent`
token comes first; where it returns to an outer level, one `dedent` for each level left. Line breaks
inside brackets and on empty lines are dropped, and the last line is always ended.
-/

namespace P16

structure Layout where
  /-- Columns of the open indentation levels, the innermost first. Below them lies column zero. -/
  indents : List Nat
  depth : Nat
  atLineStart : Bool
deriving DecidableEq

namespace Layout

def start : Layout := ⟨[], 0, true⟩

/-- A token without text at the beginning of `span`. -/
def mark (kind : TokenKind) (span : Span) : Token :=
  ⟨kind, span.collapse, ""⟩

/-- The marks that go before `token` when it is the first of its line, and the levels open then. -/
def indentation (indents : List Nat) (token : Token) : Except ParseError (List Token × List Nat) :=
  let column := token.span.column
  if indents.headD 0 < column then .ok ([mark .indent token.span], column :: indents)
  else
    let closed := indents.takeWhile (column < ·)
    let left := indents.dropWhile (column < ·)
    if column = left.headD 0 then .ok (closed.map fun _ => mark .dedent token.span, left)
    else .error ⟨.badDedent, token.span⟩

def depthAfter (depth : Nat) (kind : TokenKind) : Nat :=
  if kind.opensBracket then depth + 1 else if kind.closesBracket then depth - 1 else depth

/-- The marks that end the input at `eof`. -/
def closing (layout : Layout) (eof : Span) : List Token :=
  (if layout.atLineStart then [] else [mark .newline eof]) ++
    layout.indents.map fun _ => mark .dedent eof

def tokensFrom (eof : Span) : Layout → List Token → Except ParseError (List Token)
  | layout, [] => .ok (layout.closing eof)
  | layout, token :: rest =>
    if token.kind = .newline then
      if layout.depth = 0 && !layout.atLineStart then do
        let tail ← tokensFrom eof { layout with atLineStart := true } rest
        return token :: tail
      else tokensFrom eof layout rest
    else do
      let (marks, indents) ←
        if layout.atLineStart then indentation layout.indents token else .ok ([], layout.indents)
      let tail ← tokensFrom eof ⟨indents, depthAfter layout.depth token.kind, false⟩ rest
      return marks ++ token :: tail

end Layout

def lex (source : String) : Except ParseError (List Token) :=
  let stop := source.utf8ByteSize
  Layout.tokensFrom ((LineIndex.ofString source).span stop stop) .start (scan source)

end P16
