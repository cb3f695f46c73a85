/-!
# Kinds of tokens

The terminal symbols of the language. Keywords and operators have one spelling each; names, numbers
and texts are classes of spellings; `indent` and `dedent` mark changes of indentation and have no
spelling at all; `error` is a piece of text that begins no token.
-/

namespace P16

inductive TokenKind where
  | newline
  | kwImport | kwFrom | kwAs | kwDef | kwClass | kwReturn | kwWhile | kwFor | kwIn | kwIf | kwElif
  | kwElse | kwBreak | kwContinue | kwPass | kwAnd | kwOr | kwNot | kwIs
  | plusEq | minusEq | starEq | slashEq | slashSlashEq | percentEq | starStarEq | shlEq | shrEq
  | pipeEq | ampEq | caretEq
  | eqEq | notEq | lte | gte | shl | shr | starStar | slashSlash
  | plus | minus | star | slash | percent | pipe | amp | caret | tilde | eq | lt | gt
  | lparen | rparen | lbracket | rbracket | lbrace | rbrace | comma | colon | semi | dot | atSign
  | ident | int | str
  | indent | dedent
  | error
deriving DecidableEq, Inhabited

namespace TokenKind

def name : TokenKind → String
  | newline => "Newline"
  | kwImport => "Import"
  | kwFrom => "From"
  | kwAs => "As"
  | kwDef => "Def"
  | kwClass => "Class"
  | kwReturn => "Return"
  | kwWhile => "While"
  | kwFor => "For"
  | kwIn => "In"
  | kwIf => "If"
  | kwElif => "Elif"
  | kwElse => "Else"
  | kwBreak => "Break"
  | kwContinue => "Continue"
  | kwPass => "Pass"
  | kwAnd => "And"
  | kwOr => "Or"
  | kwNot => "Not"
  | kwIs => "Is"
  | plusEq => "PlusEq"
  | minusEq => "MinusEq"
  | starEq => "StarEq"
  | slashEq => "SlashEq"
  | slashSlashEq => "SlashSlashEq"
  | percentEq => "PercentEq"
  | starStarEq => "StarStarEq"
  | shlEq => "ShlEq"
  | shrEq => "ShrEq"
  | pipeEq => "PipeEq"
  | ampEq => "AmpEq"
  | caretEq => "CaretEq"
  | eqEq => "EqEq"
  | notEq => "NotEq"
  | lte => "Lte"
  | gte => "Gte"
  | shl => "Shl"
  | shr => "Shr"
  | starStar => "StarStar"
  | slashSlash => "SlashSlash"
  | plus => "Plus"
  | minus => "Minus"
  | star => "Star"
  | slash => "Slash"
  | percent => "Percent"
  | pipe => "Pipe"
  | amp => "Amp"
  | caret => "Caret"
  | tilde => "Tilde"
  | eq => "Eq"
  | lt => "Lt"
  | gt => "Gt"
  | lparen => "LParen"
  | rparen => "RParen"
  | lbracket => "LBracket"
  | rbracket => "RBracket"
  | lbrace => "LBrace"
  | rbrace => "RBrace"
  | comma => "Comma"
  | colon => "Colon"
  | semi => "Semi"
  | dot => "Dot"
  | atSign => "At"
  | ident => "Ident"
  | int => "Int"
  | str => "Str"
  | indent => "Indent"
  | dedent => "Dedent"
  | error => "Error"

def keywords : List (String × TokenKind) :=
  [("import", kwImport), ("from", kwFrom), ("as", kwAs), ("def", kwDef), ("class", kwClass),
   ("return", kwReturn), ("while", kwWhile), ("for", kwFor), ("in", kwIn), ("if", kwIf),
   ("elif", kwElif), ("else", kwElse), ("break", kwBreak), ("continue", kwContinue),
   ("pass", kwPass), ("and", kwAnd), ("or", kwOr), ("not", kwNot), ("is", kwIs)]

/-- Operators and punctuation, the longer spellings first. -/
def symbols : List (List Char × TokenKind) :=
  [(['/', '/', '='], slashSlashEq), (['*', '*', '='], starStarEq), (['<', '<', '='], shlEq),
   (['>', '>', '='], shrEq),
   (['+', '='], plusEq), (['-', '='], minusEq), (['*', '='], starEq), (['/', '='], slashEq),
   (['%', '='], percentEq), (['|', '='], pipeEq), (['&', '='], ampEq), (['^', '='], caretEq),
   (['=', '='], eqEq), (['!', '='], notEq), (['<', '='], lte), (['>', '='], gte),
   (['<', '<'], shl), (['>', '>'], shr), (['*', '*'], starStar), (['/', '/'], slashSlash),
   (['\n'], newline),
   (['+'], plus), (['-'], minus), (['*'], star), (['/'], slash), (['%'], percent), (['|'], pipe),
   (['&'], amp), (['^'], caret), (['~'], tilde), (['='], eq), (['<'], lt), (['>'], gt),
   (['('], lparen), ([')'], rparen), (['['], lbracket), ([']'], rbracket), (['\x7b'], lbrace),
   (['\x7d'], rbrace), ([','], comma), ([':'], colon), ([';'], semi), (['.'], dot), (['@'], atSign)]

def ofWord (word : String) : TokenKind :=
  (keywords.lookup word).getD ident

def opensBracket : TokenKind → Bool
  | lparen | lbracket | lbrace => true
  | _ => false

def closesBracket : TokenKind → Bool
  | rparen | rbracket | rbrace => true
  | _ => false

end TokenKind

end P16
