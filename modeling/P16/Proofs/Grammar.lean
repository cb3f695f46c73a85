import P16.Parse.Expr

/-!
# The grammar of expressions

`Phrase.Derives` says which tokens are read as which expressions, and what remains. There is a rule
for each way to go on, with the tokens on which it depends, so that what is true of everything that
can be read is proved from the rules, without a look at the parsers.
-/

namespace P16

def ahead (ts : List Token) : Option TokenKind :=
  ts.head?.map Token.kind

@[simp] theorem ahead_nil : ahead [] = none := rfl

@[simp] theorem ahead_cons (t : Token) (ts : List Token) : ahead (t :: ts) = some t.kind := rfl

def Token.ident (t : Token) : Ident := ⟨t.text, t.span⟩

/-- Names, numbers and texts: the kinds whose spelling matters. -/
def TokenKind.isLeaf : TokenKind → Bool
  | ident | int | str => true
  | _ => false

/-- The power with which a token holds the operand before it. -/
def TokenKind.grip? (kind : TokenKind) : Option Nat :=
  if kind.startsTrailer then some Power.trailer
  else if kind.startsComparison then some Power.comparison.left
  else (BinaryOp.ofKind? kind).map (·.power.left)

/-- Nothing ahead continues an operand that is asked for at `power`. -/
def Stops (power : Nat) (ts : List Token) : Prop :=
  ∀ grip ∈ (ahead ts).bind TokenKind.grip?, grip < power

/-- The comparison operators that are written by one token. -/
def CompareOp.ofKind? : TokenKind → Option CompareOp
  | .eqEq => some eq
  | .notEq => some notEq
  | .lt => some lt
  | .lte => some le
  | .gt => some gt
  | .gte => some ge
  | .kwIn => some isIn
  | _ => none

inductive CompareOp.Derives : CompareOp → List Token → List Token → Prop where
  | sign {t : Token} {op : CompareOp} {rest : List Token} (ht : ofKind? t.kind = some op) :
      op.Derives (t :: rest) rest
  | notIn {t u : Token} {rest : List Token} (ht : t.kind = .kwNot) (hu : u.kind = .kwIn) :
      notIn.Derives (t :: u :: rest) rest
  | isNot {t u : Token} {rest : List Token} (ht : t.kind = .kwIs) (hu : u.kind = .kwNot) :
      isNot.Derives (t :: u :: rest) rest
  | is {t : Token} {rest : List Token} (ht : t.kind = .kwIs) (hrest : ahead rest ≠ some .kwNot) :
      is.Derives (t :: rest) rest

/-- Texts that follow a text are joined to it. -/
inductive MoreText : String → Span → Expr → List Token → List Token → Prop where
  | done {value : String} {span : Span} {rest : List Token} (hrest : ahead rest ≠ some .str) :
      MoreText value span (.text value span) rest rest
  | more {value next : String} {span : Span} {e : Expr} {t : Token} {ts rest : List Token}
      (ht : t.kind = .str) (hnext : Literal.text t.text = .ok next)
      (hmore : MoreText (value ++ next) (span.through t.span) e ts rest) :
      MoreText value span e (t :: ts) rest

/-- A tuple takes the span of the parentheses around it; another expression keeps its own. -/
def Expr.enclosed (span : Span) : Expr → Expr
  | tuple items _ => tuple items span
  | e => e

/-- The end of a list of expressions, after a comma. -/
def endsExprList (ts : List Token) : Bool :=
  (ahead ts).all fun kind => kind = .newline || kind = .semi || kind = .eq || kind = .rparen ||
    (BinaryOp.ofAugmented? kind).isSome

/-- An argument that is passed by name begins here. -/
def startsKeyword (ts : List Token) : Bool :=
  ahead ts = some .ident && ahead ts.tail = some .eq

/-- What can be read, with the tree that it is read as. -/
inductive Phrase where
  | expr (power : Nat) (e : Expr)
  | operand (e : Expr)
  | exprList (e : Expr)
  | moreExprs (es : List Expr)
  | items (close : TokenKind) (es : List Expr)
  | entries (es : List (Expr × Expr))
  | argument (latest : Option (Keyword Expr)) (a : Parser.Argument)
  | arguments (latest : Option (Keyword Expr)) (as : List Parser.Argument)
  | trailer (value e : Expr)
  | links (links : List (CompareOp × Expr))
  /-- The operators after `left`, which make it `e`. -/
  | operators (power : Nat) (left e : Expr)

namespace Phrase

/-- The phrase is read from the tokens, and `rest` remains. -/
inductive Derives : Phrase → List Token → List Token → Prop where
  | expr {power : Nat} {left e : Expr} {ts mid rest : List Token}
      (hleft : Derives (operand left) ts mid) (hops : Derives (operators power left e) mid rest) :
      Derives (expr power e) ts rest
  | unary {op : UnaryOp} {power : Nat} {e : Expr} {t : Token} {ts rest : List Token}
      (ht : UnaryOp.ofKind? t.kind = some (op, power)) (he : Derives (expr power e) ts rest) :
      Derives (operand (.unary op e (t.span.through e.span))) (t :: ts) rest
  | name {t : Token} {rest : List Token} (ht : t.kind = .ident) :
      Derives (operand (.name t.ident)) (t :: rest) rest
  | number {value : Int} {t : Token} {rest : List Token} (ht : t.kind = .int)
      (hvalue : Literal.integer? t.text = some value) :
      Derives (operand (.number value t.span)) (t :: rest) rest
  | text {value : String} {e : Expr} {t : Token} {ts rest : List Token} (ht : t.kind = .str)
      (hvalue : Literal.text t.text = .ok value) (hmore : MoreText value t.span e ts rest) :
      Derives (operand e) (t :: ts) rest
  | unit {t close : Token} {rest : List Token} (ht : t.kind = .lparen)
      (hclose : close.kind = .rparen) :
      Derives (operand (.tuple [] (t.span.through close.span))) (t :: close :: rest) rest
  | parens {e : Expr} {t close : Token} {ts rest : List Token} (ht : t.kind = .lparen)
      (he : Derives (exprList e) ts (close :: rest)) (hclose : close.kind = .rparen) :
      Derives (operand (e.enclosed (t.span.through close.span))) (t :: ts) rest
  | list {es : List Expr} {t close : Token} {ts rest : List Token} (ht : t.kind = .lbracket)
      (hes : Derives (items .rbracket es) ts (close :: rest)) (hclose : close.kind = .rbracket) :
      Derives (operand (.list es (t.span.through close.span))) (t :: ts) rest
  | dict {es : List (Expr × Expr)} {t close : Token} {ts rest : List Token} (ht : t.kind = .lbrace)
      (hes : Derives (entries es) ts (close :: rest)) (hclose : close.kind = .rbrace) :
      Derives (operand (.dict es (t.span.through close.span))) (t :: ts) rest
  | single {e : Expr} {ts rest : List Token} (he : Derives (expr 0 e) ts rest)
      (hrest : ahead rest ≠ some .comma) : Derives (exprList e) ts rest
  | tuple {first : Expr} {more : List Expr} {ts mid rest : List Token}
      (hfirst : Derives (expr 0 first) ts mid) (hmid : ahead mid = some .comma)
      (hmore : Derives (moreExprs more) mid rest) :
      Derives (exprList (.tuple (first :: more)
        (first.span.through (more.getLastD first).span))) ts rest
  | exprsDone {rest : List Token} (hrest : ahead rest ≠ some .comma) :
      Derives (moreExprs []) rest rest
  | exprsComma {t : Token} {rest : List Token} (ht : t.kind = .comma)
      (hrest : endsExprList rest = true) :
      Derives (moreExprs []) (t :: rest) rest
  | exprsMore {e : Expr} {es : List Expr} {t : Token} {ts mid rest : List Token}
      (ht : t.kind = .comma) (hts : endsExprList ts = false) (he : Derives (expr 0 e) ts mid)
      (hes : Derives (moreExprs es) mid rest) : Derives (moreExprs (e :: es)) (t :: ts) rest
  | itemsDone {close : TokenKind} {rest : List Token} (hrest : ahead rest = some close) :
      Derives (items close []) rest rest
  | itemsLast {close : TokenKind} {e : Expr} {ts rest : List Token} (hts : ahead ts ≠ some close)
      (he : Derives (expr 0 e) ts rest) (hrest : ahead rest ≠ some .comma) :
      Derives (items close [e]) ts rest
  | itemsMore {close : TokenKind} {e : Expr} {es : List Expr} {t : Token} {ts mid rest : List Token}
      (hts : ahead ts ≠ some close) (he : Derives (expr 0 e) ts (t :: mid)) (ht : t.kind = .comma)
      (hes : Derives (items close es) mid rest) : Derives (items close (e :: es)) ts rest
  | entriesDone {rest : List Token} (hrest : ahead rest = some .rbrace) :
      Derives (entries []) rest rest
  | entriesLast {key value : Expr} {colon : Token} {ts mid rest : List Token}
      (hts : ahead ts ≠ some .rbrace) (hkey : Derives (expr 0 key) ts (colon :: mid))
      (hcolon : colon.kind = .colon) (hvalue : Derives (expr 0 value) mid rest)
      (hrest : ahead rest ≠ some .comma) : Derives (entries [(key, value)]) ts rest
  | entriesMore {key value : Expr} {es : List (Expr × Expr)} {colon t : Token}
      {ts mid mid' rest : List Token} (hts : ahead ts ≠ some .rbrace)
      (hkey : Derives (expr 0 key) ts (colon :: mid)) (hcolon : colon.kind = .colon)
      (hvalue : Derives (expr 0 value) mid (t :: mid')) (ht : t.kind = .comma)
      (hes : Derives (entries es) mid' rest) : Derives (entries ((key, value) :: es)) ts rest
  | keyword {latest : Option (Keyword Expr)} {value : Expr} {t u : Token} {ts rest : List Token}
      (ht : t.kind = .ident) (hu : u.kind = .eq) (hvalue : Derives (expr 0 value) ts rest) :
      Derives (argument latest (.keyword ⟨t.ident, value, t.span.through value.span⟩))
        (t :: u :: ts) rest
  | positional {value : Expr} {ts rest : List Token} (hts : startsKeyword ts = false)
      (hvalue : Derives (expr 0 value) ts rest) :
      Derives (argument none (.positional value)) ts rest
  | argumentsDone {latest : Option (Keyword Expr)} {rest : List Token}
      (hrest : ahead rest = some .rparen) : Derives (arguments latest []) rest rest
  | argumentsLast {latest : Option (Keyword Expr)} {a : Parser.Argument} {ts rest : List Token}
      (hts : ahead ts ≠ some .rparen) (ha : Derives (argument latest a) ts rest)
      (hrest : ahead rest ≠ some .comma) : Derives (arguments latest [a]) ts rest
  | argumentsMore {latest : Option (Keyword Expr)} {a : Parser.Argument}
      {as : List Parser.Argument} {t : Token} {ts mid rest : List Token}
      (hts : ahead ts ≠ some .rparen) (ha : Derives (argument latest a) ts (t :: mid))
      (ht : t.kind = .comma) (has : Derives (arguments (a.keyword? <|> latest) as) mid rest) :
      Derives (arguments latest (a :: as)) ts rest
  | member {value : Expr} {t u : Token} {rest : List Token} (ht : t.kind = .dot)
      (hu : u.kind = .ident) :
      Derives (trailer value (.member value u.ident (value.span.through u.span)))
        (t :: u :: rest) rest
  | subscript {value index : Expr} {t close : Token} {ts rest : List Token}
      (ht : t.kind = .lbracket) (hindex : Derives (exprList index) ts (close :: rest))
      (hclose : close.kind = .rbracket) :
      Derives (trailer value (.subscript value index (value.span.through close.span)))
        (t :: ts) rest
  | call {callee : Expr} {args : List Parser.Argument} {t close : Token} {ts rest : List Token}
      (ht : t.kind = .lparen) (hargs : Derives (arguments none args) ts (close :: rest))
      (hclose : close.kind = .rparen) :
      Derives (trailer callee (.call callee (args.filterMap Parser.Argument.positional?)
        (args.filterMap Parser.Argument.keyword?) (callee.span.through close.span))) (t :: ts) rest
  | linksDone {rest : List Token} (hrest : ∀ kind ∈ ahead rest, kind.startsComparison = false) :
      Derives (links []) rest rest
  | linksMore {op : CompareOp} {e : Expr} {more : List (CompareOp × Expr)}
      {ts mid mid' rest : List Token} (hop : op.Derives ts mid)
      (he : Derives (expr Power.comparison.right e) mid mid')
      (hmore : Derives (links more) mid' rest) : Derives (links ((op, e) :: more)) ts rest
  | operatorsDone {power : Nat} {left : Expr} {rest : List Token} (hrest : Stops power rest) :
      Derives (operators power left left) rest rest
  | operatorsTrailer {power : Nat} {left next e : Expr} {ts mid rest : List Token}
      (hpower : power ≤ Power.trailer) (hnext : Derives (trailer left next) ts mid)
      (hmore : Derives (operators power next e) mid rest) :
      Derives (operators power left e) ts rest
  | operatorsCompare {power : Nat} {left e : Expr} {link : CompareOp × Expr}
      {more : List (CompareOp × Expr)} {ts mid rest : List Token}
      (hpower : power ≤ Power.comparison.left) (hlinks : Derives (links (link :: more)) ts mid)
      (hmore : Derives (operators power (.compare left (link :: more)
        (left.span.through (((link :: more).getLast?.map (·.2)).getD left).span)) e) mid rest) :
      Derives (operators power left e) ts rest
  | operatorsBinary {op : BinaryOp} {power : Nat} {left right e : Expr} {t : Token}
      {ts mid rest : List Token} (ht : BinaryOp.ofKind? t.kind = some op)
      (hpower : power ≤ op.power.left) (hright : Derives (expr op.power.right right) ts mid)
      (hmore : Derives (operators power (.binary op left right (left.span.through right.span)) e)
        mid rest) :
      Derives (operators power left e) (t :: ts) rest

end Phrase

end P16
