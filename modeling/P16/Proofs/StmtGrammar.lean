import P16.Parse.Stmt
import P16.Proofs.Grammar

/-!
# The grammar of statements

`Clause.Derives` says which tokens are read as which statements, and what remains.
-/

namespace P16

section names

/-- The parts of a dotted name after the first. -/
inductive MoreName : DottedName → DottedName → List Token → List Token → Prop where
  | done {name : DottedName} {rest : List Token} (hrest : ahead rest ≠ some .dot) :
      MoreName name name rest rest
  | more {name whole : DottedName} {t u : Token} {ts rest : List Token} (ht : t.kind = .dot)
      (hu : u.kind = .ident) (hmore : MoreName (name.snoc u.ident) whole ts rest) :
      MoreName name whole (t :: u :: ts) rest

/-- The dotted name is read from the tokens. -/
def DottedName.Derives (name : DottedName) (ts rest : List Token) : Prop :=
  ∃ t ts', ts = t :: ts' ∧ t.kind = .ident ∧ MoreName (.ofIdent t.ident) name ts' rest

inductive ImportName.Derives : ImportName → List Token → List Token → Prop where
  | plain {path : DottedName} {ts rest : List Token} (hpath : path.Derives ts rest)
      (hrest : ahead rest ≠ some .kwAs) : Derives ⟨path, none, path.span⟩ ts rest
  | renamed {path : DottedName} {t u : Token} {ts rest : List Token}
      (hpath : path.Derives ts (t :: u :: rest)) (ht : t.kind = .kwAs) (hu : u.kind = .ident) :
      Derives ⟨path, some u.ident, path.span.through u.span⟩ ts rest

inductive ImportNames : List ImportName → List Token → List Token → Prop where
  | last {name : ImportName} {ts rest : List Token} (hname : name.Derives ts rest)
      (hrest : ahead rest ≠ some .comma) : ImportNames [name] ts rest
  | more {name : ImportName} {names : List ImportName} {t : Token} {ts mid rest : List Token}
      (hname : name.Derives ts (t :: mid)) (ht : t.kind = .comma)
      (hnames : ImportNames names mid rest) : ImportNames (name :: names) ts rest

/-- The parameters of a function, up to the closing parenthesis. -/
inductive Params : List Ident → List Token → List Token → Prop where
  | done {rest : List Token} (hrest : ahead rest = some .rparen) : Params [] rest rest
  | last {t : Token} {rest : List Token} (ht : t.kind = .ident) (hrest : ahead rest ≠ some .comma) :
      Params [t.ident] (t :: rest) rest
  | more {t u : Token} {params : List Ident} {ts rest : List Token} (ht : t.kind = .ident)
      (hu : u.kind = .comma) (hparams : Params params ts rest) :
      Params (t.ident :: params) (t :: u :: ts) rest

end names

/-- The statement that is made of the sides of zero or more `=`. -/
def Stmt.ofSides (first : Expr) (sides : List Expr) : Stmt :=
  match sides.getLast? with
  | none => .expr first first.span
  | some value => .assign (first :: sides.dropLast) value (first.span.through value.span)

inductive LineEnd : List Token → List Token → Prop where
  | newline {t : Token} {rest : List Token} (ht : t.kind = .newline) : LineEnd (t :: rest) rest
  | block {rest : List Token} (hrest : ahead rest = none ∨ ahead rest = some .dedent) :
      LineEnd rest rest

/-- The mark that closes a block, or nothing where none is ahead. -/
inductive BlockEnd : List Token → List Token → Prop where
  | dedent {t : Token} {rest : List Token} (ht : t.kind = .dedent) : BlockEnd (t :: rest) rest
  | none {rest : List Token} (hrest : ahead rest ≠ some .dedent) : BlockEnd rest rest

def TokenKind.startsCompound : TokenKind → Bool
  | atSign | kwDef | kwWhile | kwIf | kwFor | kwClass | indent => true
  | _ => false

def TokenKind.startsKeywordStmt : TokenKind → Bool
  | kwPass | kwBreak | kwContinue | kwReturn | kwImport | kwFrom => true
  | _ => false

/-- What can be read at the level of statements. -/
inductive Clause where
  /-- The sides of `=` after the first. -/
  | assigned (sides : List Expr)
  | simple (s : Stmt)
  | moreSimple (ss : List Stmt)
  | line (ss : List Stmt)
  | decorators (es : List Expr)
  /-- The targets of a `for`. -/
  | targets (es : List Expr)
  | block (ss : List Stmt)
  /-- A suite, and the span of its last statement. -/
  | suite (body : List Stmt) (stop : Span)
  /-- `elif` branches, from the span of the suite before to that of the last suite. -/
  | branches (before stop : Span)
  | stmt (ss : List Stmt)
  | whole (ss : List Stmt)

namespace Clause

/-- The span at which a suite ends. -/
def suiteEnd (body : List Stmt) (colon : Token) : Span :=
  (body.getLast?.map Stmt.span).getD colon.span

/-- The clause is read from the tokens, and `rest` remains. -/
inductive Derives : Clause → List Token → List Token → Prop where
  | assignedDone {rest : List Token} (hrest : ahead rest ≠ some .eq) :
      Derives (assigned []) rest rest
  | assignedMore {side : Expr} {sides : List Expr} {t : Token} {ts mid rest : List Token}
      (ht : t.kind = .eq) (hside : (Phrase.exprList side).Derives ts mid)
      (hsides : Derives (assigned sides) mid rest) :
      Derives (assigned (side :: sides)) (t :: ts) rest
  | pass {t : Token} {rest : List Token} (ht : t.kind = .kwPass) :
      Derives (simple (.pass t.span)) (t :: rest) rest
  | breakLoop {t : Token} {rest : List Token} (ht : t.kind = .kwBreak) :
      Derives (simple (.breakLoop t.span)) (t :: rest) rest
  | continueLoop {t : Token} {rest : List Token} (ht : t.kind = .kwContinue) :
      Derives (simple (.continueLoop t.span)) (t :: rest) rest
  | giveBackNothing {t : Token} {rest : List Token} (ht : t.kind = .kwReturn)
      (hrest : Parser.atSimpleEnd (ahead rest) = true) :
      Derives (simple (.giveBack none t.span)) (t :: rest) rest
  | giveBack {value : Expr} {t : Token} {ts rest : List Token} (ht : t.kind = .kwReturn)
      (hts : Parser.atSimpleEnd (ahead ts) = false)
      (hvalue : (Phrase.exprList value).Derives ts rest) :
      Derives (simple (.giveBack (some value) (t.span.through value.span))) (t :: ts) rest
  | importNames {names : List ImportName} {t : Token} {ts rest : List Token}
      (ht : t.kind = .kwImport) (hnames : ImportNames names ts rest) :
      Derives (simple (.importNames names
        (t.span.through ((names.getLast?.map ImportName.span).getD t.span)))) (t :: ts) rest
  | importFrom {name : DottedName} {t u : Token} {ts mid skipped rest : List Token}
      (ht : t.kind = .kwFrom) (hname : name.Derives ts (u :: mid)) (hu : u.kind = .kwImport)
      (hskipped : mid.span (fun token => !Parser.atSimpleEnd (some token.kind)) =
        (skipped, rest)) :
      Derives (simple (.unsupported .importFrom
        (t.span.through ((skipped.getLast?.map Token.span).getD t.span)))) (t :: ts) rest
  | augAssign {op : BinaryOp} {target value : Expr} {t : Token} {ts mid rest : List Token}
      (hts : ∀ kind ∈ ahead ts, kind.startsKeywordStmt = false)
      (htarget : (Phrase.exprList target).Derives ts (t :: mid))
      (ht : BinaryOp.ofAugmented? t.kind = some op)
      (hvalue : (Phrase.expr 0 value).Derives mid rest) :
      Derives (simple (.augAssign target op value (target.span.through value.span))) ts rest
  | sides {first : Expr} {sides : List Expr} {ts mid rest : List Token}
      (hts : ∀ kind ∈ ahead ts, kind.startsKeywordStmt = false)
      (hfirst : (Phrase.exprList first).Derives ts mid)
      (hmid : (ahead mid).bind BinaryOp.ofAugmented? = none)
      (hsides : Derives (assigned sides) mid rest) :
      Derives (simple (.ofSides first sides)) ts rest
  | simpleDone {rest : List Token} (hrest : ahead rest ≠ some .semi) :
      Derives (moreSimple []) rest rest
  | simpleSemi {t : Token} {rest : List Token} (ht : t.kind = .semi)
      (hrest : ahead rest = none ∨ ahead rest = some .newline) :
      Derives (moreSimple []) (t :: rest) rest
  | simpleMore {s : Stmt} {ss : List Stmt} {t : Token} {ts mid rest : List Token}
      (ht : t.kind = .semi) (hts : ahead ts ≠ none ∧ ahead ts ≠ some .newline)
      (hs : Derives (simple s) ts mid) (hss : Derives (moreSimple ss) mid rest) :
      Derives (moreSimple (s :: ss)) (t :: ts) rest
  | line {s : Stmt} {ss : List Stmt} {ts mid mid' rest : List Token}
      (hs : Derives (simple s) ts mid) (hss : Derives (moreSimple ss) mid mid')
      (hend : LineEnd mid' rest) : Derives (line (s :: ss)) ts rest
  | decoratorsDone {rest : List Token} (hrest : ahead rest ≠ some .atSign) :
      Derives (decorators []) rest rest
  | decoratorsMore {e : Expr} {es : List Expr} {t u : Token} {ts mid rest : List Token}
      (ht : t.kind = .atSign) (he : (Phrase.expr 0 e).Derives ts (u :: mid))
      (hu : u.kind = .newline) (hes : Derives (decorators es) mid rest) :
      Derives (decorators (e :: es)) (t :: ts) rest
  | targetsLast {e : Expr} {ts rest : List Token}
      (he : (Phrase.expr Power.loopTarget e).Derives ts rest)
      (hrest : ahead rest ≠ some .comma) : Derives (targets [e]) ts rest
  | targetsMore {e : Expr} {es : List Expr} {t : Token} {ts mid rest : List Token}
      (he : (Phrase.expr Power.loopTarget e).Derives ts (t :: mid)) (ht : t.kind = .comma)
      (hes : Derives (targets es) mid rest) : Derives (targets (e :: es)) ts rest
  | blockDone {rest : List Token} (hrest : ahead rest = none ∨ ahead rest = some .dedent) :
      Derives (block []) rest rest
  | blockMore {ss more : List Stmt} {ts mid rest : List Token}
      (hts : ahead ts ≠ none ∧ ahead ts ≠ some .dedent) (hss : Derives (stmt ss) ts mid)
      (hmore : Derives (block more) mid rest) : Derives (block (ss ++ more)) ts rest
  | suiteBlock {body : List Stmt} {colon t u : Token} {ts mid rest : List Token}
      (hcolon : colon.kind = .colon) (ht : t.kind = .newline) (hu : u.kind = .indent)
      (hbody : Derives (block body) ts mid) (hend : BlockEnd mid rest) :
      Derives (suite body (suiteEnd body colon)) (colon :: t :: u :: ts) rest
  | suiteLine {body : List Stmt} {colon : Token} {ts rest : List Token}
      (hcolon : colon.kind = .colon) (hts : ahead ts ≠ some .newline)
      (hbody : Derives (line body) ts rest) :
      Derives (suite body (suiteEnd body colon)) (colon :: ts) rest
  | branchesDone {stop : Span} {rest : List Token} (hrest : ahead rest ≠ some .kwElif) :
      Derives (branches stop stop) rest rest
  | branchesMore {before between stop : Span} {test : Expr} {body : List Stmt} {t : Token}
      {ts mid mid' rest : List Token} (ht : t.kind = .kwElif)
      (htest : (Phrase.expr 0 test).Derives ts mid) (hbody : Derives (suite body between) mid mid')
      (hmore : Derives (branches between stop) mid' rest) :
      Derives (branches before stop) (t :: ts) rest
  | define {marks : List Expr} {params : List Ident} {body : List Stmt} {stop : Span}
      {t kw name opening close : Token} {ts mid mid' rest : List Token}
      (ht : t.kind = .atSign ∨ t.kind = .kwDef)
      (hmarks : Derives (decorators marks) (t :: ts) (kw :: name :: opening :: mid))
      (hkw : kw.kind = .kwDef) (hname : name.kind = .ident) (hopening : opening.kind = .lparen)
      (hparams : Params params mid (close :: mid')) (hclose : close.kind = .rparen)
      (hbody : Derives (suite body stop) mid' rest) :
      Derives (stmt [.define name.ident params marks body (t.span.through stop)]) (t :: ts) rest
  | whileLoop {test : Expr} {body : List Stmt} {stop : Span} {t : Token} {ts mid rest : List Token}
      (ht : t.kind = .kwWhile) (htest : (Phrase.expr 0 test).Derives ts mid)
      (hbody : Derives (suite body stop) mid rest) (hrest : ahead rest ≠ some .kwElse) :
      Derives (stmt [.whileLoop test body (t.span.through stop)]) (t :: ts) rest
  | conditional {test : Expr} {body : List Stmt} {between stop : Span} {t : Token}
      {ts mid mid' rest : List Token} (ht : t.kind = .kwIf)
      (htest : (Phrase.expr 0 test).Derives ts mid) (hbody : Derives (suite body between) mid mid')
      (hbranches : Derives (branches between stop) mid' rest) (hrest : ahead rest ≠ some .kwElse) :
      Derives (stmt [.unsupported .conditional (t.span.through stop)]) (t :: ts) rest
  | conditionalElse {test : Expr} {body otherwise : List Stmt} {between last stop : Span}
      {t u : Token} {ts mid mid' mid'' rest : List Token} (ht : t.kind = .kwIf)
      (htest : (Phrase.expr 0 test).Derives ts mid) (hbody : Derives (suite body between) mid mid')
      (hbranches : Derives (branches between last) mid' (u :: mid'')) (hu : u.kind = .kwElse)
      (hotherwise : Derives (suite otherwise stop) mid'' rest) :
      Derives (stmt [.unsupported .conditional (t.span.through stop)]) (t :: ts) rest
  | iteration {es : List Expr} {source : Expr} {body : List Stmt} {stop : Span} {t u : Token}
      {ts mid mid' rest : List Token} (ht : t.kind = .kwFor)
      (hes : Derives (targets es) ts (u :: mid)) (hu : u.kind = .kwIn)
      (hsource : (Phrase.exprList source).Derives mid mid')
      (hbody : Derives (suite body stop) mid' rest) :
      Derives (stmt [.unsupported .iteration (t.span.through stop)]) (t :: ts) rest
  | classDefinition {body : List Stmt} {stop : Span} {t name : Token} {ts rest : List Token}
      (ht : t.kind = .kwClass) (hname : name.kind = .ident) (hts : ahead ts ≠ some .lparen)
      (hbody : Derives (suite body stop) ts rest) :
      Derives (stmt [.unsupported .classDefinition (t.span.through stop)]) (t :: name :: ts) rest
  | classWithParents {parents : List Expr} {body : List Stmt} {stop : Span}
      {t name opening close : Token} {ts mid rest : List Token} (ht : t.kind = .kwClass)
      (hname : name.kind = .ident) (hopening : opening.kind = .lparen)
      (hparents : (Phrase.items .rparen parents).Derives ts (close :: mid))
      (hclose : close.kind = .rparen) (hbody : Derives (suite body stop) mid rest) :
      Derives (stmt [.unsupported .classDefinition (t.span.through stop)])
        (t :: name :: opening :: ts) rest
  | stmtLine {ss : List Stmt} {t : Token} {ts rest : List Token}
      (ht : t.kind.startsCompound = false)
      (hss : Derives (line ss) (t :: ts) rest) : Derives (stmt ss) (t :: ts) rest
  | wholeDone : Derives (whole []) [] []
  | wholeNewline {ss : List Stmt} {t : Token} {ts : List Token} (ht : t.kind = .newline)
      (hss : Derives (whole ss) ts []) : Derives (whole ss) (t :: ts) []
  | wholeMore {ss more : List Stmt} {ts mid : List Token}
      (hts : ahead ts ≠ none ∧ ahead ts ≠ some .newline) (hss : Derives (stmt ss) ts mid)
      (hmore : Derives (whole more) mid []) : Derives (whole (ss ++ more)) ts []

end Clause

end P16
