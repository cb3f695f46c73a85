import P16.Proofs.ParserRuns

/-!
# Everything that is derived is read

The other direction: the parsers read what the grammar derives, if their bounds exceed the number of
tokens to be read. Every rule of the grammar takes a token before it goes down a level or round a
loop, so the number of tokens read is what the induction compares with the bounds.
-/

namespace P16

section progress

theorem MoreText.length_le {value : String} {span : Span} {e : Expr} {ts rest : List Token}
    (h : MoreText value span e ts rest) : rest.length ≤ ts.length := by
  induction h with
  | done => exact Nat.le_refl _
  | more _ _ _ ih => exact Nat.le_succ_of_le ih

theorem CompareOp.Derives.length_lt {op : CompareOp} {ts rest : List Token}
    (h : op.Derives ts rest) : rest.length < ts.length := by
  cases h <;> simp only [List.length_cons] <;> omega

namespace Phrase

def least : Phrase → Nat
  | expr .. | operand _ | exprList _ | argument .. | trailer .. => 1
  | links (_ :: _) => 1
  | _ => 0

theorem Derives.length_le {p : Phrase} {ts rest : List Token} (h : p.Derives ts rest) :
    rest.length + p.least ≤ ts.length := by
  induction h with
  | text _ _ hmore =>
      have := hmore.length_le
      simp only [least, List.length_cons]
      omega
  | linksMore hop _ _ ihe ihmore =>
      have := hop.length_lt
      simp only [least] at *
      omega
  | _ =>
      simp only [least, List.length_cons] at *
      omega

end Phrase

end progress

namespace TokenKind

def startsExpr : TokenKind → Bool
  | ident | int | str | lparen | lbracket | lbrace | minus | plus | tilde | kwNot => true
  | _ => false

end TokenKind

namespace Phrase

def startsAsExpr : Phrase → Bool
  | expr .. | operand _ | exprList _ => true
  | _ => false

theorem Derives.starts {p : Phrase} {ts rest : List Token} (h : p.Derives ts rest)
    (hp : p.startsAsExpr = true) : ∃ kind, ahead ts = some kind ∧ kind.startsExpr = true := by
  induction h with
  | expr _ _ ih _ | single _ _ ih | tuple _ _ _ ih _ => exact ih rfl
  | @unary _ _ _ t _ _ ht _ _ =>
      refine ⟨_, rfl, ?_⟩
      cases hk : t.kind <;> simp_all [UnaryOp.ofKind?, TokenKind.startsExpr]
  | name ht | number ht _ | text ht _ _ | unit ht _ | parens ht _ _ _ | list ht _ _ _
  | dict ht _ _ _ => exact ⟨_, congrArg some ht, rfl⟩
  | _ => cases hp

theorem Derives.ahead_ne {p : Phrase} {ts rest : List Token} (h : p.Derives ts rest)
    (hp : p.startsAsExpr = true) {kind : TokenKind} (hkind : kind.startsExpr = false) :
    ahead ts ≠ some kind := by
  obtain ⟨first, hfirst, hstarts⟩ := h.starts hp
  intro hahead
  rw [hfirst, Option.some.injEq] at hahead
  rw [hahead, hkind] at hstarts
  cases hstarts

theorem Derives.startsTrailer {value e : Expr} {ts rest : List Token}
    (h : (trailer value e).Derives ts rest) :
    ∃ kind, ahead ts = some kind ∧ kind.startsTrailer = true := by
  cases h with
  | member ht _ | subscript ht _ _ | call ht _ _ => exact ⟨_, congrArg some ht, rfl⟩

end Phrase

theorem CompareOp.Derives.startsComparison {op : CompareOp} {ts rest : List Token}
    (h : op.Derives ts rest) :
    ∃ kind, ahead ts = some kind ∧ kind.startsTrailer = false ∧ kind.startsComparison = true := by
  cases h with
  | @sign t _ _ ht =>
      refine ⟨_, rfl, ?_⟩
      cases hk : t.kind <;> simp_all [ofKind?, TokenKind.startsTrailer, TokenKind.startsComparison]
  | notIn ht _ | isNot ht _ | is ht _ => exact ⟨_, congrArg some ht, rfl, rfl⟩

theorem BinaryOp.starts_of_ofKind? {kind : TokenKind} {op : BinaryOp} (h : ofKind? kind = some op) :
    kind.startsTrailer = false ∧ kind.startsComparison = false := by
  cases kind <;> simp [ofKind?, TokenKind.startsTrailer, TokenKind.startsComparison] at h ⊢

namespace Parser

variable {eof : Span} {ts rest : List Token}

section lists

variable {α : Type} {item : Parser α} {a : α} {as : List α} {close : TokenKind} {t : Token}
  {mid : List Token} {rounds : Nat}

theorem listUntil_done (h : ahead ts = some close) :
    listUntil close item (rounds + 1) eof ts = .ok ([], ts) := by
  rw [listUntil, peekKind_bind]
  simp only [h, ↓reduceIte]
  rfl

theorem listUntil_last (hts : ahead ts ≠ some close) (hitem : item eof ts = .ok (a, rest))
    (hrest : ahead rest ≠ some .comma) :
    listUntil close item (rounds + 1) eof ts = .ok ([a], rest) := by
  rw [listUntil, peekKind_bind]
  simp only [hts, ↓reduceIte]
  rw [bind_run hitem, bind_run (accept_of_ahead hrest)]
  rfl

theorem listUntil_more (hts : ahead ts ≠ some close) (hitem : item eof ts = .ok (a, t :: mid))
    (ht : t.kind = .comma) (hmore : listUntil close item rounds eof mid = .ok (as, rest)) :
    listUntil close item (rounds + 1) eof ts = .ok (a :: as, rest) := by
  rw [listUntil, peekKind_bind]
  simp only [hts, ↓reduceIte]
  rw [bind_run hitem, bind_run (accept_of_kind ht)]
  simp only [↓reduceIte]
  rw [bind_run hmore]
  rfl

end lists

theorem textTail_of_moreText {value : String} {span : Span} {e : Expr}
    (h : MoreText value span e ts rest) {rounds : Nat}
    (hrounds : ts.length < rounds + rest.length) :
    textTail rounds value span eof ts = .ok (e, rest) := by
  induction h generalizing rounds with
  | done hrest =>
      cases rounds with
      | zero => omega
      | succ rounds =>
          rw [textTail, bind_run (accept?_of_ahead hrest)]
          rfl
  | more ht hnext hmore ih =>
      have := hmore.length_le
      simp only [List.length_cons] at hrounds
      cases rounds with
      | zero => omega
      | succ rounds =>
          rw [textTail, bind_run (accept?_of_kind ht)]
          simp only [hnext]
          exact ih (by omega)

theorem compareOp?_of_derives {op : CompareOp} (h : op.Derives ts rest) :
    compareOp? eof ts = .ok (some op, rest) := by
  unfold compareOp?
  rw [peekKind_bind]
  cases h with
  | @sign t op rest ht =>
      rw [ahead_cons]
      cases hk : t.kind <;>
        simp only [hk, CompareOp.ofKind?, Option.some.injEq, reduceCtorEq] at ht <;>
        (subst ht; rfl)
  | notIn ht hu =>
      simp only [ahead_cons, ht]
      rw [bind_run skip_cons, bind_run (expect_of_kind hu)]
      rfl
  | isNot ht hu =>
      simp only [ahead_cons, ht]
      rw [bind_run skip_cons, bind_run (accept_of_kind hu)]
      rfl
  | is ht hrest =>
      simp only [ahead_cons, ht]
      rw [bind_run skip_cons, bind_run (accept_of_ahead hrest)]
      rfl

theorem compareOp?_of_ahead (h : ∀ kind ∈ ahead ts, kind.startsComparison = false) :
    compareOp? eof ts = .ok (none, ts) := by
  unfold compareOp?
  rw [peekKind_bind]
  cases hk : ahead ts with
  | none => rfl
  | some kind =>
      have hkind := h kind hk
      cases kind <;> first | rfl | cases hkind

section steps

-- What each parser does with a token, given what the parsers that it calls read.
variable {inner : Parser Expr} {innerAt : Nat → Parser Expr} {e value : Expr} {es : List Expr}
  {a : Argument} {as : List Argument} {latest : Option (Keyword Expr)} {left : Expr}
  {t u close : Token} {mid : List Token} {bound rounds power : Nat}

theorem operand_of_unary {op : UnaryOp} (ht : UnaryOp.ofKind? t.kind = some (op, power))
    (he : innerAt power eof ts = .ok (e, rest)) :
    operand innerAt bound eof (t :: ts) = .ok (.unary op e (t.span.through e.span), rest) := by
  rw [operand, peekKind_bind, ahead_cons]
  simp only [Option.bind_some, ht]
  rw [bind_run skip_cons, bind_run he]
  rfl

theorem operand_of_primary (h : UnaryOp.ofKind? t.kind = none) :
    operand innerAt bound eof (t :: ts) = primary (innerAt 0) bound eof (t :: ts) := by
  rw [operand, peekKind_bind, ahead_cons]
  simp only [Option.bind_some, h]

theorem primary_of_name (ht : t.kind = .ident) :
    primary inner bound eof (t :: ts) = .ok (.name t.ident, ts) := by
  rw [primary, bind_run next?_cons]
  simp only [ht]
  rfl

theorem primary_of_number {value : Int} (ht : t.kind = .int)
    (hvalue : Literal.integer? t.text = some value) :
    primary inner bound eof (t :: ts) = .ok (.number value t.span, ts) := by
  rw [primary, bind_run next?_cons]
  simp only [ht, hvalue]
  rfl

theorem primary_of_text {value : String} (ht : t.kind = .str)
    (hvalue : Literal.text t.text = .ok value) :
    primary inner bound eof (t :: ts) = textTail bound value t.span eof ts := by
  rw [primary, bind_run next?_cons]
  simp only [ht, hvalue]

theorem primary_of_unit (ht : t.kind = .lparen) (hclose : close.kind = .rparen) :
    primary inner bound eof (t :: close :: rest) =
      .ok (.tuple [] (t.span.through close.span), rest) := by
  rw [primary, bind_run next?_cons]
  simp only [ht]
  rw [parenthesized, bind_run (accept?_of_kind hclose)]
  rfl

theorem primary_of_parens (ht : t.kind = .lparen) (hts : ahead ts ≠ some .rparen)
    (he : exprList inner bound eof ts = .ok (e, close :: rest)) (hclose : close.kind = .rparen) :
    primary inner bound eof (t :: ts) = .ok (e.enclosed (t.span.through close.span), rest) := by
  rw [primary, bind_run next?_cons]
  simp only [ht]
  rw [parenthesized, bind_run (accept?_of_ahead hts)]
  dsimp only
  rw [bind_run he, bind_run (expect_of_kind hclose)]
  cases e <;> rfl

theorem primary_of_list (ht : t.kind = .lbracket)
    (hes : listUntil .rbracket inner bound eof ts = .ok (es, close :: rest))
    (hclose : close.kind = .rbracket) :
    primary inner bound eof (t :: ts) = .ok (.list es (t.span.through close.span), rest) := by
  rw [primary, bind_run next?_cons]
  simp only [ht]
  rw [bind_run hes, bind_run (expect_of_kind hclose)]
  rfl

theorem primary_of_dict {es : List (Expr × Expr)} (ht : t.kind = .lbrace)
    (hes : listUntil .rbrace (dictEntry inner) bound eof ts = .ok (es, close :: rest))
    (hclose : close.kind = .rbrace) :
    primary inner bound eof (t :: ts) = .ok (.dict es (t.span.through close.span), rest) := by
  rw [primary, bind_run next?_cons]
  simp only [ht]
  rw [bind_run hes, bind_run (expect_of_kind hclose)]
  rfl

theorem dictEntry_run {key : Expr} (hkey : inner eof ts = .ok (key, t :: mid))
    (ht : t.kind = .colon) (hvalue : inner eof mid = .ok (value, rest)) :
    dictEntry inner eof ts = .ok ((key, value), rest) := by
  rw [dictEntry, bind_run hkey, bind_run (expect_of_kind ht), bind_run hvalue]
  rfl

theorem exprList_single (he : inner eof ts = .ok (e, rest)) (hrest : ahead rest ≠ some .comma) :
    exprList inner bound eof ts = .ok (e, rest) := by
  rw [exprList, bind_run he, peekKind_bind]
  simp only [hrest, ↓reduceIte]
  rfl

theorem exprList_tuple (he : inner eof ts = .ok (e, mid)) (hmid : ahead mid = some .comma)
    (hes : exprListTail inner bound eof mid = .ok (es, rest)) :
    exprList inner bound eof ts =
      .ok (.tuple (e :: es) (e.span.through (es.getLastD e).span), rest) := by
  rw [exprList, bind_run he, peekKind_bind]
  simp only [hmid, ↓reduceIte]
  rw [bind_run hes]
  rfl

theorem exprListTail_done (h : ahead ts ≠ some .comma) :
    exprListTail inner (rounds + 1) eof ts = .ok ([], ts) := by
  rw [exprListTail, bind_run (accept_of_ahead h)]
  rfl

theorem exprListTail_comma (ht : t.kind = .comma) (hts : endsExprList ts = true) :
    exprListTail inner (rounds + 1) eof (t :: ts) = .ok ([], ts) := by
  rw [exprListTail, bind_run (accept_of_kind ht)]
  simp only [↓reduceIte]
  rw [atExprListEnd_bind]
  simp only [hts, ↓reduceIte]
  rfl

theorem exprListTail_more (ht : t.kind = .comma) (hts : endsExprList ts = false)
    (he : inner eof ts = .ok (e, mid)) (hes : exprListTail inner rounds eof mid = .ok (es, rest)) :
    exprListTail inner (rounds + 1) eof (t :: ts) = .ok (e :: es, rest) := by
  rw [exprListTail, bind_run (accept_of_kind ht)]
  simp only [↓reduceIte]
  rw [atExprListEnd_bind]
  simp only [hts, Bool.false_eq_true, ↓reduceIte]
  rw [bind_run he, bind_run hes]
  rfl

theorem argument_keyword (ht : t.kind = .ident) (hu : u.kind = .eq)
    (he : inner eof ts = .ok (e, rest)) :
    argument inner latest eof (t :: u :: ts) =
      .ok (.keyword ⟨t.ident, e, t.span.through e.span⟩, rest) := by
  unfold argument
  rw [atKeyword_bind]
  simp only [startsKeyword, ahead_cons, List.tail_cons, ht, hu, decide_true, Bool.and_self,
    ↓reduceIte]
  rw [bind_run (ident_of_kind ht), bind_run (expect_of_kind hu), bind_run he]
  rfl

theorem argument_positional (hts : startsKeyword ts = false) (he : inner eof ts = .ok (e, rest)) :
    argument inner none eof ts = .ok (.positional e, rest) := by
  unfold argument
  rw [atKeyword_bind]
  simp only [hts, Bool.false_eq_true, ↓reduceIte]
  rw [bind_run he]
  rfl

theorem arguments_done (h : ahead ts = some .rparen) :
    arguments inner (rounds + 1) latest eof ts = .ok ([], ts) := by
  rw [arguments, peekKind_bind]
  simp only [h, ↓reduceIte]
  rfl

theorem arguments_last (hts : ahead ts ≠ some .rparen)
    (ha : argument inner latest eof ts = .ok (a, rest)) (hrest : ahead rest ≠ some .comma) :
    arguments inner (rounds + 1) latest eof ts = .ok ([a], rest) := by
  rw [arguments, peekKind_bind]
  simp only [hts, ↓reduceIte]
  rw [bind_run ha, bind_run (accept_of_ahead hrest)]
  rfl

theorem arguments_more (hts : ahead ts ≠ some .rparen)
    (ha : argument inner latest eof ts = .ok (a, t :: mid)) (ht : t.kind = .comma)
    (has : arguments inner rounds (a.keyword? <|> latest) eof mid = .ok (as, rest)) :
    arguments inner (rounds + 1) latest eof ts = .ok (a :: as, rest) := by
  rw [arguments, peekKind_bind]
  simp only [hts, ↓reduceIte]
  rw [bind_run ha, bind_run (accept_of_kind ht)]
  simp only [↓reduceIte]
  rw [bind_run has]
  rfl

theorem trailer_member (ht : t.kind = .dot) (hu : u.kind = .ident) :
    trailer inner bound value eof (t :: u :: rest) =
      .ok (.member value u.ident (value.span.through u.span), rest) := by
  rw [trailer, bind_run (accept?_of_kind ht)]
  dsimp only
  rw [bind_run (ident_of_kind hu)]
  rfl

theorem trailer_subscript (ht : t.kind = .lbracket)
    (he : exprList inner bound eof ts = .ok (e, close :: rest)) (hclose : close.kind = .rbracket) :
    trailer inner bound value eof (t :: ts) =
      .ok (.subscript value e (value.span.through close.span), rest) := by
  rw [trailer, bind_run (accept?_of_ahead (by simp [ht]))]
  dsimp only
  rw [bind_run (accept?_of_kind ht)]
  dsimp only
  rw [bind_run he, bind_run (expect_of_kind hclose)]
  rfl

theorem trailer_call (ht : t.kind = .lparen)
    (has : arguments inner bound none eof ts = .ok (as, close :: rest))
    (hclose : close.kind = .rparen) :
    trailer inner bound value eof (t :: ts) =
      .ok (.call value (as.filterMap Argument.positional?) (as.filterMap Argument.keyword?)
        (value.span.through close.span), rest) := by
  rw [trailer, bind_run (accept?_of_ahead (by simp [ht]))]
  dsimp only
  rw [bind_run (accept?_of_ahead (by simp [ht]))]
  dsimp only
  rw [call, bind_run (expect_of_kind ht), bind_run has, bind_run (expect_of_kind hclose)]
  rfl

theorem comparisonLinks_done (h : ∀ kind ∈ ahead ts, kind.startsComparison = false) :
    comparisonLinks inner (rounds + 1) eof ts = .ok ([], ts) := by
  rw [comparisonLinks, bind_run (compareOp?_of_ahead h)]
  rfl

theorem comparisonLinks_more {op : CompareOp} {mid' : List Token} {more : List (CompareOp × Expr)}
    (hop : op.Derives ts mid) (he : inner eof mid = .ok (e, mid'))
    (hmore : comparisonLinks inner rounds eof mid' = .ok (more, rest)) :
    comparisonLinks inner (rounds + 1) eof ts = .ok ((op, e) :: more, rest) := by
  rw [comparisonLinks, bind_run (compareOp?_of_derives hop)]
  dsimp only
  rw [bind_run he, bind_run hmore]
  rfl

theorem operators_of_stops (h : Stops power ts) :
    operators innerAt bound power (rounds + 1) left eof ts = .ok (left, ts) := by
  rw [operators, peekKind_bind]
  cases hk : ahead ts with
  | none => rfl
  | some kind =>
      have hgrip : ∀ grip ∈ kind.grip?, grip < power := by simpa [Stops, hk] using h
      unfold TokenKind.grip? at hgrip
      cases htrailer : kind.startsTrailer with
      | true =>
          have hpower : Power.trailer < power := by simpa [htrailer] using hgrip
          simp only [htrailer, ↓reduceIte, hpower]
          rfl
      | false =>
          cases hcompare : kind.startsComparison with
          | true =>
              have hpower : Power.comparison.left < power := by
                simpa [htrailer, hcompare] using hgrip
              simp only [htrailer, hcompare, Bool.false_eq_true, ↓reduceIte, hpower]
              rfl
          | false =>
              cases hop : BinaryOp.ofKind? kind with
              | none =>
                  simp only [htrailer, hcompare, Bool.false_eq_true, ↓reduceIte, hop]
                  rfl
              | some op =>
                  have hpower : op.power.left < power := by
                    simpa [htrailer, hcompare, hop] using hgrip
                  simp only [htrailer, hcompare, Bool.false_eq_true, ↓reduceIte, hop, hpower]
                  rfl

theorem operators_trailer (hpower : power ≤ Power.trailer) {kind : TokenKind}
    (hkind : ahead ts = some kind) (htrailer : kind.startsTrailer = true)
    (hnext : trailer (innerAt 0) bound left eof ts = .ok (e, mid)) :
    operators innerAt bound power (rounds + 1) left eof ts =
      operators innerAt bound power rounds e eof mid := by
  rw [operators, peekKind_bind]
  simp only [hkind, htrailer, ↓reduceIte, Nat.not_lt.mpr hpower]
  rw [bind_run hnext]

theorem operators_compare (hpower : power ≤ Power.comparison.left) {kind : TokenKind}
    (hkind : ahead ts = some kind) (htrailer : kind.startsTrailer = false)
    (hcompare : kind.startsComparison = true) {more : List (CompareOp × Expr)}
    (hmore : comparisonLinks (innerAt Power.comparison.right) bound eof ts = .ok (more, mid)) :
    operators innerAt bound power (rounds + 1) left eof ts =
      operators innerAt bound power rounds (.compare left more
        (left.span.through ((more.getLast?.map (·.2)).getD left).span)) eof mid := by
  rw [operators, peekKind_bind]
  simp only [hkind, htrailer, hcompare, Bool.false_eq_true, ↓reduceIte, Nat.not_lt.mpr hpower]
  rw [comparison, bind_run (bind_run hmore _)]

theorem operators_binary {op : BinaryOp} (ht : BinaryOp.ofKind? t.kind = some op)
    (hpower : power ≤ op.power.left) (he : innerAt op.power.right eof ts = .ok (e, mid)) :
    operators innerAt bound power (rounds + 1) left eof (t :: ts) =
      operators innerAt bound power rounds (.binary op left e (left.span.through e.span)) eof
        mid := by
  obtain ⟨htrailer, hcompare⟩ := BinaryOp.starts_of_ofKind? ht
  rw [operators, peekKind_bind, ahead_cons]
  simp only [htrailer, hcompare, Bool.false_eq_true, ↓reduceIte, ht, Nat.not_lt.mpr hpower]
  rw [bind_run skip_cons, bind_run he]

end steps

end Parser

namespace Phrase

/-- The parser for the phrase reads it and leaves `rest`, if its bounds suffice. -/
def Reads : Phrase → List Token → List Token → Prop
  | expr power e, ts, rest => ∀ bound eof, ts.length < bound + rest.length →
      Parser.expr bound power eof ts = .ok (e, rest)
  | operand e, ts, rest => ∀ bound eof, ts.length ≤ bound + rest.length →
      Parser.operand (Parser.expr bound) bound eof ts = .ok (e, rest)
  | exprList e, ts, rest => ∀ bound eof, ts.length < bound + rest.length →
      Parser.exprList (Parser.expr bound 0) bound eof ts = .ok (e, rest)
  | moreExprs es, ts, rest => ∀ bound rounds eof, ts.length < bound + rest.length →
      ts.length < rounds + rest.length →
      Parser.exprListTail (Parser.expr bound 0) rounds eof ts = .ok (es, rest)
  | items close es, ts, rest => ∀ bound rounds eof, ts.length < bound + rest.length →
      ts.length < rounds + rest.length →
      Parser.listUntil close (Parser.expr bound 0) rounds eof ts = .ok (es, rest)
  | entries es, ts, rest => ∀ bound rounds eof, ts.length < bound + rest.length →
      ts.length < rounds + rest.length →
      Parser.listUntil .rbrace (Parser.dictEntry (Parser.expr bound 0)) rounds eof ts =
        .ok (es, rest)
  | argument latest a, ts, rest => ∀ bound eof, ts.length < bound + rest.length →
      Parser.argument (Parser.expr bound 0) latest eof ts = .ok (a, rest)
  | arguments latest as, ts, rest => ∀ bound rounds eof, ts.length < bound + rest.length →
      ts.length < rounds + rest.length →
      Parser.arguments (Parser.expr bound 0) rounds latest eof ts = .ok (as, rest)
  | trailer value e, ts, rest => ∀ bound eof, ts.length ≤ bound + rest.length →
      Parser.trailer (Parser.expr bound 0) bound value eof ts = .ok (e, rest)
  | links more, ts, rest => ∀ bound rounds eof, ts.length < bound + rest.length →
      ts.length < rounds + rest.length →
      Parser.comparisonLinks (Parser.expr bound Power.comparison.right) rounds eof ts =
        .ok (more, rest)
  | operators power left e, ts, rest => ∀ bound rounds eof, ts.length < bound + rest.length →
      ts.length < rounds + rest.length →
      Parser.operators (Parser.expr bound) bound power rounds left eof ts = .ok (e, rest)

theorem Derives.startsComparison {link : CompareOp × Expr} {more : List (CompareOp × Expr)}
    {ts rest : List Token} (h : (links (link :: more)).Derives ts rest) :
    ∃ kind, ahead ts = some kind ∧ kind.startsTrailer = false ∧ kind.startsComparison = true := by
  cases h with
  | linksMore hop _ _ => exact hop.startsComparison

open P16.Parser in
theorem Derives.reads {p : Phrase} {ts rest : List Token} (h : p.Derives ts rest) :
    p.Reads ts rest := by
  induction h with
  | expr hleft hops ihleft ihops =>
      intro bound eof hbound
      have := hleft.length_le
      have := hops.length_le
      simp only [least] at *
      cases bound with
      | zero => omega
      | succ bound =>
          rw [Parser.expr, bind_run (ihleft bound eof (by omega))]
          exact ihops bound bound eof (by omega) (by omega)
  | unary ht he ih =>
      intro bound eof hbound
      simp only [List.length_cons] at hbound
      exact operand_of_unary ht (ih bound eof (by omega))
  | name ht =>
      intro bound eof _
      rw [operand_of_primary (by rw [ht]; rfl)]
      exact primary_of_name ht
  | number ht hvalue =>
      intro bound eof _
      rw [operand_of_primary (by rw [ht]; rfl)]
      exact primary_of_number ht hvalue
  | text ht hvalue hmore =>
      intro bound eof hbound
      simp only [List.length_cons] at hbound
      rw [operand_of_primary (by rw [ht]; rfl), primary_of_text ht hvalue]
      exact textTail_of_moreText hmore (by omega)
  | unit ht hclose =>
      intro bound eof _
      rw [operand_of_primary (by rw [ht]; rfl)]
      exact primary_of_unit ht hclose
  | parens ht he hclose ih =>
      intro bound eof hbound
      simp only [Reads, List.length_cons] at hbound ih
      rw [operand_of_primary (by rw [ht]; rfl)]
      exact primary_of_parens ht (he.ahead_ne rfl rfl) (ih bound eof (by omega)) hclose
  | list ht _ hclose ih =>
      intro bound eof hbound
      simp only [Reads, List.length_cons] at hbound ih
      rw [operand_of_primary (by rw [ht]; rfl)]
      exact primary_of_list ht (ih bound bound eof (by omega) (by omega)) hclose
  | dict ht _ hclose ih =>
      intro bound eof hbound
      simp only [Reads, List.length_cons] at hbound ih
      rw [operand_of_primary (by rw [ht]; rfl)]
      exact primary_of_dict ht (ih bound bound eof (by omega) (by omega)) hclose
  | single _ hrest ih =>
      intro bound eof hbound
      exact exprList_single (ih bound eof hbound) hrest
  | tuple hfirst hmid hmore ihfirst ihmore =>
      intro bound eof hbound
      have := hfirst.length_le
      have := hmore.length_le
      simp only [least] at *
      exact exprList_tuple (ihfirst bound eof (by omega)) hmid
        (ihmore bound bound eof (by omega) (by omega))
  | exprsDone hrest =>
      intro bound rounds eof _ hrounds
      cases rounds with
      | zero => omega
      | succ rounds => exact exprListTail_done hrest
  | exprsComma ht hrest =>
      intro bound rounds eof _ hrounds
      simp only [List.length_cons] at hrounds
      cases rounds with
      | zero => omega
      | succ rounds => exact exprListTail_comma ht hrest
  | exprsMore ht hts he hes ihe ihes =>
      intro bound rounds eof hbound hrounds
      have := he.length_le
      have := hes.length_le
      simp only [List.length_cons, least] at *
      cases rounds with
      | zero => omega
      | succ rounds =>
          exact exprListTail_more ht hts (ihe bound eof (by omega))
            (ihes bound rounds eof (by omega) (by omega))
  | itemsDone hrest | entriesDone hrest =>
      intro bound rounds eof _ hrounds
      cases rounds with
      | zero => omega
      | succ rounds => exact listUntil_done hrest
  | itemsLast hts he hrest ih =>
      intro bound rounds eof hbound hrounds
      have := he.length_le
      cases rounds with
      | zero => omega
      | succ rounds => exact listUntil_last hts (ih bound eof hbound) hrest
  | itemsMore hts he ht hes ihe ihes =>
      intro bound rounds eof hbound hrounds
      have := he.length_le
      have := hes.length_le
      simp only [Reads, List.length_cons, least] at *
      cases rounds with
      | zero => omega
      | succ rounds =>
          exact listUntil_more hts (ihe bound eof (by omega)) ht
            (ihes bound rounds eof (by omega) (by omega))
  | entriesLast hts hkey hcolon hvalue hrest ihkey ihvalue =>
      intro bound rounds eof hbound hrounds
      have := hkey.length_le
      have := hvalue.length_le
      simp only [Reads, List.length_cons, least] at *
      have hentry :=
        dictEntry_run (ihkey bound eof (by omega)) hcolon (ihvalue bound eof (by omega))
      cases rounds with
      | zero => omega
      | succ rounds => exact listUntil_last hts hentry hrest
  | entriesMore hts hkey hcolon hvalue ht hes ihkey ihvalue ihes =>
      intro bound rounds eof hbound hrounds
      have := hkey.length_le
      have := hvalue.length_le
      have := hes.length_le
      simp only [Reads, List.length_cons, least] at *
      have hentry :=
        dictEntry_run (ihkey bound eof (by omega)) hcolon (ihvalue bound eof (by omega))
      cases rounds with
      | zero => omega
      | succ rounds =>
          exact listUntil_more hts hentry ht (ihes bound rounds eof (by omega) (by omega))
  | keyword ht hu hvalue ih =>
      intro bound eof hbound
      simp only [List.length_cons] at hbound
      exact argument_keyword ht hu (ih bound eof (by omega))
  | positional hts hvalue ih =>
      intro bound eof hbound
      exact argument_positional hts (ih bound eof hbound)
  | argumentsDone hrest =>
      intro bound rounds eof _ hrounds
      cases rounds with
      | zero => omega
      | succ rounds => exact arguments_done hrest
  | argumentsLast hts ha hrest ih =>
      intro bound rounds eof hbound hrounds
      have := ha.length_le
      cases rounds with
      | zero => omega
      | succ rounds => exact arguments_last hts (ih bound eof hbound) hrest
  | argumentsMore hts ha ht has iha ihas =>
      intro bound rounds eof hbound hrounds
      have := ha.length_le
      have := has.length_le
      simp only [Reads, List.length_cons, least] at *
      cases rounds with
      | zero => omega
      | succ rounds =>
          exact arguments_more hts (iha bound eof (by omega)) ht
            (ihas bound rounds eof (by omega) (by omega))
  | member ht hu => exact fun _ _ _ => trailer_member ht hu
  | subscript ht hindex hclose ih =>
      intro bound eof hbound
      simp only [Reads, List.length_cons] at hbound ih
      exact trailer_subscript ht (ih bound eof (by omega)) hclose
  | call ht hargs hclose ih =>
      intro bound eof hbound
      simp only [Reads, List.length_cons] at hbound ih
      exact trailer_call ht (ih bound bound eof (by omega) (by omega)) hclose
  | linksDone hrest =>
      intro bound rounds eof _ hrounds
      cases rounds with
      | zero => omega
      | succ rounds => exact comparisonLinks_done hrest
  | linksMore hop he hmore ihe ihmore =>
      intro bound rounds eof hbound hrounds
      have := hop.length_lt
      have := he.length_le
      have := hmore.length_le
      simp only [least] at *
      cases rounds with
      | zero => omega
      | succ rounds =>
          exact comparisonLinks_more hop (ihe bound eof (by omega))
            (ihmore bound rounds eof (by omega) (by omega))
  | operatorsDone hrest =>
      intro bound rounds eof _ hrounds
      cases rounds with
      | zero => omega
      | succ rounds => exact operators_of_stops hrest
  | operatorsTrailer hpower hnext hmore ihnext ihmore =>
      intro bound rounds eof hbound hrounds
      have := hnext.length_le
      have := hmore.length_le
      obtain ⟨kind, hkind, htrailer⟩ := hnext.startsTrailer
      simp only [least] at *
      cases rounds with
      | zero => omega
      | succ rounds =>
          rw [operators_trailer hpower hkind htrailer (ihnext bound eof (by omega))]
          exact ihmore bound rounds eof (by omega) (by omega)
  | operatorsCompare hpower hlinks hmore ihlinks ihmore =>
      intro bound rounds eof hbound hrounds
      have := hlinks.length_le
      have := hmore.length_le
      obtain ⟨kind, hkind, htrailer, hcompare⟩ := hlinks.startsComparison
      simp only [least] at *
      cases rounds with
      | zero => omega
      | succ rounds =>
          rw [operators_compare hpower hkind htrailer hcompare
            (ihlinks bound bound eof (by omega) (by omega))]
          exact ihmore bound rounds eof (by omega) (by omega)
  | operatorsBinary ht hpower hright hmore ihright ihmore =>
      intro bound rounds eof hbound hrounds
      have := hright.length_le
      have := hmore.length_le
      simp only [List.length_cons, least] at *
      cases rounds with
      | zero => omega
      | succ rounds =>
          rw [operators_binary ht hpower (ihright bound eof (by omega))]
          exact ihmore bound rounds eof (by omega) (by omega)

end Phrase

end P16
