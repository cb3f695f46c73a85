import P16.Proofs.ParserRuns

/-!
# Everything that is read is derived

Each parser is taken apart once: what it reads is derived by a rule of the grammar from what the
parsers inside it read.
-/

namespace P16.Parser

variable {α : Type}

/-- Whatever the parser reads is derived as its result. -/
def Sound (p : Parser α) (derives : α → List Token → List Token → Prop) : Prop :=
  ∀ eof ts a rest, p eof ts = .ok (a, rest) → derives a ts rest

theorem moreText_of_textTail {bound : Nat} {value : String} {span eof : Span} {e : Expr}
    {ts rest : List Token} (h : textTail bound value span eof ts = .ok (e, rest)) :
    MoreText value span e ts rest := by
  induction bound generalizing value span ts with
  | zero => exact absurd h tooDeep_ne_ok
  | succ bound ih =>
      rw [textTail] at h
      rcases accept?_bind_inv h with ⟨t, ts', rfl, ht, h⟩ | ⟨hts, h⟩
      · cases hnext : Literal.text t.text with
        | ok next =>
            simp only [hnext] at h
            exact .more ht hnext (ih h)
        | error fault =>
            simp only [hnext] at h
            cases h
      · cases h
        exact .done hts

theorem compareOp_of_run {eof : Span} {ts rest : List Token} {op? : Option CompareOp}
    (h : compareOp? eof ts = .ok (op?, rest)) :
    (∃ op, op? = some op ∧ op.Derives ts rest) ∨
      op? = none ∧ rest = ts ∧ ∀ kind ∈ ahead ts, kind.startsComparison = false := by
  unfold compareOp? at h
  rw [peekKind_bind] at h
  cases ts with
  | nil =>
      cases h
      exact .inr ⟨rfl, rfl, by simp⟩
  | cons t ts =>
      rw [ahead_cons] at h
      cases hk : t.kind with
      | kwNot =>
        simp only [hk] at h
        rw [bind_run skip_cons] at h
        obtain ⟨u, ts', rfl, hu, h⟩ := expect_bind_inv h
        cases h
        exact .inl ⟨_, rfl, .notIn hk hu⟩
      | kwIs =>
        simp only [hk] at h
        rw [bind_run skip_cons] at h
        rcases accept_bind_inv h with ⟨u, ts', rfl, hu, h⟩ | ⟨hts, h⟩
        · cases h
          exact .inl ⟨_, rfl, .isNot hk hu⟩
        · cases h
          exact .inl ⟨_, rfl, .is hk hts⟩
      | eqEq | notEq | lt | lte | gt | gte | kwIn =>
        simp only [hk] at h
        cases h
        exact .inl ⟨_, rfl, .sign (by rw [hk]; rfl)⟩
      | _ =>
        simp only [hk] at h
        cases h
        exact .inr ⟨rfl, rfl, by simp [hk, TokenKind.startsComparison]⟩

section expressions

variable {inner : Parser Expr} (h : inner.Sound fun e => (Phrase.expr 0 e).Derives)
include h

theorem sound_exprListTail (bound : Nat) :
    (exprListTail inner bound).Sound fun es => (Phrase.moreExprs es).Derives := by
  induction bound with
  | zero => exact fun _ _ _ _ hrun => absurd hrun tooDeep_ne_ok
  | succ bound ih =>
      intro eof ts es rest hrun
      rw [exprListTail] at hrun
      rcases accept_bind_inv hrun with ⟨t, ts', rfl, ht, hrun⟩ | ⟨hts, hrun⟩
      · simp only [↓reduceIte] at hrun
        rw [atExprListEnd_bind] at hrun
        cases hends : endsExprList ts' with
        | true =>
            simp only [hends, ↓reduceIte] at hrun
            cases hrun
            exact .exprsComma ht hends
        | false =>
            simp only [hends, Bool.false_eq_true, ↓reduceIte] at hrun
            obtain ⟨e, mid, he, hrun⟩ := bind_inv hrun
            obtain ⟨more, mid', hmore, hrun⟩ := bind_inv hrun
            cases hrun
            exact .exprsMore ht hends (h _ _ _ _ he) (ih _ _ _ _ hmore)
      · cases hrun
        exact .exprsDone hts

theorem sound_exprList (bound : Nat) :
    (exprList inner bound).Sound fun e => (Phrase.exprList e).Derives := by
  intro eof ts e rest hrun
  unfold exprList at hrun
  obtain ⟨first, mid, hfirst, hrun⟩ := bind_inv hrun
  rw [peekKind_bind] at hrun
  by_cases hcomma : ahead mid = some .comma
  · simp only [hcomma, ↓reduceIte] at hrun
    obtain ⟨more, mid', hmore, hrun⟩ := bind_inv hrun
    cases hrun
    exact .tuple (h _ _ _ _ hfirst) hcomma (sound_exprListTail h bound _ _ _ _ hmore)
  · simp only [hcomma, ↓reduceIte] at hrun
    cases hrun
    exact .single (h _ _ _ _ hfirst) hcomma

theorem sound_items (close : TokenKind) (bound : Nat) :
    (listUntil close inner bound).Sound fun es => (Phrase.items close es).Derives := by
  induction bound with
  | zero => exact fun _ _ _ _ hrun => absurd hrun tooDeep_ne_ok
  | succ bound ih =>
      intro eof ts es rest hrun
      rw [listUntil, peekKind_bind] at hrun
      by_cases hclose : ahead ts = some close
      · simp only [hclose, ↓reduceIte] at hrun
        cases hrun
        exact .itemsDone hclose
      · simp only [hclose, ↓reduceIte] at hrun
        obtain ⟨e, mid, he, hrun⟩ := bind_inv hrun
        have he := h _ _ _ _ he
        rcases accept_bind_inv hrun with ⟨t, mid, rfl, ht, hrun⟩ | ⟨hmid, hrun⟩
        · simp only [↓reduceIte] at hrun
          obtain ⟨more, mid', hmore, hrun⟩ := bind_inv hrun
          cases hrun
          exact .itemsMore hclose he ht (ih _ _ _ _ hmore)
        · cases hrun
          exact .itemsLast hclose he hmid

theorem sound_entries (bound : Nat) :
    (listUntil .rbrace (dictEntry inner) bound).Sound fun es => (Phrase.entries es).Derives := by
  induction bound with
  | zero => exact fun _ _ _ _ hrun => absurd hrun tooDeep_ne_ok
  | succ bound ih =>
      intro eof ts es rest hrun
      rw [listUntil, peekKind_bind] at hrun
      by_cases hclose : ahead ts = some .rbrace
      · simp only [hclose, ↓reduceIte] at hrun
        cases hrun
        exact .entriesDone hclose
      · simp only [hclose, ↓reduceIte] at hrun
        obtain ⟨e, mid, hentry, hrun⟩ := bind_inv hrun
        obtain ⟨key, mid', hkey, hentry⟩ := bind_inv hentry
        obtain ⟨colon, mid', rfl, hcolon, hentry⟩ := expect_bind_inv hentry
        obtain ⟨value, mid'', hvalue, hentry⟩ := bind_inv hentry
        cases hentry
        have hkey := h _ _ _ _ hkey
        have hvalue := h _ _ _ _ hvalue
        rcases accept_bind_inv hrun with ⟨t, mid, rfl, ht, hrun⟩ | ⟨hmid, hrun⟩
        · simp only [↓reduceIte] at hrun
          obtain ⟨more, mid', hmore, hrun⟩ := bind_inv hrun
          cases hrun
          exact .entriesMore hclose hkey hcolon hvalue ht (ih _ _ _ _ hmore)
        · cases hrun
          exact .entriesLast hclose hkey hcolon hvalue hmid

theorem sound_parenthesized {bound : Nat} {eof : Span} {t : Token} {ts rest : List Token} {e : Expr}
    (ht : t.kind = .lparen) (hrun : parenthesized inner bound t.span eof ts = .ok (e, rest)) :
    (Phrase.operand e).Derives (t :: ts) rest := by
  unfold parenthesized at hrun
  rcases accept?_bind_inv hrun with ⟨close, ts', rfl, hclose, hrun⟩ | ⟨-, hrun⟩
  · cases hrun
    exact .unit ht hclose
  · obtain ⟨inner', mid, hinner, hrun⟩ := bind_inv hrun
    obtain ⟨close, mid, rfl, hclose, hrun⟩ := expect_bind_inv hrun
    have hparens := Phrase.Derives.parens ht (sound_exprList h bound _ _ _ _ hinner) hclose
    cases inner' <;> (cases hrun; exact hparens)

theorem sound_primary (bound : Nat) :
    (primary inner bound).Sound fun e => (Phrase.operand e).Derives := by
  intro eof ts e rest hrun
  unfold primary at hrun
  cases ts with
  | nil => cases hrun
  | cons t ts =>
      rw [bind_run next?_cons] at hrun
      dsimp only at hrun
      cases hk : t.kind with
      | ident =>
          simp only [hk] at hrun
          cases hrun
          exact .name hk
      | int =>
          simp only [hk] at hrun
          cases hvalue : Literal.integer? t.text with
          | none =>
              simp only [hvalue] at hrun
              cases hrun
          | some value =>
              simp only [hvalue] at hrun
              cases hrun
              exact .number hk hvalue
      | str =>
          simp only [hk] at hrun
          cases hvalue : Literal.text t.text with
          | error fault =>
              simp only [hvalue] at hrun
              cases hrun
          | ok value =>
              simp only [hvalue] at hrun
              exact .text hk hvalue (moreText_of_textTail hrun)
      | lparen =>
          simp only [hk] at hrun
          exact sound_parenthesized h hk hrun
      | lbracket =>
          simp only [hk] at hrun
          obtain ⟨items, mid, hitems, hrun⟩ := bind_inv hrun
          obtain ⟨close, mid, rfl, hclose, hrun⟩ := expect_bind_inv hrun
          cases hrun
          exact .list hk (sound_items h _ _ _ _ _ _ hitems) hclose
      | lbrace =>
          simp only [hk] at hrun
          obtain ⟨entries, mid, hentries, hrun⟩ := bind_inv hrun
          obtain ⟨close, mid, rfl, hclose, hrun⟩ := expect_bind_inv hrun
          cases hrun
          exact .dict hk (sound_entries h _ _ _ _ _ hentries) hclose
      | _ =>
          simp only [hk] at hrun
          cases hrun

theorem sound_argument (latest : Option (Keyword Expr)) :
    (argument inner latest).Sound fun a => (Phrase.argument latest a).Derives := by
  intro eof ts a rest hrun
  unfold argument at hrun
  rw [atKeyword_bind] at hrun
  cases hts : startsKeyword ts with
  | true =>
      simp only [hts, ↓reduceIte] at hrun
      obtain ⟨t, mid, rfl, ht, hrun⟩ := ident_bind_inv hrun
      obtain ⟨u, mid, rfl, hu, hrun⟩ := expect_bind_inv hrun
      obtain ⟨value, mid', hvalue, hrun⟩ := bind_inv hrun
      cases hrun
      exact .keyword ht hu (h _ _ _ _ hvalue)
  | false =>
      simp only [hts, Bool.false_eq_true, ↓reduceIte] at hrun
      cases latest with
      | some k => cases hrun
      | none =>
          obtain ⟨value, mid, hvalue, hrun⟩ := bind_inv hrun
          cases hrun
          exact .positional hts (h _ _ _ _ hvalue)

theorem sound_arguments (bound : Nat) (latest : Option (Keyword Expr)) :
    (arguments inner bound latest).Sound fun as => (Phrase.arguments latest as).Derives := by
  induction bound generalizing latest with
  | zero => exact fun _ _ _ _ hrun => absurd hrun tooDeep_ne_ok
  | succ bound ih =>
      intro eof ts as rest hrun
      rw [arguments, peekKind_bind] at hrun
      by_cases hclose : ahead ts = some .rparen
      · simp only [hclose, ↓reduceIte] at hrun
        cases hrun
        exact .argumentsDone hclose
      · simp only [hclose, ↓reduceIte] at hrun
        obtain ⟨a, mid, ha, hrun⟩ := bind_inv hrun
        have ha := sound_argument h latest _ _ _ _ ha
        rcases accept_bind_inv hrun with ⟨t, mid, rfl, ht, hrun⟩ | ⟨hmid, hrun⟩
        · simp only [↓reduceIte] at hrun
          obtain ⟨more, mid', hmore, hrun⟩ := bind_inv hrun
          cases hrun
          exact .argumentsMore hclose ha ht (ih _ _ _ _ _ hmore)
        · cases hrun
          exact .argumentsLast hclose ha hmid

theorem sound_trailer (bound : Nat) (value : Expr) :
    (trailer inner bound value).Sound fun e => (Phrase.trailer value e).Derives := by
  intro eof ts e rest hrun
  unfold trailer at hrun
  rcases accept?_bind_inv hrun with ⟨t, mid, rfl, ht, hrun⟩ | ⟨-, hrun⟩
  · obtain ⟨u, mid, rfl, hu, hrun⟩ := ident_bind_inv hrun
    cases hrun
    exact .member ht hu
  rcases accept?_bind_inv hrun with ⟨t, mid, rfl, ht, hrun⟩ | ⟨-, hrun⟩
  · obtain ⟨index, mid', hindex, hrun⟩ := bind_inv hrun
    obtain ⟨close, mid', rfl, hclose, hrun⟩ := expect_bind_inv hrun
    cases hrun
    exact .subscript ht (sound_exprList h bound _ _ _ _ hindex) hclose
  · obtain ⟨t, mid, rfl, ht, hrun⟩ := expect_bind_inv hrun
    obtain ⟨args, mid', hargs, hrun⟩ := bind_inv hrun
    obtain ⟨close, mid', rfl, hclose, hrun⟩ := expect_bind_inv hrun
    cases hrun
    exact .call ht (sound_arguments h bound none _ _ _ _ hargs) hclose

end expressions

theorem sound_links {inner : Parser Expr}
    (h : inner.Sound fun e => (Phrase.expr Power.comparison.right e).Derives) (bound : Nat) :
    (comparisonLinks inner bound).Sound fun ls => (Phrase.links ls).Derives := by
  induction bound with
  | zero => exact fun _ _ _ _ hrun => absurd hrun tooDeep_ne_ok
  | succ bound ih =>
      intro eof ts links rest hrun
      rw [comparisonLinks] at hrun
      obtain ⟨op?, mid, hread, hnext⟩ := bind_inv hrun
      rcases compareOp_of_run hread with ⟨op, rfl, hop⟩ | ⟨rfl, rfl, hts⟩
      · obtain ⟨right, mid', hright, hrun⟩ := bind_inv hnext
        obtain ⟨more, mid'', hmore, hrun⟩ := bind_inv hrun
        cases hrun
        exact .linksMore hop (h _ _ _ _ hright) (ih _ _ _ _ hmore)
      · cases hnext
        exact .linksDone hts

section powers

variable {inner : Nat → Parser Expr}
  (h : ∀ power, (inner power).Sound fun e => (Phrase.expr power e).Derives)
include h

theorem sound_operand (bound : Nat) :
    (operand inner bound).Sound fun e => (Phrase.operand e).Derives := by
  intro eof ts e rest hrun
  unfold operand at hrun
  rw [peekKind_bind] at hrun
  cases hop : (ahead ts).bind UnaryOp.ofKind? with
  | none =>
      simp only [hop] at hrun
      exact sound_primary (h 0) bound _ _ _ _ hrun
  | some found =>
      obtain ⟨op, power⟩ := found
      simp only [hop] at hrun
      cases ts with
      | nil => cases hop
      | cons t ts =>
          rw [bind_run skip_cons] at hrun
          obtain ⟨e, mid, he, hrun⟩ := bind_inv hrun
          cases hrun
          exact .unary hop (h _ _ _ _ _ he)

/-- A comparison begins with an operator, so its chain is not empty. -/
theorem sound_comparison {bound : Nat} {eof : Span} {left e : Expr} {t : Token}
    {ts rest : List Token} (ht : t.kind.startsComparison)
    (hrun : comparison (inner Power.comparison.right) bound left eof (t :: ts) = .ok (e, rest)) :
    ∃ link more, (Phrase.links (link :: more)).Derives (t :: ts) rest ∧
      e = .compare left (link :: more)
        (left.span.through (((link :: more).getLast?.map (·.2)).getD left).span) := by
  obtain ⟨links, mid, hlinks, hrun⟩ := bind_inv hrun
  cases hrun
  have hlinks := sound_links (h _) bound _ _ _ _ hlinks
  cases links with
  | nil =>
      cases hlinks with
      | linksDone hrest => simp [ht] at hrest
  | cons link more => exact ⟨link, more, hlinks, rfl⟩

theorem sound_operators (bound power rounds : Nat) (left : Expr) :
    (operators inner bound power rounds left).Sound fun e =>
      (Phrase.operators power left e).Derives := by
  induction rounds generalizing left with
  | zero => exact fun _ _ _ _ hrun => absurd hrun tooDeep_ne_ok
  | succ rounds ih =>
      intro eof ts e rest hrun
      rw [operators, peekKind_bind] at hrun
      cases ts with
      | nil =>
          cases hrun
          exact .operatorsDone (by simp [Stops])
      | cons t ts =>
          simp only [ahead_cons] at hrun
          by_cases htrailer : t.kind.startsTrailer
          · simp only [htrailer, ↓reduceIte] at hrun
            by_cases hpower : Power.trailer < power
            · simp only [hpower, ↓reduceIte] at hrun
              cases hrun
              exact .operatorsDone (by simp [Stops, TokenKind.grip?, htrailer, hpower])
            · simp only [hpower, ↓reduceIte] at hrun
              obtain ⟨next, mid, hnext, hrun⟩ := bind_inv hrun
              exact .operatorsTrailer (by omega) (sound_trailer (h 0) bound left _ _ _ _ hnext)
                (ih _ _ _ _ _ hrun)
          by_cases hcompare : t.kind.startsComparison
          · simp only [htrailer, hcompare, Bool.false_eq_true, ↓reduceIte] at hrun
            by_cases hpower : Power.comparison.left < power
            · simp only [hpower, ↓reduceIte] at hrun
              cases hrun
              exact .operatorsDone (by simp [Stops, TokenKind.grip?, htrailer, hcompare, hpower])
            · simp only [hpower, ↓reduceIte] at hrun
              obtain ⟨next, mid, hnext, hrun⟩ := bind_inv hrun
              obtain ⟨link, more, hlinks, rfl⟩ := sound_comparison h hcompare hnext
              exact .operatorsCompare (by omega) hlinks (ih _ _ _ _ _ hrun)
          simp only [htrailer, hcompare, Bool.false_eq_true, ↓reduceIte] at hrun
          cases hop : BinaryOp.ofKind? t.kind with
          | none =>
              simp only [hop] at hrun
              cases hrun
              exact .operatorsDone (by simp [Stops, TokenKind.grip?, htrailer, hcompare, hop])
          | some op =>
              simp only [hop] at hrun
              by_cases hpower : op.power.left < power
              · simp only [hpower, ↓reduceIte] at hrun
                cases hrun
                exact .operatorsDone
                  (by simp [Stops, TokenKind.grip?, htrailer, hcompare, hop, hpower])
              · simp only [hpower, ↓reduceIte] at hrun
                rw [bind_run skip_cons] at hrun
                obtain ⟨right, mid, hright, hrun⟩ := bind_inv hrun
                exact .operatorsBinary hop (by omega) (h _ _ _ _ _ hright) (ih _ _ _ _ _ hrun)

end powers

theorem sound_expr (bound power : Nat) :
    (expr bound power).Sound fun e => (Phrase.expr power e).Derives := by
  induction bound generalizing power with
  | zero => exact fun _ _ _ _ hrun => absurd hrun tooDeep_ne_ok
  | succ bound ih =>
      intro eof ts e rest hrun
      obtain ⟨left, mid, hleft, hrun⟩ := bind_inv hrun
      exact .expr (sound_operand ih bound _ _ _ _ hleft)
        (sound_operators ih bound power bound left _ _ _ _ hrun)

end P16.Parser
