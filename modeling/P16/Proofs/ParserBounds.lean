import P16.Proofs.ReadTokens

/-!
# Bounds make no difference

Every parser that goes down a level or round a loop has read a token before, so a bound above the
number of tokens that are left is as good as any other. `Alike` compares the runs of a parser under
two bounds. It also follows the faults: none is a bound that is used up, and each is reported at a
token, at the end of the input, or at a span that begins with a token. The last is put as a property
`P` of spans that holds of the tokens and of the end and is kept when a span is made longer.
-/

namespace P16.Parser

variable {α β : Type} {P : Span → Prop} {n : Nat} {eof : Span} {ts mid : List Token}
  {kind : TokenKind}

/-- What is still to be read: fewer than `n` tokens. `P` holds of their places and of the end. -/
structure Input (P : Span → Prop) (n : Nat) (eof : Span) (ts : List Token) : Prop where
  length_lt : ts.length < n
  eof : P eof
  tokens : ∀ t ∈ ts, P t.span

theorem Input.suffix (h : Input P n eof ts) (hmid : mid <:+ ts) : Input P n eof mid :=
  ⟨Nat.lt_of_le_of_lt hmid.length_le h.length_lt, h.eof, fun t ht => h.tokens t (hmid.subset ht)⟩

theorem Input.shorter (h : Input P (n + 1) eof ts) (hmid : mid <:+ ts)
    (hlength : mid.length < ts.length) : Input P n eof mid :=
  ⟨Nat.lt_of_lt_of_le hlength (Nat.le_of_lt_succ h.length_lt), h.eof, (h.suffix hmid).tokens⟩

theorem Input.tail {t : Token} (h : Input P (n + 1) eof (t :: ts)) : Input P n eof ts :=
  h.shorter (List.suffix_cons t ts) (Nat.lt_succ_self _)

theorem Input.rest {t : Token} (h : Input P n eof (t :: ts)) : Input P n eof ts :=
  h.suffix (List.suffix_cons t ts)

theorem Input.head {t : Token} (h : Input P n eof (t :: ts)) : P t.span :=
  h.tokens t List.mem_cons_self

/-- Both parsers do the same here. A fault is one of the input and no bound that is used up, and `P`
holds of its place. -/
structure Alike (P : Span → Prop) (eof : Span) (ts : List Token) (p q : Parser α) : Prop where
  eq : p eof ts = q eof ts
  fault : ∀ e, p eof ts = .error e → e.cause ≠ .tooDeep ∧ P e.span

/-- The parsers do the same on fewer than `n` tokens. -/
def AlikeBelow (P : Span → Prop) (n : Nat) (p q : Parser α) : Prop :=
  ∀ eof ts, Input P n eof ts → Alike P eof ts p q

namespace Alike

theorem of_ok {p : Parser α} {r : α × List Token} (h : p eof ts = .ok r) : Alike P eof ts p p :=
  ⟨rfl, fun e he => by rw [h] at he; cases he⟩

/-- Both parsers take the same step. -/
theorem step {p q p' q' : Parser α} (hp : p eof ts = p' eof mid) (hq : q eof ts = q' eof mid)
    (h : Alike P eof mid p' q') : Alike P eof ts p q :=
  ⟨by rw [hp, hq, h.eq], fun e he => h.fault e (hp ▸ he)⟩

theorem failAt {cause : ParseError.Cause} {span : Span} (hcause : cause ≠ .tooDeep)
    (hspan : P span) :
    Alike P eof ts (Parser.failAt span cause : Parser α) (Parser.failAt span cause) := by
  refine ⟨rfl, fun e he => ?_⟩
  cases he
  exact ⟨hcause, hspan⟩

theorem failHere {cause : ParseError.Cause} (hcause : cause ≠ .tooDeep) (h : Input P n eof ts) :
    Alike P eof ts (Parser.failHere cause : Parser α) (Parser.failHere cause) := by
  refine ⟨rfl, fun e he => ?_⟩
  cases ts with
  | nil =>
      cases he
      exact ⟨hcause, h.eof⟩
  | cons t ts =>
      cases he
      exact ⟨hcause, h.head⟩

theorem bind {p q : Parser α} {f g : α → Parser β} (h : Alike P eof ts p q)
    (hnext : ∀ a mid, p eof ts = .ok (a, mid) → Alike P eof mid (f a) (g a)) :
    Alike P eof ts (p >>= f) (q >>= g) := by
  cases hp : p eof ts with
  | ok r =>
      obtain ⟨a, mid⟩ := r
      exact (hnext a mid hp).step (bind_run hp f) (bind_run (h.eq ▸ hp) g)
  | error e =>
      have hbind {r : Parser α} {k : α → Parser β} (hr : r eof ts = .error e) :
          (r >>= k) eof ts = .error e := by
        change (r eof ts >>= fun a => k a.1 eof a.2) = .error e
        rw [hr]
        rfl
      refine ⟨by rw [hbind hp, hbind (h.eq ▸ hp)], fun e' he' => ?_⟩
      rw [hbind hp] at he'
      cases he'
      exact h.fault e hp

theorem accept? {f g : Option Token → Parser β}
    (hthere : ∀ t mid, ts = t :: mid → t.kind = kind → Alike P eof mid (f (some t)) (g (some t)))
    (hother : ahead ts ≠ some kind → Alike P eof ts (f none) (g none)) :
    Alike P eof ts (Parser.accept? kind >>= f) (Parser.accept? kind >>= g) := by
  rcases ahead_cases kind ts with ⟨t, mid, rfl, ht⟩ | hts
  · exact (hthere t mid rfl ht).step (bind_run (accept?_of_kind ht) f)
      (bind_run (accept?_of_kind ht) g)
  · exact (hother hts).step (bind_run (accept?_of_ahead hts) f) (bind_run (accept?_of_ahead hts) g)

theorem accept {f g : Bool → Parser β}
    (hthere : ∀ t mid, ts = t :: mid → t.kind = kind → Alike P eof mid (f true) (g true))
    (hother : ahead ts ≠ some kind → Alike P eof ts (f false) (g false)) :
    Alike P eof ts (Parser.accept kind >>= f) (Parser.accept kind >>= g) := by
  rcases ahead_cases kind ts with ⟨t, mid, rfl, ht⟩ | hts
  · exact (hthere t mid rfl ht).step (bind_run (accept_of_kind ht) f)
      (bind_run (accept_of_kind ht) g)
  · exact (hother hts).step (bind_run (accept_of_ahead hts) f) (bind_run (accept_of_ahead hts) g)

theorem ifAccept {a a' b b' : Parser β}
    (hthere : ∀ t mid, ts = t :: mid → t.kind = kind → Alike P eof mid a a')
    (hother : Alike P eof ts b b') :
    Alike P eof ts (do if ← Parser.accept kind then a else b)
      (do if ← Parser.accept kind then a' else b') :=
  accept hthere fun _ => hother

theorem missing (h : Input P n eof ts) {cause : TokenKind → ParseError.Cause}
    (hcause : ∀ found, cause found ≠ .tooDeep) :
    Alike P eof ts
      (peekKind >>= fun
        | some found => Parser.failHere (cause found)
        | none => Parser.failHere .unexpectedEnd : Parser α)
      (peekKind >>= fun
        | some found => Parser.failHere (cause found)
        | none => Parser.failHere .unexpectedEnd) := by
  refine step (peekKind_bind _) (peekKind_bind _) ?_
  cases ahead ts with
  | some found => exact failHere (hcause found) h
  | none => exact failHere (by decide) h

theorem expect (h : Input P n eof ts) {f g : Token → Parser β}
    (hnext : ∀ t mid, ts = t :: mid → t.kind = kind → Alike P eof mid (f t) (g t)) :
    Alike P eof ts (Parser.expect kind >>= f) (Parser.expect kind >>= g) := by
  have hexpect : Alike P eof ts (Parser.expect kind) (Parser.expect kind) := by
    refine accept? (fun t mid _ _ => of_ok rfl) fun _ => missing h (by simp)
  refine hexpect.bind fun t mid hrun => ?_
  rw [← bind_pure (Parser.expect kind)] at hrun
  obtain ⟨t, mid, rfl, ht, hrun⟩ := expect_bind_inv hrun
  cases hrun
  exact hnext t mid rfl ht

theorem ident (h : Input P n eof ts) {f g : Ident → Parser β}
    (hnext : ∀ t mid, ts = t :: mid → t.kind = .ident → Alike P eof mid (f t.ident) (g t.ident)) :
    Alike P eof ts (Parser.ident >>= f) (Parser.ident >>= g) := by
  have hident : Alike P eof ts Parser.ident Parser.ident := by
    refine accept? (fun t mid _ _ => of_ok rfl) fun _ => missing h (by simp)
  refine hident.bind fun x mid hrun => ?_
  obtain ⟨t, rfl, ht, rfl⟩ := ident_inv hrun
  exact hnext t mid rfl ht

theorem here {f g : Span → Parser β} (hnext : ∀ start, Alike P eof ts (f start) (g start)) :
    Alike P eof ts (Parser.here >>= f) (Parser.here >>= g) := by
  cases ts with
  | nil => exact (hnext eof).step (bind_run rfl f) (bind_run rfl g)
  | cons t ts => exact (hnext t.span).step (bind_run rfl f) (bind_run rfl g)

end Alike

/-- One round of a repetition is compared for both bounds, and the later rounds have fewer tokens
left. -/
theorem rounds_induction {motive : Nat → Nat → List Token → Prop}
    (round : ∀ rounds rounds' ts, (∀ mid, mid.length < ts.length → motive rounds rounds' mid) →
      motive (rounds + 1) (rounds' + 1) ts) {rounds rounds' : Nat} {ts : List Token}
    (hr : ts.length < rounds) (hr' : ts.length < rounds') : motive rounds rounds' ts := by
  induction rounds generalizing rounds' ts with
  | zero => exact absurd hr (Nat.not_lt_zero _)
  | succ rounds ih =>
      cases rounds' with
      | zero => exact absurd hr' (Nat.not_lt_zero _)
      | succ rounds' =>
          exact round rounds rounds' ts fun mid hmid => ih (by omega) (by omega)

/-- One level of nesting is compared for both bounds, and the levels below it have fewer tokens
left. -/
theorem levels_induction {motive : Nat → Nat → Nat → Prop}
    (none : ∀ bound bound', motive 0 bound bound')
    (level : ∀ n bound bound', n ≤ bound → n ≤ bound' → motive n bound bound' →
      motive (n + 1) (bound + 1) (bound' + 1)) {bound bound' : Nat} (hb : n ≤ bound)
    (hb' : n ≤ bound') : motive n bound bound' := by
  induction n generalizing bound bound' with
  | zero => exact none bound bound'
  | succ n ih =>
      obtain ⟨bound, rfl⟩ := Nat.exists_eq_add_of_le' (Nat.lt_of_lt_of_le n.succ_pos hb)
      obtain ⟨bound', rfl⟩ := Nat.exists_eq_add_of_le' (Nat.lt_of_lt_of_le n.succ_pos hb')
      have hb := Nat.le_of_succ_le_succ hb
      have hb' := Nat.le_of_succ_le_succ hb'
      exact level n bound bound' hb hb' (ih hb hb')

theorem alikeBelow_zero {p q : Parser α} : AlikeBelow P 0 p q :=
  fun _ _ hts => absurd hts.length_lt (Nat.not_lt_zero _)

section repetitions

variable {item item' : Parser α} {rounds rounds' : Nat} (h : AlikeBelow P n item item')
  (hitem : ∀ eof ts a rest, item eof ts = .ok (a, rest) → rest <:+ ts)
include h hitem

theorem alike_listUntil {close : TokenKind} (hts : Input P n eof ts) (hr : ts.length < rounds)
    (hr' : ts.length < rounds') :
    Alike P eof ts (listUntil close item rounds) (listUntil close item' rounds') := by
  refine rounds_induction (motive := fun r r' ts => Input P n eof ts →
    Alike P eof ts (listUntil close item r) (listUntil close item' r'))
    (fun rounds rounds' ts ih hts => ?_) hr hr' hts
  rw [listUntil, listUntil]
  refine .step (peekKind_bind _) (peekKind_bind _) ?_
  split
  · exact .of_ok rfl
  · refine (h eof ts hts).bind fun a mid hrun => ?_
    have hmid := hitem eof ts a mid hrun
    refine .ifAccept (fun t mid hcomma _ => ?_) (.of_ok rfl)
    subst hcomma
    exact (ih mid hmid.length_le (hts.suffix (suffix_of_cons_suffix hmid))).bind
      fun _ _ _ => .of_ok rfl

theorem alike_listOf (hts : Input P n eof ts) (hr : ts.length < rounds)
    (hr' : ts.length < rounds') :
    Alike P eof ts (listOf item rounds) (listOf item' rounds') := by
  refine rounds_induction (motive := fun r r' ts => Input P n eof ts →
    Alike P eof ts (listOf item r) (listOf item' r'))
    (fun rounds rounds' ts ih hts => ?_) hr hr' hts
  rw [listOf, listOf]
  refine (h eof ts hts).bind fun a mid hrun => ?_
  have hmid := hitem eof ts a mid hrun
  refine .ifAccept (fun t mid hcomma _ => ?_) (.of_ok rfl)
  subst hcomma
  exact (ih mid hmid.length_le (hts.suffix (suffix_of_cons_suffix hmid))).bind
    fun _ _ _ => .of_ok rfl

end repetitions

section expressions

variable {inner inner' : Parser Expr} {bound bound' : Nat} (h : AlikeBelow P n inner inner')
  (hs : inner.Sound fun e => (Phrase.expr 0 e).Derives)
include h hs

theorem alike_exprListTail {rounds rounds' : Nat} (hts : Input P n eof ts)
    (hr : ts.length < rounds) (hr' : ts.length < rounds') :
    Alike P eof ts (exprListTail inner rounds) (exprListTail inner' rounds') := by
  refine rounds_induction (motive := fun r r' ts => Input P n eof ts →
    Alike P eof ts (exprListTail inner r) (exprListTail inner' r'))
    (fun rounds rounds' ts ih hts => ?_) hr hr' hts
  rw [exprListTail, exprListTail]
  refine .ifAccept (fun t ts' hcomma _ => ?_) (.of_ok rfl)
  subst hcomma
  refine .step (atExprListEnd_bind _) (atExprListEnd_bind _) ?_
  split
  · exact .of_ok rfl
  · refine (h eof ts' hts.rest).bind fun e mid hrun => ?_
    have hmid := (hs eof ts' e mid hrun).suffix
    exact (ih mid (Nat.lt_succ_of_le hmid.length_le) (hts.rest.suffix hmid)).bind
      fun _ _ _ => .of_ok rfl

theorem alike_exprList (hts : Input P n eof ts) (hb : n ≤ bound) (hb' : n ≤ bound') :
    Alike P eof ts (exprList inner bound) (exprList inner' bound') := by
  refine (h eof ts hts).bind fun e mid hrun => ?_
  refine .step (peekKind_bind _) (peekKind_bind _) ?_
  split
  · have hmid := hts.suffix (hs eof ts e mid hrun).suffix
    have hlength := hmid.length_lt
    exact (alike_exprListTail h hs hmid (by omega) (by omega)).bind fun _ _ _ => .of_ok rfl
  · exact .of_ok rfl

omit h hs in
theorem alike_textTail {rounds rounds' : Nat} {value : String} {span : Span}
    (hts : Input P n eof ts) (hr : ts.length < rounds) (hr' : ts.length < rounds') :
    Alike P eof ts (textTail rounds value span) (textTail rounds' value span) := by
  refine rounds_induction (motive := fun r r' ts => ∀ value span, Input P n eof ts →
    Alike P eof ts (textTail r value span) (textTail r' value span))
    (fun rounds rounds' ts ih value span hts => ?_) hr hr' value span hts
  rw [textTail, textTail]
  refine .accept? (fun t ts' htext _ => ?_) fun _ => .of_ok rfl
  subst htext
  dsimp only
  split
  · exact ih ts' (Nat.lt_succ_self _) _ _ hts.rest
  · exact .failAt (by simp) hts.head

theorem alike_parenthesized {start : Span} (hts : Input P n eof ts) (hb : n ≤ bound)
    (hb' : n ≤ bound') :
    Alike P eof ts (parenthesized inner bound start) (parenthesized inner' bound' start) := by
  refine .accept? (fun _ _ _ _ => .of_ok rfl) fun _ => ?_
  refine (alike_exprList h hs hts hb hb').bind fun e mid hrun => ?_
  have hmid := hts.suffix (sound_exprList hs bound eof ts e mid hrun).suffix
  refine .expect hmid fun t mid _ _ => ?_
  split <;> exact .of_ok rfl

theorem alike_dictEntry (hts : Input P n eof ts) :
    Alike P eof ts (dictEntry inner) (dictEntry inner') := by
  refine (h eof ts hts).bind fun key mid hrun => ?_
  have hmid := hts.suffix (hs eof ts key mid hrun).suffix
  refine .expect hmid fun t mid' hcolon _ => ?_
  subst hcolon
  exact (h eof mid' hmid.rest).bind fun _ _ _ => .of_ok rfl

omit h in
theorem suffix_of_dictEntry {ts rest : List Token} {entry : Expr × Expr}
    (hrun : dictEntry inner eof ts = .ok (entry, rest)) : rest <:+ ts := by
  obtain ⟨key, mid, hkey, hrun⟩ := bind_inv hrun
  obtain ⟨colon, mid, rfl, -, hrun⟩ := expect_bind_inv hrun
  obtain ⟨value, mid', hvalue, hrun⟩ := bind_inv hrun
  cases hrun
  exact (hs _ _ _ _ hvalue).suffix.trans (suffix_of_cons_suffix (hs _ _ _ _ hkey).suffix)

theorem alike_primary (hts : Input P (n + 1) eof ts) (hb : n ≤ bound) (hb' : n ≤ bound') :
    Alike P eof ts (primary inner bound) (primary inner' bound') := by
  cases ts with
  | nil => exact .step (bind_run rfl _) (bind_run rfl _) (.failHere (by decide) hts)
  | cons t ts =>
      refine .step (bind_run next?_cons _) (bind_run next?_cons _) ?_
      have hrest := hts.tail
      have hlength := hrest.length_lt
      dsimp only
      split
      · exact .of_ok rfl
      · split
        · exact .of_ok rfl
        · exact .failAt (by decide) hts.head
      · split
        · exact alike_textTail hrest (by omega) (by omega)
        · exact .failAt (by simp) hts.head
      · exact alike_parenthesized h hs hrest hb hb'
      · refine (alike_listUntil h (fun _ _ _ _ hrun => (hs _ _ _ _ hrun).suffix) hrest (by omega)
          (by omega)).bind fun items mid hrun => ?_
        have hmid := hrest.suffix (sound_items hs _ _ _ _ _ _ hrun).suffix
        exact .expect hmid fun _ _ _ _ => .of_ok rfl
      · refine (alike_listUntil (fun _ _ => alike_dictEntry h hs)
          (fun _ _ _ _ => suffix_of_dictEntry hs) hrest (by omega) (by omega)).bind
          fun entries mid hrun => ?_
        have hmid := hrest.suffix (sound_entries hs _ _ _ _ _ hrun).suffix
        exact .expect hmid fun _ _ _ _ => .of_ok rfl
      · exact .failAt (by simp) hts.head

omit hs in
theorem alike_argument {latest : Option (Keyword Expr)} (hlatest : ∀ k ∈ latest, P k.span)
    (hts : Input P n eof ts) :
    Alike P eof ts (argument inner latest) (argument inner' latest) := by
  refine .step (atKeyword_bind _) (atKeyword_bind _) ?_
  split
  · refine .ident hts fun t ts' hname _ => ?_
    subst hname
    refine .expect hts.rest fun u ts'' heq _ => ?_
    subst heq
    exact (h eof ts'' hts.rest.rest).bind fun _ _ _ => .of_ok rfl
  · split
    · exact .failAt (by decide) (hlatest _ rfl)
    · exact (h eof ts hts).bind fun _ _ _ => .of_ok rfl

omit h hs in
theorem span_of_argument {latest : Option (Keyword Expr)} (hP : ∀ a b, P a → P (a.through b))
    (hlatest : ∀ k ∈ latest, P k.span) {a : Argument} {rest : List Token}
    (hts : Input P n eof ts) (ha : (Phrase.argument latest a).Derives ts rest) :
    ∀ k ∈ (a.keyword? <|> latest), P k.span := by
  cases ha with
  | keyword _ _ _ =>
      rintro k ⟨⟩
      exact hP _ _ hts.head
  | positional _ _ => exact hlatest

theorem alike_arguments (hP : ∀ a b, P a → P (a.through b)) {rounds rounds' : Nat}
    {latest : Option (Keyword Expr)} (hlatest : ∀ k ∈ latest, P k.span) (hts : Input P n eof ts)
    (hr : ts.length < rounds) (hr' : ts.length < rounds') :
    Alike P eof ts (arguments inner rounds latest) (arguments inner' rounds' latest) := by
  refine rounds_induction (motive := fun r r' ts => ∀ latest, (∀ k ∈ latest, P k.span) →
    Input P n eof ts → Alike P eof ts (arguments inner r latest) (arguments inner' r' latest))
    (fun rounds rounds' ts ih latest hlatest hts => ?_) hr hr' latest hlatest hts
  rw [arguments, arguments]
  refine .step (peekKind_bind _) (peekKind_bind _) ?_
  split
  · exact .of_ok rfl
  · refine (alike_argument h hlatest hts).bind fun a mid hrun => ?_
    have ha := sound_argument hs latest eof ts a mid hrun
    refine .ifAccept (fun t mid hcomma _ => ?_) (.of_ok rfl)
    subst hcomma
    exact (ih mid ha.suffix.length_le _ (span_of_argument hP hlatest hts ha)
      (hts.suffix (suffix_of_cons_suffix ha.suffix))).bind fun _ _ _ => .of_ok rfl

theorem alike_call (hP : ∀ a b, P a → P (a.through b)) {callee : Expr} (hts : Input P n eof ts)
    (hb : n ≤ bound) (hb' : n ≤ bound') :
    Alike P eof ts (call inner bound callee) (call inner' bound' callee) := by
  refine .expect hts fun t ts' hopening _ => ?_
  subst hopening
  have hrest := hts.rest
  have hlength := hrest.length_lt
  refine (alike_arguments h hs hP (by simp) hrest (by omega) (by omega)).bind
    fun args mid hrun => ?_
  have hmid := hrest.suffix (sound_arguments hs bound none _ _ _ _ hrun).suffix
  exact .expect hmid fun _ _ _ _ => .of_ok rfl

theorem alike_trailer (hP : ∀ a b, P a → P (a.through b)) {value : Expr} (hts : Input P n eof ts)
    (hb : n ≤ bound) (hb' : n ≤ bound') :
    Alike P eof ts (trailer inner bound value) (trailer inner' bound' value) := by
  refine .accept? (fun t ts' hdot _ => ?_) fun _ =>
    .accept? (fun t ts' hopening _ => ?_) fun _ => ?_
  · subst hdot
    exact .ident hts.rest fun _ _ _ _ => .of_ok rfl
  · subst hopening
    refine (alike_exprList h hs hts.rest hb hb').bind fun e mid hrun => ?_
    have hmid := hts.rest.suffix (sound_exprList hs bound eof ts' e mid hrun).suffix
    exact .expect hmid fun _ _ _ _ => .of_ok rfl
  · exact alike_call h hs hP hts hb hb'

end expressions

theorem alike_compareOp? (hts : Input P n eof ts) : Alike P eof ts compareOp? compareOp? := by
  cases ts with
  | nil => exact .of_ok rfl
  | cons t ts =>
      refine .step (peekKind_bind _) (peekKind_bind _) ?_
      rw [ahead_cons]
      split
      case h_8 =>
        refine .step (bind_run skip_cons _) (bind_run skip_cons _) ?_
        exact .expect hts.rest fun _ _ _ _ => .of_ok rfl
      case h_9 =>
        refine .step (bind_run skip_cons _) (bind_run skip_cons _) ?_
        exact .accept (fun _ _ _ _ => .of_ok rfl) fun _ => .of_ok rfl
      all_goals exact .of_ok rfl

theorem alike_comparisonLinks {inner inner' : Parser Expr} {rounds rounds' : Nat}
    (h : AlikeBelow P n inner inner')
    (hs : inner.Sound fun e => (Phrase.expr Power.comparison.right e).Derives)
    (hts : Input P n eof ts) (hr : ts.length < rounds) (hr' : ts.length < rounds') :
    Alike P eof ts (comparisonLinks inner rounds) (comparisonLinks inner' rounds') := by
  refine rounds_induction (motive := fun r r' ts => Input P n eof ts →
    Alike P eof ts (comparisonLinks inner r) (comparisonLinks inner' r'))
    (fun rounds rounds' ts ih hts => ?_) hr hr' hts
  rw [comparisonLinks, comparisonLinks]
  refine (alike_compareOp? hts).bind fun op? mid hrun => ?_
  rcases compareOp_of_run hrun with ⟨op, rfl, hop⟩ | ⟨rfl, rfl, -⟩
  · have hmid := hts.suffix hop.suffix
    refine (h eof mid hmid).bind fun e mid' hrun => ?_
    have he := (hs eof mid e mid' hrun).suffix
    exact (ih mid' (Nat.lt_of_le_of_lt he.length_le hop.length_lt) (hmid.suffix he)).bind
      fun _ _ _ => .of_ok rfl
  · exact .of_ok rfl

section powers

variable {inner inner' : Nat → Parser Expr} {bound bound' : Nat}
  (h : ∀ power, AlikeBelow P n (inner power) (inner' power))
  (hs : ∀ power, (inner power).Sound fun e => (Phrase.expr power e).Derives)
  (hP : ∀ a b, P a → P (a.through b))
include h hs

theorem alike_operand (hts : Input P (n + 1) eof ts) (hb : n ≤ bound) (hb' : n ≤ bound') :
    Alike P eof ts (operand inner bound) (operand inner' bound') := by
  refine .step (peekKind_bind _) (peekKind_bind _) ?_
  split
  · rename_i op power hop
    cases ts with
    | nil => cases hop
    | cons t ts =>
        refine .step (bind_run skip_cons _) (bind_run skip_cons _) ?_
        exact (h power eof ts hts.tail).bind fun _ _ _ => .of_ok rfl
  · exact alike_primary (h 0) (hs 0) hts hb hb'

theorem alike_comparison {left : Expr} (hts : Input P n eof ts) (hb : n ≤ bound)
    (hb' : n ≤ bound') :
    Alike P eof ts (comparison (inner Power.comparison.right) bound left)
      (comparison (inner' Power.comparison.right) bound' left) := by
  have hlength := hts.length_lt
  exact (alike_comparisonLinks (h _) (hs _) hts (by omega) (by omega)).bind fun _ _ _ => .of_ok rfl

include hP

theorem alike_operators {power rounds rounds' : Nat} {left : Expr} (hts : Input P n eof ts)
    (hb : n ≤ bound) (hb' : n ≤ bound') (hr : ts.length < rounds) (hr' : ts.length < rounds') :
    Alike P eof ts (operators inner bound power rounds left)
      (operators inner' bound' power rounds' left) := by
  refine rounds_induction (motive := fun r r' ts => ∀ left, Input P n eof ts →
    Alike P eof ts (operators inner bound power r left) (operators inner' bound' power r' left))
    (fun rounds rounds' ts ih left hts => ?_) hr hr' left hts
  rw [operators, operators]
  refine .step (peekKind_bind _) (peekKind_bind _) ?_
  cases ts with
  | nil => exact .of_ok rfl
  | cons t ts =>
      simp only [ahead_cons]
      split
      · split
        · exact .of_ok rfl
        · refine (alike_trailer (h 0) (hs 0) hP hts hb hb').bind fun e mid hrun => ?_
          have hmid := sound_trailer (hs 0) bound left _ _ _ _ hrun
          exact ih mid hmid.length_le e (hts.suffix hmid.suffix)
      split
      · split
        · exact .of_ok rfl
        · rename_i hcompare _
          refine (alike_comparison h hs hts hb hb').bind fun e mid hrun => ?_
          obtain ⟨link, more, hmid, -⟩ := sound_comparison hs hcompare hrun
          exact ih mid hmid.length_le e (hts.suffix hmid.suffix)
      split
      · exact .of_ok rfl
      · split
        · exact .of_ok rfl
        · rename_i op _ _
          refine .step (bind_run skip_cons _) (bind_run skip_cons _) ?_
          refine (h _ eof ts hts.rest).bind fun e mid hrun => ?_
          have hmid := (hs _ eof ts e mid hrun).suffix
          exact ih mid (Nat.lt_succ_of_le hmid.length_le) _ (hts.rest.suffix hmid)

end powers

theorem alike_expr (hP : ∀ a b, P a → P (a.through b)) {bound bound' : Nat} (hb : n ≤ bound)
    (hb' : n ≤ bound') (power : Nat) : AlikeBelow P n (expr bound power) (expr bound' power) := by
  refine levels_induction (motive := fun n bound bound' => ∀ power,
    AlikeBelow P n (expr bound power) (expr bound' power)) (fun _ _ _ => alikeBelow_zero)
    (fun n bound bound' hb hb' ih power eof ts hts => ?_) hb hb' power
  rw [expr, expr]
  refine (alike_operand ih (sound_expr bound) hts hb hb').bind fun left mid hrun => ?_
  have hmid := sound_operand (sound_expr bound) bound _ _ _ _ hrun
  have hmid := hts.shorter hmid.suffix hmid.length_le
  have hlength := hmid.length_lt
  exact alike_operators ih (sound_expr bound) hP hmid hb hb' (by omega) (by omega)

theorem alike_ident : AlikeBelow P n ident ident := by
  intro eof ts hts
  rw [← bind_pure ident]
  exact .ident hts fun _ _ _ _ => .of_ok rfl

theorem suffix_of_ident (eof : Span) (ts : List Token) (x : Ident) (rest : List Token)
    (hrun : ident eof ts = .ok (x, rest)) : rest <:+ ts := by
  obtain ⟨t, rfl, -, -⟩ := ident_inv hrun
  exact List.suffix_cons t rest

section names

variable {bound bound' : Nat} (hb : n ≤ bound) (hb' : n ≤ bound')

theorem alike_dottedNameTail {rounds rounds' : Nat} {name : DottedName} (hts : Input P n eof ts)
    (hr : ts.length < rounds) (hr' : ts.length < rounds') :
    Alike P eof ts (dottedNameTail rounds name) (dottedNameTail rounds' name) := by
  refine rounds_induction (motive := fun r r' ts => ∀ name, Input P n eof ts →
    Alike P eof ts (dottedNameTail r name) (dottedNameTail r' name))
    (fun rounds rounds' ts ih name hts => ?_) hr hr' name hts
  rw [dottedNameTail, dottedNameTail]
  refine .ifAccept (fun t ts' hdot _ => ?_) (.of_ok rfl)
  subst hdot
  refine .ident hts.rest fun u ts'' hname _ => ?_
  subst hname
  exact ih ts'' (by simp only [List.length_cons]; omega) _ hts.rest.rest

include hb hb'

theorem alike_dottedName : AlikeBelow P n (dottedName bound) (dottedName bound') := by
  intro eof ts hts
  refine .ident hts fun t ts' hname _ => ?_
  subst hname
  have hlength := hts.rest.length_lt
  exact alike_dottedNameTail hts.rest (by omega) (by omega)

theorem alike_importName : AlikeBelow P n (importName bound) (importName bound') := by
  intro eof ts hts
  refine (alike_dottedName hb hb' eof ts hts).bind fun path mid hrun => ?_
  have hmid := hts.suffix (sound_dottedName bound _ _ _ _ hrun).suffix
  refine .ifAccept (fun t mid' has _ => ?_) (.of_ok rfl)
  subst has
  exact .ident hmid.rest fun _ _ _ _ => .of_ok rfl

theorem alike_importStmt : AlikeBelow P n (importStmt bound) (importStmt bound') := by
  intro eof ts hts
  refine .expect hts fun t ts' hkeyword _ => ?_
  subst hkeyword
  have hlength := hts.rest.length_lt
  exact (alike_listOf (alike_importName hb hb')
    (fun _ _ _ _ hrun => (sound_importName bound _ _ _ _ hrun).suffix) hts.rest (by omega)
    (by omega)).bind fun _ _ _ => .of_ok rfl

theorem alike_fromStmt : AlikeBelow P n (fromStmt bound) (fromStmt bound') := by
  intro eof ts hts
  refine .expect hts fun t ts' hkeyword _ => ?_
  subst hkeyword
  refine (alike_dottedName hb hb' eof ts' hts.rest).bind fun name mid hrun => ?_
  have hmid := hts.rest.suffix (sound_dottedName bound _ _ _ _ hrun).suffix
  refine .expect hmid fun _ _ _ _ => ⟨rfl, fun e he => ?_⟩
  cases he

end names

section simple

variable {bound bound' : Nat} (hP : ∀ a b, P a → P (a.through b)) (hb : n ≤ bound)
  (hb' : n ≤ bound')
include hP hb hb'

theorem alike_side :
    AlikeBelow P n (exprList (expr bound 0) bound) (exprList (expr bound' 0) bound') :=
  fun _ _ hts => alike_exprList (alike_expr hP hb hb' 0) (sound_expr bound 0) hts hb hb'

theorem alike_returnStmt : AlikeBelow P n (returnStmt bound) (returnStmt bound') := by
  intro eof ts hts
  refine .expect hts fun t ts' hkeyword _ => ?_
  subst hkeyword
  refine .step (peekKind_bind _) (peekKind_bind _) ?_
  split
  · exact .of_ok rfl
  · exact (alike_side hP hb hb' eof ts' hts.rest).bind fun _ _ _ => .of_ok rfl

theorem alike_assignedTail {rounds rounds' : Nat} (hts : Input P n eof ts)
    (hr : ts.length < rounds) (hr' : ts.length < rounds') :
    Alike P eof ts (assignedTail bound rounds) (assignedTail bound' rounds') := by
  refine rounds_induction (motive := fun r r' ts => Input P n eof ts →
    Alike P eof ts (assignedTail bound r) (assignedTail bound' r'))
    (fun rounds rounds' ts ih hts => ?_) hr hr' hts
  rw [assignedTail, assignedTail]
  refine .ifAccept (fun t ts' heq _ => ?_) (.of_ok rfl)
  subst heq
  refine (alike_side hP hb hb' eof ts' hts.rest).bind fun side mid hrun => ?_
  have hmid := (sound_side bound _ _ _ _ hrun).suffix
  exact (ih mid (Nat.lt_succ_of_le hmid.length_le) (hts.rest.suffix hmid)).bind
    fun _ _ _ => .of_ok rfl

theorem alike_exprStmt : AlikeBelow P n (exprStmt bound) (exprStmt bound') := by
  intro eof ts hts
  refine (alike_side hP hb hb' eof ts hts).bind fun first mid hrun => ?_
  have hmid := hts.suffix (sound_side bound _ _ _ _ hrun).suffix
  have hlength := hmid.length_lt
  refine .step (peekKind_bind _) (peekKind_bind _) ?_
  split
  · rename_i op hop
    cases mid with
    | nil => cases hop
    | cons t mid =>
        refine .step (bind_run skip_cons _) (bind_run skip_cons _) ?_
        exact (alike_expr hP hb hb' 0 eof mid hmid.rest).bind fun _ _ _ => .of_ok rfl
  · refine (alike_assignedTail hP hb hb' hmid (by omega) (by omega)).bind fun sides mid' _ => ?_
    split <;> exact .of_ok rfl

theorem alike_simpleStmt : AlikeBelow P n (simpleStmt bound) (simpleStmt bound') := by
  intro eof ts hts
  refine .step (peekKind_bind _) (peekKind_bind _) ?_
  cases ts with
  | nil => exact alike_exprStmt hP hb hb' eof [] hts
  | cons t ts =>
      rw [ahead_cons]
      split
      · exact .of_ok rfl
      · exact .of_ok rfl
      · exact .of_ok rfl
      · exact alike_returnStmt hP hb hb' eof _ hts
      · exact alike_importStmt hb hb' eof _ hts
      · exact alike_fromStmt hb hb' eof _ hts
      · exact alike_exprStmt hP hb hb' eof _ hts

theorem alike_simpleStmtsTail {rounds rounds' : Nat} (hts : Input P n eof ts)
    (hr : ts.length < rounds) (hr' : ts.length < rounds') :
    Alike P eof ts (simpleStmtsTail bound rounds) (simpleStmtsTail bound' rounds') := by
  refine rounds_induction (motive := fun r r' ts => Input P n eof ts →
    Alike P eof ts (simpleStmtsTail bound r) (simpleStmtsTail bound' r'))
    (fun rounds rounds' ts ih hts => ?_) hr hr' hts
  rw [simpleStmtsTail, simpleStmtsTail]
  refine .ifAccept (fun t ts' hsemi _ => ?_) (.of_ok rfl)
  subst hsemi
  refine .step (peekKind_bind _) (peekKind_bind _) ?_
  split
  · exact .of_ok rfl
  · exact .of_ok rfl
  · refine (alike_simpleStmt hP hb hb' eof ts' hts.rest).bind fun s mid hrun => ?_
    have hmid := (sound_simpleStmt bound _ _ _ _ hrun).suffix
    exact (ih mid (Nat.lt_succ_of_le hmid.length_le) (hts.rest.suffix hmid)).bind
      fun _ _ _ => .of_ok rfl

omit hP hb hb' in
theorem alike_lineEnd (hts : Input P n eof ts) : Alike P eof ts lineEnd lineEnd := by
  refine .step (peekKind_bind _) (peekKind_bind _) ?_
  split
  · cases ts <;> exact .of_ok rfl
  · exact .of_ok rfl
  · exact .of_ok rfl
  · exact .failHere (by simp) hts

theorem alike_simpleStmts : AlikeBelow P n (simpleStmts bound) (simpleStmts bound') := by
  intro eof ts hts
  refine (alike_simpleStmt hP hb hb' eof ts hts).bind fun s mid hrun => ?_
  have hmid := hts.suffix (sound_simpleStmt bound _ _ _ _ hrun).suffix
  have hlength := hmid.length_lt
  refine (alike_simpleStmtsTail hP hb hb' hmid (by omega) (by omega)).bind fun ss mid' hrun => ?_
  have hmid' := hmid.suffix (sound_simpleStmtsTail _ _ _ _ _ _ hrun).suffix
  exact (alike_lineEnd hmid').bind fun _ _ _ => .of_ok rfl

theorem alike_decorators {rounds rounds' : Nat} (hts : Input P n eof ts)
    (hr : ts.length < rounds) (hr' : ts.length < rounds') :
    Alike P eof ts (decorators bound rounds) (decorators bound' rounds') := by
  refine rounds_induction (motive := fun r r' ts => Input P n eof ts →
    Alike P eof ts (decorators bound r) (decorators bound' r'))
    (fun rounds rounds' ts ih hts => ?_) hr hr' hts
  rw [decorators, decorators]
  refine .ifAccept (fun t ts' hat _ => ?_) (.of_ok rfl)
  subst hat
  refine (alike_expr hP hb hb' 0 eof ts' hts.rest).bind fun e mid hrun => ?_
  have he := (sound_expr bound 0 _ _ _ _ hrun).suffix
  refine .expect (hts.rest.suffix he) fun u mid' hnewline _ => ?_
  subst hnewline
  have hmid := suffix_of_cons_suffix he
  exact (ih mid' (Nat.lt_succ_of_le hmid.length_le) (hts.rest.suffix hmid)).bind
    fun _ _ _ => .of_ok rfl

end simple

section compound

variable {inner inner' : Parser (List Stmt)} {bound bound' : Nat}
  (h : AlikeBelow P n inner inner') (hs : inner.Sound fun ss => (Clause.stmt ss).Derives)
  (hP : ∀ a b, P a → P (a.through b)) (hb : n + 1 ≤ bound) (hb' : n + 1 ≤ bound')
include h hs

theorem alike_blockStmts {rounds rounds' : Nat} (hts : Input P n eof ts)
    (hr : ts.length < rounds) (hr' : ts.length < rounds') :
    Alike P eof ts (blockStmts inner rounds) (blockStmts inner' rounds') := by
  refine rounds_induction (motive := fun r r' ts => Input P n eof ts →
    Alike P eof ts (blockStmts inner r) (blockStmts inner' r'))
    (fun rounds rounds' ts ih hts => ?_) hr hr' hts
  rw [blockStmts, blockStmts]
  refine .step (peekKind_bind _) (peekKind_bind _) ?_
  split
  · exact .of_ok rfl
  · exact .of_ok rfl
  · refine (h eof ts hts).bind fun ss mid hrun => ?_
    have hmid := hs eof ts ss mid hrun
    exact (ih mid hmid.length_le (hts.suffix hmid.suffix)).bind fun _ _ _ => .of_ok rfl

include hP hb hb'

/-- A suite begins with a colon, so its statements have fewer tokens left. -/
theorem alike_suite (hts : Input P (n + 1) eof ts) :
    Alike P eof ts (suite inner bound) (suite inner' bound') := by
  refine .expect hts fun colon ts' hcolon _ => ?_
  subst hcolon
  have hrest := hts.tail
  refine .ifAccept (fun t ts'' hnewline _ => ?_) ?_
  · subst hnewline
    refine .expect hrest.rest fun u ts₃ hindent _ => ?_
    subst hindent
    have hbody := hrest.rest.rest
    have hlength := hbody.length_lt
    refine (alike_blockStmts h hs hbody (by omega) (by omega)).bind fun body mid _ => ?_
    exact .accept (fun _ _ _ _ => .of_ok rfl) fun _ => .of_ok rfl
  · exact (alike_simpleStmts hP hb hb' eof ts' hts.rest).bind fun _ _ _ => .of_ok rfl

theorem alike_elifBranches {rounds rounds' : Nat} {stop : Span} (hts : Input P (n + 1) eof ts)
    (hr : ts.length < rounds) (hr' : ts.length < rounds') :
    Alike P eof ts (elifBranches inner bound rounds stop)
      (elifBranches inner' bound' rounds' stop) := by
  refine rounds_induction (motive := fun r r' ts => ∀ stop, Input P (n + 1) eof ts →
    Alike P eof ts (elifBranches inner bound r stop) (elifBranches inner' bound' r' stop))
    (fun rounds rounds' ts ih stop hts => ?_) hr hr' stop hts
  rw [elifBranches, elifBranches]
  refine .ifAccept (fun t ts' helif _ => ?_) (.of_ok rfl)
  subst helif
  refine (alike_expr hP hb hb' 0 eof ts' hts.rest).bind fun e mid hrun => ?_
  have he := (sound_expr bound 0 _ _ _ _ hrun).suffix
  have hmid := hts.rest.suffix he
  refine (alike_suite h hs hP hb hb' hmid).bind fun body mid' hrun => ?_
  have hbody := (sound_suite hs bound _ _ _ _ hrun).suffix
  exact ih mid' (Nat.lt_succ_of_le (hbody.trans he).length_le) _ (hmid.suffix hbody)

theorem alike_defineStmt (hts : Input P (n + 1) eof ts) :
    Alike P eof ts (defineStmt inner bound) (defineStmt inner' bound') := by
  refine .here fun start => ?_
  have hlength := hts.length_lt
  refine (alike_decorators hP hb hb' hts (by omega) (by omega)).bind fun marks mid hrun => ?_
  have hmid := hts.suffix (sound_decorators _ _ _ _ _ _ hrun).suffix
  refine .expect hmid fun kw mid' hkw _ => ?_
  subst hkw
  refine .ident hmid.rest fun name mid' hname _ => ?_
  subst hname
  refine .expect hmid.rest.rest fun opening mid' hopening _ => ?_
  subst hopening
  have hparams := hmid.rest.rest.rest
  have hlength := hparams.length_lt
  refine (alike_listUntil alike_ident suffix_of_ident hparams (by omega) (by omega)).bind
    fun params mid'' hrun => ?_
  have hmid'' := hparams.suffix (sound_params _ _ _ _ _ hrun).suffix
  refine .expect hmid'' fun close mid₃ hclose _ => ?_
  subst hclose
  exact (alike_suite h hs hP hb hb' hmid''.rest).bind fun _ _ _ => .of_ok rfl

theorem alike_whileStmt (hts : Input P (n + 1) eof ts) :
    Alike P eof ts (whileStmt inner bound) (whileStmt inner' bound') := by
  refine .expect hts fun t ts' hkeyword _ => ?_
  subst hkeyword
  refine (alike_expr hP hb hb' 0 eof ts' hts.rest).bind fun e mid hrun => ?_
  have hmid := hts.rest.suffix (sound_expr bound 0 _ _ _ _ hrun).suffix
  refine (alike_suite h hs hP hb hb' hmid).bind fun body mid' hrun => ?_
  have hmid' := hmid.suffix (sound_suite hs bound _ _ _ _ hrun).suffix
  refine .step (peekKind_bind _) (peekKind_bind _) ?_
  split
  · exact (Alike.failHere (by decide) hmid').bind fun _ _ _ => .of_ok rfl
  · exact .of_ok rfl

theorem alike_ifStmt (hts : Input P (n + 1) eof ts) :
    Alike P eof ts (ifStmt inner bound) (ifStmt inner' bound') := by
  refine .expect hts fun t ts' hkeyword _ => ?_
  subst hkeyword
  refine (alike_expr hP hb hb' 0 eof ts' hts.rest).bind fun e mid hrun => ?_
  have hmid := hts.rest.suffix (sound_expr bound 0 _ _ _ _ hrun).suffix
  refine (alike_suite h hs hP hb hb' hmid).bind fun body mid' hrun => ?_
  have hmid' := hmid.suffix (sound_suite hs bound _ _ _ _ hrun).suffix
  have hlength := hmid'.length_lt
  refine (alike_elifBranches h hs hP hb hb' hmid' (by omega) (by omega)).bind
    fun stop mid'' hrun => ?_
  have hmid'' := hmid'.suffix (sound_elifBranches hs bound bound _ _ _ _ _ hrun).suffix
  refine .ifAccept (fun u mid₃ helse _ => ?_) (.of_ok rfl)
  subst helse
  exact (alike_suite h hs hP hb hb' hmid''.rest).bind fun _ _ _ => .of_ok rfl

theorem alike_forStmt (hts : Input P (n + 1) eof ts) :
    Alike P eof ts (forStmt inner bound) (forStmt inner' bound') := by
  refine .expect hts fun t ts' hkeyword _ => ?_
  subst hkeyword
  have hlength := hts.rest.length_lt
  refine (alike_listOf (alike_expr hP hb hb' Power.loopTarget)
    (fun _ _ _ _ hrun => (sound_expr bound _ _ _ _ _ hrun).suffix) hts.rest (by omega)
    (by omega)).bind fun es mid hrun => ?_
  have hmid := hts.rest.suffix (sound_targets _ _ _ _ _ _ hrun).suffix
  refine .expect hmid fun u mid' hin _ => ?_
  subst hin
  refine (alike_side hP hb hb' eof mid' hmid.rest).bind fun e mid'' hrun => ?_
  have hmid'' := hmid.rest.suffix (sound_side bound _ _ _ _ hrun).suffix
  exact (alike_suite h hs hP hb hb' hmid'').bind fun _ _ _ => .of_ok rfl

theorem alike_classStmt (hts : Input P (n + 1) eof ts) :
    Alike P eof ts (classStmt inner bound) (classStmt inner' bound') := by
  refine .expect hts fun t ts' hkeyword _ => ?_
  subst hkeyword
  refine .ident hts.rest fun name ts'' hname _ => ?_
  subst hname
  have hheader := hts.rest.rest
  refine .ifAccept (fun opening ts₃ hopening _ => ?_) ?_
  · subst hopening
    have hlength := hheader.rest.length_lt
    refine (alike_listUntil (alike_expr hP hb hb' 0)
      (fun _ _ _ _ hrun => (sound_expr bound 0 _ _ _ _ hrun).suffix) hheader.rest (by omega)
      (by omega)).bind fun parents mid hrun => ?_
    have hmid := hheader.rest.suffix
      (sound_items (sound_expr bound 0) _ _ _ _ _ _ hrun).suffix
    refine .expect hmid fun close mid' hclose _ => ?_
    subst hclose
    exact (alike_suite h hs hP hb hb' hmid.rest).bind fun _ _ _ => .of_ok rfl
  · exact (alike_suite h hs hP hb hb' hheader).bind fun _ _ _ => .of_ok rfl

end compound

theorem alike_stmt (hP : ∀ a b, P a → P (a.through b)) {bound bound' : Nat} (hb : n ≤ bound)
    (hb' : n ≤ bound') : AlikeBelow P n (stmt bound) (stmt bound') := by
  refine levels_induction (motive := fun n bound bound' =>
    AlikeBelow P n (stmt bound) (stmt bound')) (fun _ _ => alikeBelow_zero)
    (fun n bound bound' hb hb' ih eof ts hts => ?_) hb hb'
  have hs := sound_stmt bound
  have hb := Nat.succ_le_succ hb
  have hb' := Nat.succ_le_succ hb'
  rw [stmt, stmt]
  refine .step (peekKind_bind _) (peekKind_bind _) ?_
  split
  · exact (alike_defineStmt ih hs hP hb hb' hts).bind fun _ _ _ => .of_ok rfl
  · exact (alike_defineStmt ih hs hP hb hb' hts).bind fun _ _ _ => .of_ok rfl
  · exact (alike_whileStmt ih hs hP hb hb' hts).bind fun _ _ _ => .of_ok rfl
  · exact (alike_ifStmt ih hs hP hb hb' hts).bind fun _ _ _ => .of_ok rfl
  · exact (alike_forStmt ih hs hP hb hb' hts).bind fun _ _ _ => .of_ok rfl
  · exact (alike_classStmt ih hs hP hb hb' hts).bind fun _ _ _ => .of_ok rfl
  · exact .failHere (by decide) hts
  · exact alike_simpleStmts hP hb hb' eof ts hts
  · exact .failHere (by decide) hts

theorem alike_moduleStmts (hP : ∀ a b, P a → P (a.through b)) {bound bound' rounds rounds' : Nat}
    (hb : n ≤ bound) (hb' : n ≤ bound') (hts : Input P n eof ts) (hr : ts.length < rounds)
    (hr' : ts.length < rounds') :
    Alike P eof ts (moduleStmts bound rounds) (moduleStmts bound' rounds') := by
  refine rounds_induction (motive := fun r r' ts => Input P n eof ts →
    Alike P eof ts (moduleStmts bound r) (moduleStmts bound' r'))
    (fun rounds rounds' ts ih hts => ?_) hr hr' hts
  rw [moduleStmts, moduleStmts]
  refine .step (peekKind_bind _) (peekKind_bind _) ?_
  cases ts with
  | nil => exact .of_ok rfl
  | cons t ts =>
      rw [ahead_cons]
      split
      · rename_i hnone
        cases hnone
      · refine .step (bind_run skip_cons _) (bind_run skip_cons _) ?_
        exact ih ts (Nat.lt_succ_self _) hts.rest
      · refine (alike_stmt hP hb hb' eof _ hts).bind fun ss mid hrun => ?_
        have hmid := sound_stmt bound _ _ _ _ hrun
        exact (ih mid hmid.length_le (hts.suffix hmid.suffix)).bind fun _ _ _ => .of_ok rfl

theorem alike_wholeModule (hP : ∀ a b, P a → P (a.through b)) {bound bound' : Nat} (hb : n ≤ bound)
    (hb' : n ≤ bound') : AlikeBelow P n (wholeModule bound) (wholeModule bound') := by
  intro eof ts hts
  refine .here fun start => ?_
  have hlength := hts.length_lt
  exact (alike_moduleStmts hP hb hb' hts (by omega) (by omega)).bind fun _ _ _ => .of_ok rfl

end P16.Parser
