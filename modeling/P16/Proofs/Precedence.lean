import P16.Proofs.GrammarComplete
import P16.Proofs.Written

/-!
# Precedence and associativity

An expression that is written by the table of tiers is read as itself: the powers of the parser keep
the table.
-/

namespace P16

section powers

namespace Tier

/-- The greatest power at which an expression of this tier may be asked for. -/
def entry : Tier → Nat
  | disjunction => 1
  | conjunction => 3
  | negation | comparison => 7
  | bitOr => 9
  | bitXor => 11
  | bitAnd => 13
  | shift => 15
  | sum => 17
  | product => 19
  | sign | power => 24
  | trailer => 25

/-- An operator that follows an expression of this tier leaves it whole if its power to the left is
below this one. -/
def exit : Tier → Nat
  | disjunction => 2
  | conjunction => 4
  | negation => 5
  | comparison => 7
  | bitOr => 10
  | bitXor => 12
  | bitAnd => 14
  | shift => 16
  | sum => 18
  | product => 20
  | sign | power => 21
  | trailer => 26

theorem entry_mono {a b : Tier} (h : a.rank ≤ b.rank) : a.entry ≤ b.entry := by
  cases a <;> cases b <;> revert h <;> decide

theorem exit_mono {a b : Tier} (h : a.rank ≤ b.rank) : a.exit ≤ b.exit := by
  cases a <;> cases b <;> revert h <;> decide

theorem entry_le (a : Tier) : a.entry ≤ Power.trailer := by
  cases a <;> decide

end Tier

/-- The powers of the parser keep the table: both operands may be asked for as they are, and what
follows the whole follows the right operand. -/
theorem BinaryOp.power_of_tier (op : BinaryOp) :
    op.tier.entry ≤ op.power.left ∧ op.tier.entry ≤ op.leftTier.entry ∧
      op.power.left < op.leftTier.exit ∧ op.power.right ≤ op.rightTier.entry ∧
      op.tier.exit ≤ op.power.right ∧ op.tier.exit ≤ op.rightTier.exit := by
  cases op <;> decide

theorem UnaryOp.exists_power (op : UnaryOp) :
    ∃ power, ofKind? op.kind = some (op, power) ∧ power ≤ op.tier.entry ∧ op.tier.exit ≤ power := by
  cases op
  case not => exact ⟨Power.negation, rfl, by decide, by decide⟩
  all_goals exact ⟨Power.sign, rfl, by decide, by decide⟩

@[simp] theorem BinaryOp.ofKind?_kind (op : BinaryOp) : ofKind? op.kind = some op := by
  cases op <;> rfl

theorem TokenKind.grip_le {kind : TokenKind} {grip : Nat} (h : grip ∈ kind.grip?) :
    grip ≤ Power.trailer := by
  cases kind <;> revert h <;> simp [grip?, startsTrailer, startsComparison, BinaryOp.ofKind?,
    BinaryOp.power, Power.trailer, Power.comparison] <;> omega

theorem Stops.mono {power power' : Nat} {ts : List Token} (h : Stops power ts)
    (hpower : power ≤ power') : Stops power' ts :=
  fun grip hgrip => Nat.lt_of_lt_of_le (h grip hgrip) hpower

theorem stops_trailer_exit (ts : List Token) : Stops Tier.trailer.exit ts := by
  intro grip hgrip
  obtain ⟨kind, -, hkind⟩ := Option.bind_eq_some_iff.mp hgrip
  exact Nat.lt_succ_of_le (TokenKind.grip_le hkind)

theorem Stops.startsComparison {ts : List Token} (h : Stops Tier.comparison.exit ts) :
    ∀ kind ∈ ahead ts, kind.startsComparison = false := by
  intro kind hkind
  by_contra hcompare
  rw [Bool.not_eq_false] at hcompare
  have htrailer : kind.startsTrailer = false := by
    cases kind <;> first | rfl | cases hcompare
  have hgrip : Power.comparison.left ∈ kind.grip? := by
    simp [TokenKind.grip?, htrailer, hcompare]
  exact Nat.lt_irrefl _ (h _ (Option.mem_bind_iff.mpr ⟨kind, hkind, hgrip⟩))

theorem stops_of_comparison {ts : List Token} {kind : TokenKind} (power : Nat)
    (hkind : ahead ts = some kind) (htrailer : kind.startsTrailer = false)
    (hcompare : kind.startsComparison = true) (hpower : Power.comparison.left < power) :
    ahead ts ≠ some .str ∧ Stops power ts := by
  constructor
  · rw [hkind]
    rintro ⟨⟩
    cases hcompare
  · simpa [Stops, hkind, TokenKind.grip?, htrailer, hcompare] using hpower

def Ends (ts : List Token) : Prop := ahead ts ≠ some .str ∧ Stops 0 ts

/-- A token that no expression goes on with. -/
def TokenKind.endsExpr (kind : TokenKind) : Bool := kind.grip?.isNone && kind ≠ .str

theorem ends_cons {t : Token} {ts : List Token} {kind : TokenKind} (ht : t.kind = kind)
    (hkind : kind.endsExpr = true) : Ends (t :: ts) := by
  simp only [TokenKind.endsExpr, Bool.and_eq_true, Option.isNone_iff_eq_none,
    decide_eq_true_eq] at hkind
  subst ht
  exact ⟨by simpa using hkind.2, by simp [Stops, hkind.1]⟩

end powers

theorem BinaryOp.stops {op : BinaryOp} {t : Token} {ts : List Token} {power : Nat}
    (ht : t.kind = op.kind) (hpower : op.power.left < power) :
    ahead (t :: ts) ≠ some .str ∧ Stops power (t :: ts) := by
  obtain ⟨htrailer, hcompare⟩ := starts_of_ofKind? op.ofKind?_kind
  constructor
  · rw [ahead_cons, ht]
    cases op <;> nofun
  · simpa [Stops, ht, TokenKind.grip?, htrailer, hcompare] using hpower

namespace Phrase

theorem Derives.endsExprList {power : Nat} {e : Expr} {ts rest : List Token}
    (h : (Phrase.expr power e).Derives ts rest) : endsExprList ts = false := by
  obtain ⟨kind, hkind, hstarts⟩ := h.starts rfl
  rw [P16.endsExprList, hkind]
  cases kind <;> first | rfl | cases hstarts

theorem Derives.startsKeyword {power : Nat} {e : Expr} {ts rest : List Token}
    (h : (Phrase.expr power e).Derives ts rest) (hrest : ahead rest ≠ some .eq) :
    startsKeyword ts = false := by
  cases h with
  | @expr _ left _ _ mid _ hleft hops =>
      have hmid : ahead mid ≠ some .eq := by
        cases hops with
        | operatorsDone => exact hrest
        | operatorsTrailer _ hnext _ =>
            obtain ⟨kind, hkind, hstarts⟩ := hnext.startsTrailer
            rw [hkind]
            rintro ⟨⟩
            cases hstarts
        | operatorsCompare _ hlinks _ =>
            obtain ⟨kind, hkind, -, hstarts⟩ := hlinks.startsComparison
            rw [hkind]
            rintro ⟨⟩
            cases hstarts
        | operatorsBinary ht _ _ _ =>
            intro heq
            rw [ahead_cons, Option.some.injEq] at heq
            rw [heq] at ht
            cases ht
      cases hleft with
      | name ht => simp [P16.startsKeyword, hmid]
      | @unary _ _ _ t _ _ ht _ =>
          have hkind : t.kind ≠ .ident := by
            intro hkind
            rw [hkind] at ht
            cases ht
          simp [P16.startsKeyword, hkind]
      | number ht _ | text ht _ _ | unit ht _ | parens ht _ _ | list ht _ _ | dict ht _ _ =>
          simp [P16.startsKeyword, ht]

end Phrase

theorem CompareOp.derives_of_spells {op : CompareOp} {ts rest : List Token} (h : Spells ts op.words)
    (hrest : ahead rest ≠ some .kwNot) : op.Derives (ts ++ rest) rest := by
  cases op
  case notIn | isNot =>
    obtain ⟨t, ts, rfl, ht, hts⟩ := h.sign_inv
    obtain ⟨u, ts, rfl, hu, hts⟩ := hts.sign_inv
    cases hts.eq_nil
    first | exact .notIn ht hu | exact .isNot ht hu
  all_goals
    obtain ⟨t, ts, rfl, ht, hts⟩ := h.sign_inv
    cases hts.eq_nil
    first | exact .is ht hrest | exact .sign (by rw [ht]; rfl)

namespace Form

open Phrase (Derives)

/-- What is read from tokens that write the form, whatever they are followed by. -/
def Derived : Form → List Token → Prop
  | expr tier e, ts => ∃ e', e'.bare = e.bare ∧ ∀ power rest, power ≤ tier.entry →
      ahead rest ≠ some .str → Stops tier.exit rest → ∀ whole rest',
      Derives (.operators power e' whole) rest rest' →
        Derives (.expr power whole) (ts ++ rest) rest'
  | items es, ts => ∃ es', Expr.bareItems es' = Expr.bareItems es ∧ ∀ close rest,
      ahead rest = some close → close.closesBracket = true →
      Derives (.items close es') (ts ++ rest) rest ∧
        ∀ t : Token, t.kind = .comma → Derives (.moreExprs es') (t :: (ts ++ rest)) rest
  | entries es, ts => ∃ es', Expr.bareEntries es' = Expr.bareEntries es ∧ ∀ rest,
      ahead rest = some .rbrace → Derives (.entries es') (ts ++ rest) rest
  | arguments args keywords, ts => ∀ latest, (args ≠ [] → latest = none) → ∃ as,
      Expr.bareItems (as.filterMap Parser.Argument.positional?) = Expr.bareItems args ∧
      Expr.bareKeywords (as.filterMap Parser.Argument.keyword?) = Expr.bareKeywords keywords ∧
      ∀ rest, ahead rest = some .rparen → Derives (.arguments latest as) (ts ++ rest) rest
  | links more, ts => ∃ link more', Expr.bareLinks (link :: more') = Expr.bareLinks more ∧ ∀ rest,
      ahead rest ≠ some .str → Stops Tier.comparison.exit rest →
      Derives (.links (link :: more')) (ts ++ rest) rest

variable {tier : Tier} {e : Expr} {ts : List Token}

theorem Derived.ends (h : (expr tier e).Derived ts) :
    ∃ e', e'.bare = e.bare ∧ ∀ rest, Ends rest → Derives (.expr 0 e') (ts ++ rest) rest := by
  obtain ⟨e', he', hread⟩ := h
  refine ⟨e', he', fun rest hrest => ?_⟩
  exact hread 0 rest (Nat.zero_le _) hrest.1 (hrest.2.mono (Nat.zero_le _)) _ _
    (.operatorsDone hrest.2)

theorem derived_of_operand (e' : Expr) (he' : e'.bare = e.bare)
    (h : ∀ rest, ahead rest ≠ some .str → Derives (.operand e') (ts ++ rest) rest) :
    (expr tier e).Derived ts :=
  ⟨e', he', fun _ rest _ hstr _ _ _ hops => .expr (h rest hstr) hops⟩

theorem derived_of_trailer {value : Expr} {us : List Token}
    (hvalue : (expr .trailer value).Derived ts)
    (h : ∀ value' : Expr, value'.bare = value.bare → ∃ e' : Expr, e'.bare = e.bare ∧
      ∀ rest, Derives (.trailer value' e') (us ++ rest) rest) :
    (expr tier e).Derived (ts ++ us) := by
  obtain ⟨value', hvalue', hread⟩ := hvalue
  obtain ⟨e', he', htrailer⟩ := h value' hvalue'
  refine ⟨e', he', fun power rest hpower _ _ whole rest' hops => ?_⟩
  have hle : power ≤ Power.trailer := Nat.le_trans hpower tier.entry_le
  have hstr : ahead (us ++ rest) ≠ some .str := by
    obtain ⟨kind, hkind, hstarts⟩ := (htrailer rest).startsTrailer
    rw [hkind]
    rintro ⟨⟩
    cases hstarts
  rw [List.append_assoc]
  exact hread power _ hle hstr (stops_trailer_exit _) _ _
    (.operatorsTrailer hle (htrailer rest) hops)

/-- A `not` is too loose to begin an operand of a comparison. -/
theorem Writes.head {f : Form} {ws : List Word} (h : f.Writes ws) :
    ∀ tier e, f = expr tier e → Tier.negation.rank < tier.rank →
      ∃ w ws', ws = w :: ws' ∧ w.kind ≠ .kwNot := by
  induction h with
  | name | number | text | unit | emptyList | emptyDict =>
      rintro _ _ ⟨⟩ _
      exact ⟨_, _, rfl, nofun⟩
  | parens | single | tuple | list | dict =>
      rintro _ _ ⟨⟩ _
      exact ⟨_, _, rfl, nofun⟩
  | member _ ih | subscript _ _ ih _ | emptyCall _ ih | call _ _ ih _ =>
      rintro _ _ ⟨⟩ _
      obtain ⟨w, ws, rfl, hw⟩ := ih _ _ rfl (by decide)
      exact ⟨w, _, rfl, hw⟩
  | @binary _ op _ _ _ _ _ htier _ _ ih _ =>
      rintro _ _ ⟨⟩ hrank
      have hleft : op.tier.rank ≤ op.leftTier.rank := by cases op <;> decide
      obtain ⟨w, ws, rfl, hw⟩ := ih _ _ rfl (by omega)
      exact ⟨w, _, rfl, hw⟩
  | @unary _ op _ _ _ htier _ _ =>
      rintro _ _ ⟨⟩ hrank
      refine ⟨_, _, rfl, ?_⟩
      cases op
      case not => exact absurd (Nat.lt_of_lt_of_le hrank htier) (Nat.lt_irrefl _)
      all_goals nofun
  | compare _ _ _ ih _ =>
      rintro _ _ ⟨⟩ _
      obtain ⟨w, ws, rfl, hw⟩ := ih _ _ rfl (by decide)
      exact ⟨w, _, rfl, hw⟩
  | _ => nofun

section rules

-- One lemma for each rule, with what is known of its parts.
variable {us vs : List Token} {t u close : Token} {value left right : Expr} {es : List Expr}
  {span : Span}

theorem derived_parens (ht : t.kind = .lparen) (he : (expr .disjunction e).Derived ts)
    (hclose : close.kind = .rparen) : (expr tier e).Derived (t :: (ts ++ [close])) := by
  obtain ⟨e', he', hread⟩ := he.ends
  refine derived_of_operand (e'.enclosed (t.span.through close.span))
    ((Expr.bare_enclosed e' _).trans he') fun rest _ => ?_
  have hinner := hread (close :: rest) (ends_cons hclose rfl)
  simpa using Derives.parens ht (.single hinner (by simp [hclose])) hclose

theorem derived_tuple (ht : t.kind = .lparen) (he : (expr .disjunction e).Derived ts)
    (hu : u.kind = .comma) (hes : (items es).Derived us) (hclose : close.kind = .rparen) :
    (expr tier (.tuple (e :: es) span)).Derived (t :: (ts ++ u :: (us ++ [close]))) := by
  obtain ⟨e', he', hread⟩ := he.ends
  obtain ⟨es', hes', hreads⟩ := hes
  refine derived_of_operand (.tuple (e' :: es') (t.span.through close.span))
    (by simp [Expr.bare, Expr.bareItems, he', hes']) fun rest _ => ?_
  have hfirst := hread (u :: (us ++ close :: rest)) (ends_cons hu rfl)
  have hmore := (hreads .rparen (close :: rest) (by simp [hclose]) rfl).2 u hu
  simpa [Expr.enclosed] using Derives.parens ht (.tuple hfirst (by simp [hu]) hmore) hclose

theorem derived_single (ht : t.kind = .lparen) (he : (expr .disjunction e).Derived ts)
    (hu : u.kind = .comma) (hclose : close.kind = .rparen) :
    (expr tier (.tuple [e] span)).Derived (t :: (ts ++ [u, close])) := by
  obtain ⟨e', he', hread⟩ := he.ends
  refine derived_of_operand (.tuple [e'] (t.span.through close.span))
    (by simp [Expr.bare, Expr.bareItems, he']) fun rest _ => ?_
  have hfirst := hread (u :: close :: rest) (ends_cons hu rfl)
  have hmore : Derives (.moreExprs []) (u :: close :: rest) (close :: rest) :=
    .exprsComma hu (by simp [endsExprList, hclose])
  simpa [Expr.enclosed] using Derives.parens ht (.tuple hfirst (by simp [hu]) hmore) hclose

theorem derived_list (ht : t.kind = .lbracket) (hes : (items es).Derived ts)
    (hclose : close.kind = .rbracket) :
    (expr tier (.list es span)).Derived (t :: (ts ++ [close])) := by
  obtain ⟨es', hes', hreads⟩ := hes
  refine derived_of_operand (.list es' (t.span.through close.span)) (by simp [Expr.bare, hes'])
    fun rest _ => ?_
  have hitems := (hreads .rbracket (close :: rest) (by simp [hclose]) rfl).1
  simpa using Derives.list ht hitems hclose

theorem derived_dict {es : List (Expr × Expr)} (ht : t.kind = .lbrace)
    (hes : (entries es).Derived ts) (hclose : close.kind = .rbrace) :
    (expr tier (.dict es span)).Derived (t :: (ts ++ [close])) := by
  obtain ⟨es', hes', hreads⟩ := hes
  refine derived_of_operand (.dict es' (t.span.through close.span)) (by simp [Expr.bare, hes'])
    fun rest _ => ?_
  simpa using Derives.dict ht (hreads (close :: rest) (by simp [hclose])) hclose

theorem derived_member {attr : Ident} (hvalue : (expr .trailer value).Derived ts)
    (ht : t.kind = .dot) (hu : u.kind = .ident) (hattr : u.text = attr.text) :
    (expr tier (.member value attr span)).Derived (ts ++ [t, u]) :=
  derived_of_trailer hvalue fun value' hvalue' =>
    ⟨.member value' u.ident (value'.span.through u.span),
      by simp [Expr.bare, Ident.bare, Token.ident, hvalue', hattr], fun _ => .member ht hu⟩

theorem derived_subscript {index : Expr} (hvalue : (expr .trailer value).Derived ts)
    (ht : t.kind = .lbracket) (hindex : (expr .disjunction index).Derived us)
    (hclose : close.kind = .rbracket) :
    (expr tier (.subscript value index span)).Derived (ts ++ t :: (us ++ [close])) := by
  obtain ⟨index', hindex', hread⟩ := hindex.ends
  refine derived_of_trailer hvalue fun value' hvalue' =>
    ⟨.subscript value' index' (value'.span.through close.span),
      by simp [Expr.bare, hvalue', hindex'], fun rest => ?_⟩
  have hinner := hread (close :: rest) (ends_cons hclose rfl)
  simpa using Derives.subscript ht (.single hinner (by simp [hclose])) hclose

theorem derived_call {args : List Expr} {keywords : List (Keyword Expr)}
    (hvalue : (expr .trailer value).Derived ts) (ht : t.kind = .lparen)
    (hargs : (arguments args keywords).Derived us) (hclose : close.kind = .rparen) :
    (expr tier (.call value args keywords span)).Derived (ts ++ t :: (us ++ [close])) := by
  obtain ⟨as, hargs', hkeywords', hreads⟩ := hargs none fun _ => rfl
  refine derived_of_trailer hvalue fun value' hvalue' =>
    ⟨.call value' (as.filterMap Parser.Argument.positional?)
        (as.filterMap Parser.Argument.keyword?) (value'.span.through close.span),
      by simp only [Expr.bare, hvalue', hargs', hkeywords'], fun rest => ?_⟩
  simpa using Derives.call ht (hreads (close :: rest) (by simp [hclose])) hclose

theorem derived_binary {op : BinaryOp} (htier : tier.rank ≤ op.tier.rank)
    (hleft : (expr op.leftTier left).Derived ts) (ht : t.kind = op.kind)
    (hright : (expr op.rightTier right).Derived us) :
    (expr tier (.binary op left right span)).Derived (ts ++ t :: us) := by
  obtain ⟨left', hleft', hreadLeft⟩ := hleft
  obtain ⟨right', hright', hreadRight⟩ := hright
  obtain ⟨hentry, hentryLeft, hexitLeft, hentryRight, hexit, hexitRight⟩ := op.power_of_tier
  refine ⟨.binary op left' right' (left'.span.through right'.span),
    by simp [Expr.bare, hleft', hright'], fun power rest hpower hstr hstops whole rest' hops => ?_⟩
  have hpower := Nat.le_trans hpower (Tier.entry_mono htier)
  have hstops := hstops.mono (Tier.exit_mono htier)
  have hoperand : Derives (.expr op.power.right right') (us ++ rest) rest :=
    hreadRight _ rest hentryRight hstr (hstops.mono hexitRight) _ _
      (.operatorsDone (hstops.mono hexit))
  obtain ⟨hnext, hgrip⟩ : ahead (t :: (us ++ rest)) ≠ some .str ∧ Stops op.leftTier.exit _ :=
    op.stops ht hexitLeft
  have hwhole := hreadLeft power _ (Nat.le_trans hpower hentryLeft) hnext hgrip _ _
    (.operatorsBinary (by rw [ht]; exact op.ofKind?_kind) (Nat.le_trans hpower hentry) hoperand
      hops)
  simpa using hwhole

theorem derived_unary {op : UnaryOp} (htier : tier.rank ≤ op.tier.rank) (ht : t.kind = op.kind)
    (he : (expr op.tier e).Derived ts) : (expr tier (.unary op e span)).Derived (t :: ts) := by
  obtain ⟨e', he', hread⟩ := he
  obtain ⟨power, hkind, hentry, hexit⟩ := op.exists_power
  refine ⟨.unary op e' (t.span.through e'.span), by simp [Expr.bare, he'],
    fun _ rest _ hstr hstops _ _ hops => ?_⟩
  have hstops := hstops.mono (Tier.exit_mono htier)
  have hoperand : Derives (.expr power e') (ts ++ rest) rest :=
    hread power rest hentry hstr hstops _ _ (.operatorsDone (hstops.mono hexit))
  exact .expr (.unary (by rw [ht]; exact hkind) hoperand) hops

theorem derived_compare {more : List (CompareOp × Expr)} (htier : tier.rank ≤ Tier.comparison.rank)
    (hleft : (expr .bitOr left).Derived ts) (hmore : (links more).Derived us) :
    (expr tier (.compare left more span)).Derived (ts ++ us) := by
  obtain ⟨left', hleft', hread⟩ := hleft
  obtain ⟨link, more', hmore', hreads⟩ := hmore
  refine ⟨.compare left' (link :: more') (left'.span.through
    (((link :: more').getLast?.map (·.2)).getD left').span),
    by simp only [Expr.bare, hleft', hmore'],
    fun power rest hpower hstr hstops whole rest' hops => ?_⟩
  have hpower : power ≤ 7 := Nat.le_trans hpower (Tier.entry_mono htier)
  have hlinks := hreads rest hstr (hstops.mono (Tier.exit_mono htier))
  obtain ⟨kind, hkind, htrailer, hcompare⟩ := hlinks.startsComparison
  obtain ⟨hnext, hgrip⟩ := stops_of_comparison Tier.bitOr.exit hkind htrailer hcompare (by decide)
  rw [List.append_assoc]
  exact hread power _ (Nat.le_trans hpower (by decide)) hnext hgrip _ _
    (.operatorsCompare hpower hlinks hops)

theorem items_cons (he : (expr .disjunction e).Derived ts) (hu : u.kind = .comma)
    (hes : (items es).Derived us) : (items (e :: es)).Derived (ts ++ u :: us) := by
  obtain ⟨e', he', hread⟩ := he.ends
  obtain ⟨es', hes', hreads⟩ := hes
  refine ⟨e' :: es', by simp [Expr.bareItems, he', hes'], fun close rest hclose hcloses => ?_⟩
  obtain ⟨hitems, hmore⟩ := hreads close rest hclose hcloses
  have hfirst := hread (u :: (us ++ rest)) (ends_cons hu rfl)
  rw [List.append_assoc]
  have hstart : ahead (ts ++ u :: (us ++ rest)) ≠ some close :=
    hfirst.ahead_ne rfl (by cases close <;> first | rfl | cases hcloses)
  exact ⟨.itemsMore hstart hfirst hu hitems,
    fun t ht => .exprsMore ht hfirst.endsExprList hfirst (hmore u hu)⟩

theorem items_single (he : (expr .disjunction e).Derived ts) : (items [e]).Derived ts := by
  obtain ⟨e', he', hread⟩ := he.ends
  refine ⟨[e'], by simp [Expr.bareItems, he'], fun close rest hclose hcloses => ?_⟩
  have hends : Ends rest := by
    obtain ⟨t, rest, rfl, ht⟩ := exists_of_ahead hclose
    exact ends_cons ht (by cases close <;> first | rfl | cases hcloses)
  have hcomma : ahead rest ≠ some .comma := by
    rw [hclose]
    rintro ⟨⟩
    cases hcloses
  have hfirst := hread rest hends
  have hstart : ahead (ts ++ rest) ≠ some close :=
    hfirst.ahead_ne rfl (by cases close <;> first | rfl | cases hcloses)
  exact ⟨.itemsLast hstart hfirst hcomma,
    fun t ht => .exprsMore ht hfirst.endsExprList hfirst (.exprsDone hcomma)⟩

theorem entries_single (hkey : (expr .disjunction left).Derived ts) (ht : t.kind = .colon)
    (hvalue : (expr .disjunction right).Derived us) :
    (entries [(left, right)]).Derived (ts ++ t :: us) := by
  obtain ⟨key, hkey', hreadKey⟩ := hkey.ends
  obtain ⟨value, hvalue', hreadValue⟩ := hvalue.ends
  refine ⟨[(key, value)], by simp [Expr.bareEntries, hkey', hvalue'], fun rest hrest => ?_⟩
  obtain ⟨close, rest, rfl, hclose⟩ := exists_of_ahead hrest
  have hkey := hreadKey (t :: (us ++ close :: rest)) (ends_cons ht rfl)
  have hvalue := hreadValue (close :: rest) (ends_cons hclose rfl)
  rw [List.append_assoc]
  exact .entriesLast (hkey.ahead_ne rfl rfl) hkey ht hvalue (by simp [hclose])

theorem entries_cons {es : List (Expr × Expr)} (hkey : (expr .disjunction left).Derived ts)
    (ht : t.kind = .colon) (hvalue : (expr .disjunction right).Derived us) (hu : u.kind = .comma)
    (hes : (entries es).Derived vs) :
    (entries ((left, right) :: es)).Derived (ts ++ t :: (us ++ u :: vs)) := by
  obtain ⟨key, hkey', hreadKey⟩ := hkey.ends
  obtain ⟨value, hvalue', hreadValue⟩ := hvalue.ends
  obtain ⟨es', hes', hreads⟩ := hes
  refine ⟨(key, value) :: es', by simp [Expr.bareEntries, hkey', hvalue', hes'],
    fun rest hrest => ?_⟩
  have hkey := hreadKey (t :: (us ++ u :: (vs ++ rest))) (ends_cons ht rfl)
  have hvalue := hreadValue (u :: (vs ++ rest)) (ends_cons hu rfl)
  simpa using Derives.entriesMore (hkey.ahead_ne rfl rfl) hkey ht hvalue hu (hreads rest hrest)

theorem arguments_positional (he : (expr .disjunction e).Derived ts) :
    (arguments [e] []).Derived ts := by
  intro latest hlatest
  cases hlatest (by simp)
  obtain ⟨e', he', hread⟩ := he.ends
  refine ⟨[.positional e'], by simp [Expr.bareItems, Parser.Argument.positional?, he'], rfl,
    fun rest hrest => ?_⟩
  obtain ⟨close, rest, rfl, hclose⟩ := exists_of_ahead hrest
  have he := hread (close :: rest) (ends_cons hclose rfl)
  exact .argumentsLast (he.ahead_ne rfl rfl) (.positional (he.startsKeyword (by simp [hclose])) he)
    (by simp [hclose])

theorem arguments_positional_cons {args : List Expr} {keywords : List (Keyword Expr)}
    (he : (expr .disjunction e).Derived ts) (hu : u.kind = .comma)
    (hargs : (arguments args keywords).Derived us) :
    (arguments (e :: args) keywords).Derived (ts ++ u :: us) := by
  intro latest hlatest
  cases hlatest (by simp)
  obtain ⟨e', he', hread⟩ := he.ends
  obtain ⟨as, hargs', hkeywords', hreads⟩ := hargs none fun _ => rfl
  refine ⟨.positional e' :: as, ?_, hkeywords', fun rest hrest => ?_⟩
  · simp [Expr.bareItems, Parser.Argument.positional?, he', hargs']
  have he := hread (u :: (us ++ rest)) (ends_cons hu rfl)
  rw [List.append_assoc]
  exact .argumentsMore (he.ahead_ne rfl rfl) (.positional (he.startsKeyword (by simp [hu])) he) hu
    (hreads rest hrest)

theorem arguments_keyword {k : Keyword Expr} (ht : t.kind = .ident) (htext : t.text = k.name.text)
    (hu : u.kind = .eq) (hvalue : (expr .disjunction k.value).Derived ts) :
    (arguments [] [k]).Derived (t :: u :: ts) := by
  intro latest _
  obtain ⟨value, hvalue', hread⟩ := hvalue.ends
  refine ⟨[.keyword ⟨t.ident, value, t.span.through value.span⟩], rfl, ?_, fun rest hrest => ?_⟩
  · simp [Expr.bareKeywords, Parser.Argument.keyword?, Ident.bare, Token.ident, hvalue', htext]
  obtain ⟨close, rest, rfl, hclose⟩ := exists_of_ahead hrest
  have hvalue := hread (close :: rest) (ends_cons hclose rfl)
  exact .argumentsLast (by simp [ht]) (.keyword ht hu hvalue) (by simp [hclose])

theorem arguments_keyword_cons {k : Keyword Expr} {keywords : List (Keyword Expr)}
    (ht : t.kind = .ident) (htext : t.text = k.name.text) (hu : u.kind = .eq)
    (hvalue : (expr .disjunction k.value).Derived ts) (hclose : close.kind = .comma)
    (hmore : (arguments [] keywords).Derived us) :
    (arguments [] (k :: keywords)).Derived (t :: u :: (ts ++ close :: us)) := by
  intro latest _
  obtain ⟨value, hvalue', hread⟩ := hvalue.ends
  obtain ⟨as, hargs', hkeywords', hreads⟩ := hmore
    (some ⟨t.ident, value, t.span.through value.span⟩) (absurd rfl)
  refine ⟨.keyword ⟨t.ident, value, t.span.through value.span⟩ :: as, hargs', ?_,
    fun rest hrest => ?_⟩
  · simp [Expr.bareKeywords, Parser.Argument.keyword?, Ident.bare, Token.ident, hvalue', htext,
      hkeywords']
  have hvalue := hread (close :: (us ++ rest)) (ends_cons hclose rfl)
  have hmore : Derives (.arguments latest _) (t :: u :: (ts ++ close :: (us ++ rest))) rest :=
    .argumentsMore (by simp [ht]) (.keyword ht hu hvalue) hclose (hreads rest hrest)
  simpa using hmore

theorem links_single {op : CompareOp} (hop : Spells us op.words)
    (he : (expr .bitOr e).Derived ts) (hts : ∀ rest, ahead (ts ++ rest) ≠ some .kwNot) :
    (links [(op, e)]).Derived (us ++ ts) := by
  obtain ⟨e', he', hread⟩ := he
  refine ⟨(op, e'), [], by simp [Expr.bareLinks, he'], fun rest hstr hstops => ?_⟩
  have he : Derives (.expr Power.comparison.right e') (ts ++ rest) rest :=
    hread _ rest (by decide) hstr (hstops.mono (by decide)) _ _
      (.operatorsDone (hstops.mono (by decide)))
  rw [List.append_assoc]
  exact .linksMore (CompareOp.derives_of_spells hop (hts rest)) he
    (.linksDone hstops.startsComparison)

theorem links_cons {op : CompareOp} {more : List (CompareOp × Expr)} (hop : Spells us op.words)
    (he : (expr .bitOr e).Derived ts) (hts : ∀ rest, ahead (ts ++ rest) ≠ some .kwNot)
    (hmore : (links more).Derived vs) : (links ((op, e) :: more)).Derived (us ++ (ts ++ vs)) := by
  obtain ⟨e', he', hread⟩ := he
  obtain ⟨link, more', hmore', hreads⟩ := hmore
  refine ⟨(op, e'), link :: more', ?_, fun rest hstr hstops => ?_⟩
  · rw [Expr.bareLinks, he', hmore', Expr.bareLinks]
  have hmore := hreads rest hstr hstops
  obtain ⟨kind, hkind, htrailer, hcompare⟩ := hmore.startsComparison
  obtain ⟨hnext, hgrip⟩ := stops_of_comparison Power.comparison.right hkind htrailer hcompare
    (by decide)
  have he : Derives (.expr Power.comparison.right e') (ts ++ (vs ++ rest)) (vs ++ rest) :=
    hread _ _ (by decide) hnext (hgrip.mono (by decide)) _ _ (.operatorsDone hgrip)
  have hlinks := Derives.linksMore (CompareOp.derives_of_spells hop (hts (vs ++ rest))) he hmore
  simpa using hlinks

end rules

theorem ahead_ne_of_writes {ws : List Word} (h : (expr .bitOr e).Writes ws) (hts : Spells ts ws)
    (rest : List Token) : ahead (ts ++ rest) ≠ some .kwNot := by
  obtain ⟨w, ws', rfl, hw⟩ := h.head _ _ rfl (by decide)
  obtain ⟨t, us, rfl, rfl, -⟩ := List.map_eq_cons_iff.mp hts
  simpa [Token.word] using hw

theorem Writes.derived {f : Form} {ws : List Word} (h : f.Writes ws) :
    ∀ ts, Spells ts ws → f.Derived ts := by
  induction h with
  | @name _ ident =>
      intro ts hts
      obtain ⟨t, us, rfl, ht, htext, hus⟩ := hts.leaf_inv rfl
      cases hus.eq_nil
      refine derived_of_operand (.name t.ident) ?_ fun rest _ => .name ht
      simp [Expr.bare, Ident.bare, Token.ident, htext]
  | @number _ value _ _ hvalue =>
      intro ts hts
      obtain ⟨t, us, rfl, ht, rfl, hus⟩ := hts.leaf_inv rfl
      cases hus.eq_nil
      exact derived_of_operand (.number value t.span) rfl fun rest _ => .number ht hvalue
  | @text _ value _ _ hvalue =>
      intro ts hts
      obtain ⟨t, us, rfl, ht, rfl, hus⟩ := hts.leaf_inv rfl
      cases hus.eq_nil
      exact derived_of_operand (.text value t.span) rfl
        fun rest hstr => .text ht hvalue (.done hstr)
  | parens _ ih =>
      intro ts hts
      obtain ⟨t, us, rfl, ht, hus⟩ := hts.sign_inv
      obtain ⟨us, close, rfl, hus, hclose⟩ := hus.last_inv
      exact derived_parens ht (ih us hus) hclose
  | unit =>
      intro ts hts
      obtain ⟨t, us, rfl, ht, hus⟩ := hts.sign_inv
      obtain ⟨close, us, rfl, hclose, hus⟩ := hus.sign_inv
      cases hus.eq_nil
      exact derived_of_operand (.tuple [] (t.span.through close.span)) rfl
        fun rest _ => .unit ht hclose
  | single _ ih =>
      intro ts hts
      obtain ⟨t, us, rfl, ht, hus⟩ := hts.sign_inv
      obtain ⟨us, u, vs, rfl, hfirst, hu, hvs⟩ := hus.separated_inv
      obtain ⟨close, vs, rfl, hclose, hvs⟩ := hvs.sign_inv
      cases hvs.eq_nil
      exact derived_single ht (ih us hfirst) hu hclose
  | tuple _ _ ihe ihes =>
      intro ts hts
      obtain ⟨t, us, rfl, ht, hus⟩ := hts.sign_inv
      obtain ⟨us, u, vs, rfl, hfirst, hu, hvs⟩ := hus.separated_inv
      obtain ⟨vs, close, rfl, hmore, hclose⟩ := hvs.last_inv
      exact derived_tuple ht (ihe us hfirst) hu (ihes vs hmore) hclose
  | emptyList =>
      intro ts hts
      obtain ⟨t, us, rfl, ht, hus⟩ := hts.sign_inv
      obtain ⟨close, us, rfl, hclose, hus⟩ := hus.sign_inv
      cases hus.eq_nil
      exact derived_of_operand (.list [] (t.span.through close.span)) rfl
        fun rest _ => .list ht (.itemsDone (by simp [hclose])) hclose
  | list _ ih =>
      intro ts hts
      obtain ⟨t, us, rfl, ht, hus⟩ := hts.sign_inv
      obtain ⟨us, close, rfl, hus, hclose⟩ := hus.last_inv
      exact derived_list ht (ih us hus) hclose
  | emptyDict =>
      intro ts hts
      obtain ⟨t, us, rfl, ht, hus⟩ := hts.sign_inv
      obtain ⟨close, us, rfl, hclose, hus⟩ := hus.sign_inv
      cases hus.eq_nil
      exact derived_of_operand (.dict [] (t.span.through close.span)) rfl
        fun rest _ => .dict ht (.entriesDone (by simp [hclose])) hclose
  | dict _ ih =>
      intro ts hts
      obtain ⟨t, us, rfl, ht, hus⟩ := hts.sign_inv
      obtain ⟨us, close, rfl, hus, hclose⟩ := hus.last_inv
      exact derived_dict ht (ih us hus) hclose
  | member _ ih =>
      intro ts hts
      obtain ⟨us, t, vs, rfl, hus, ht, hvs⟩ := hts.separated_inv
      obtain ⟨u, vs, rfl, hu, hattr, hvs⟩ := hvs.leaf_inv rfl
      cases hvs.eq_nil
      exact derived_member (ih us hus) ht hu hattr
  | subscript _ _ ihvalue ihindex =>
      intro ts hts
      obtain ⟨us, t, vs, rfl, hus, ht, hvs⟩ := hts.separated_inv
      obtain ⟨vs, close, rfl, hvs, hclose⟩ := hvs.last_inv
      exact derived_subscript (ihvalue us hus) ht (ihindex vs hvs) hclose
  | emptyCall _ ih =>
      intro ts hts
      obtain ⟨us, t, vs, rfl, hus, ht, hvs⟩ := hts.separated_inv
      obtain ⟨close, vs, rfl, hclose, hvs⟩ := hvs.sign_inv
      cases hvs.eq_nil
      exact derived_of_trailer (ih us hus) fun callee hcallee =>
        ⟨.call callee [] [] (callee.span.through close.span), by simp [Expr.bare, hcallee],
          fun rest => .call ht (.argumentsDone (by simp [hclose])) hclose⟩
  | call _ _ ihcallee ihargs =>
      intro ts hts
      obtain ⟨us, t, vs, rfl, hus, ht, hvs⟩ := hts.separated_inv
      obtain ⟨vs, close, rfl, hvs, hclose⟩ := hvs.last_inv
      exact derived_call (ihcallee us hus) ht (ihargs vs hvs) hclose
  | binary htier _ _ ihleft ihright =>
      intro ts hts
      obtain ⟨us, t, vs, rfl, hus, ht, hvs⟩ := hts.separated_inv
      exact derived_binary htier (ihleft us hus) ht (ihright vs hvs)
  | unary htier _ ih =>
      intro ts hts
      obtain ⟨t, us, rfl, ht, hus⟩ := hts.sign_inv
      exact derived_unary htier ht (ih us hus)
  | compare htier _ _ ihleft ihmore =>
      intro ts hts
      obtain ⟨us, vs, rfl, hus, hvs⟩ := hts.append_inv
      exact derived_compare htier (ihleft us hus) (ihmore vs hvs)
  | itemsLast _ ih => exact fun ts hts => items_single (ih ts hts)
  | itemsMore _ _ ihe ihes =>
      intro ts hts
      obtain ⟨us, t, vs, rfl, hus, ht, hvs⟩ := hts.separated_inv
      exact items_cons (ihe us hus) ht (ihes vs hvs)
  | entriesLast _ _ ihkey ihvalue =>
      intro ts hts
      obtain ⟨us, t, vs, rfl, hus, ht, hvs⟩ := hts.separated_inv
      exact entries_single (ihkey us hus) ht (ihvalue vs hvs)
  | entriesMore _ _ _ ihkey ihvalue ihes =>
      intro ts hts
      obtain ⟨us, t, vs, rfl, hus, ht, hvs⟩ := hts.separated_inv
      obtain ⟨vs, u, xs, rfl, hvalue, hu, hxs⟩ := hvs.separated_inv
      exact entries_cons (ihkey us hus) ht (ihvalue vs hvalue) hu (ihes xs hxs)
  | positionalLast _ ih => exact fun ts hts => arguments_positional (ih ts hts)
  | positionalMore _ _ ihe ihmore =>
      intro ts hts
      obtain ⟨us, t, vs, rfl, hus, ht, hvs⟩ := hts.separated_inv
      exact arguments_positional_cons (ihe us hus) ht (ihmore vs hvs)
  | keywordLast _ ih =>
      intro ts hts
      obtain ⟨t, us, rfl, ht, htext, hus⟩ := hts.leaf_inv rfl
      obtain ⟨u, us, rfl, hu, hus⟩ := hus.sign_inv
      exact arguments_keyword ht htext hu (ih us hus)
  | keywordMore _ _ ihvalue ihmore =>
      intro ts hts
      obtain ⟨t, us, rfl, ht, htext, hus⟩ := hts.leaf_inv rfl
      obtain ⟨u, us, rfl, hu, hus⟩ := hus.sign_inv
      obtain ⟨us, comma, vs, rfl, hvalue, hcomma, hvs⟩ := hus.separated_inv
      exact arguments_keyword_cons ht htext hu (ihvalue us hvalue) hcomma (ihmore vs hvs)
  | linksLast he ih =>
      intro ts hts
      obtain ⟨us, vs, rfl, hus, hvs⟩ := hts.append_inv
      exact links_single hus (ih vs hvs) (ahead_ne_of_writes he hvs)
  | linksMore he _ ihe ihmore =>
      intro ts hts
      obtain ⟨us, vs, rfl, hus, hvs⟩ := hts.append_inv
      obtain ⟨vs, xs, rfl, hvs, hxs⟩ := hvs.append_inv
      exact links_cons hus (ihe vs hvs) (ahead_ne_of_writes he hvs) (ihmore xs hxs)

end Form

theorem expr_of_spells {e : Expr} {ws : List Word} (he : (Form.expr .disjunction e).Writes ws)
    {tokens : List Token} (htokens : Spells tokens ws) {rest : List Token} (hrest : Ends rest)
    {bound : Nat} (hbound : tokens.length < bound) (eof : Span) :
    ∃ e', Parser.expr bound 0 eof (tokens ++ rest) = .ok (e', rest) ∧ e'.bare = e.bare := by
  obtain ⟨e', he', hread⟩ := (he.derived tokens htokens).ends
  refine ⟨e', (hread rest hrest).reads bound eof ?_, he'⟩
  simp only [List.length_append]
  omega

/-- An expression that is written with the fewest parentheses the table of tiers allows, and ends
with its line, is read as itself. Operators hold their operands as the table says. -/
theorem expr_of_words (s : Spelling) {e : Expr} (he : e.wellFormed (fun _ => true) = true)
    {tokens : List Token}
    (htokens : Spells tokens (e.words s .disjunction)) {newline : Token}
    (hnewline : newline.kind = .newline) (rest : List Token) {bound : Nat}
    (hbound : tokens.length < bound) (eof : Span) :
    ∃ e', Parser.expr bound 0 eof (tokens ++ newline :: rest) = .ok (e', newline :: rest) ∧
      e'.bare = e.bare :=
  expr_of_spells (Expr.writes_words s e .disjunction he) htokens
    (ends_cons hnewline rfl) hbound eof

def Word.token (w : Word) : Token := ⟨w.kind, default, w.text⟩

/-- The tree of `not (a < 1) < -b ** -"c" * (2 + d.f)`. -/
def nestedOperators : Expr :=
  .unary .not
    (.compare (.compare (.name ⟨"a", default⟩) [(.lt, .number 1 default)] default)
      [(.lt, .binary .mul
        (.unary .neg (.binary .pow (.name ⟨"b", default⟩)
          (.unary .neg (.text "c" default) default) default) default)
        (.binary .add (.number 2 default) (.member (.name ⟨"d", default⟩) ⟨"f", default⟩ default)
          default) default)] default) default

theorem expr_of_words_nestedOperators :
    (nestedOperators.words .standard .disjunction).map Word.kind =
      [.kwNot, .lparen, .ident, .lt, .int, .rparen, .lt, .minus, .ident, .starStar, .minus, .str,
        .star, .lparen, .int, .plus, .ident, .dot, .ident, .rparen] ∧
    ∃ e', Parser.expr 21 0 default ((nestedOperators.words .standard .disjunction).map Word.token ++
        [(Word.sign .newline).token]) = .ok (e', [(Word.sign .newline).token]) ∧
      e'.bare = nestedOperators.bare := by
  refine ⟨by decide, expr_of_words .standard (by decide) ?_ rfl [] (by decide) default⟩
  unfold Spells
  decide

end P16
