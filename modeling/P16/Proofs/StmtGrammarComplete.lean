import Mathlib.Data.List.TakeDrop
import P16.Proofs.GrammarComplete
import P16.Proofs.StmtGrammarSound

/-!
# Every statement that is derived is read

With the converse, the parser accepts a list of tokens exactly if the grammar derives a module from
it, and returns the module that is derived.
-/

namespace P16

section progress

theorem MoreName.length_le {name whole : DottedName} {ts rest : List Token}
    (h : MoreName name whole ts rest) : rest.length ≤ ts.length := by
  induction h with
  | done => exact Nat.le_refl _
  | more _ _ _ ih =>
      simp only [List.length_cons]
      omega

theorem DottedName.Derives.length_lt {name : DottedName} {ts rest : List Token}
    (h : name.Derives ts rest) : rest.length < ts.length := by
  obtain ⟨t, ts', rfl, -, hmore⟩ := h
  exact Nat.lt_succ_of_le hmore.length_le

theorem ImportName.Derives.length_lt {name : ImportName} {ts rest : List Token}
    (h : name.Derives ts rest) : rest.length < ts.length := by
  cases h with
  | plain hpath _ => exact hpath.length_lt
  | renamed hpath _ _ =>
      have := hpath.length_lt
      simp only [List.length_cons] at this
      omega

theorem ImportNames.length_lt {names : List ImportName} {ts rest : List Token}
    (h : ImportNames names ts rest) : rest.length < ts.length := by
  induction h with
  | last hname _ => exact hname.length_lt
  | more hname _ _ ih =>
      have := hname.length_lt
      simp only [List.length_cons] at this
      omega

theorem Params.length_le {params : List Ident} {ts rest : List Token} (h : Params params ts rest) :
    rest.length ≤ ts.length := by
  induction h with
  | done => exact Nat.le_refl _
  | last => exact Nat.le_succ _
  | more _ _ _ ih =>
      simp only [List.length_cons]
      omega

theorem LineEnd.length_le {ts rest : List Token} (h : LineEnd ts rest) :
    rest.length ≤ ts.length := by
  cases h with
  | newline => exact Nat.le_succ _
  | block => exact Nat.le_refl _

theorem BlockEnd.length_le {ts rest : List Token} (h : BlockEnd ts rest) :
    rest.length ≤ ts.length := by
  cases h with
  | dedent => exact Nat.le_succ _
  | none => exact Nat.le_refl _

theorem length_le_of_span {p : Token → Bool} {ts skipped rest : List Token}
    (h : ts.span p = (skipped, rest)) : rest.length ≤ ts.length := by
  rw [List.span_eq_takeWhile_dropWhile, Prod.mk.injEq] at h
  rw [← h.2]
  exact (List.dropWhile_suffix p).length_le

namespace Clause

def least : Clause → Nat
  | simple _ | line _ | targets _ | suite .. | stmt _ => 1
  | _ => 0

theorem Derives.length_le {c : Clause} {ts rest : List Token} (h : c.Derives ts rest) :
    rest.length + c.least ≤ ts.length := by
  induction h with
  | assignedMore _ hside _ ih =>
      have := hside.length_le
      simp only [least, Phrase.least, List.length_cons] at *
      omega
  | giveBack _ _ hvalue =>
      have := hvalue.length_le
      simp only [least, Phrase.least, List.length_cons] at *
      omega
  | importNames _ hnames =>
      have := hnames.length_lt
      simp only [least, List.length_cons] at *
      omega
  | importFrom _ hname _ hskipped =>
      have := hname.length_lt
      have := length_le_of_span hskipped
      simp only [least, List.length_cons] at *
      omega
  | augAssign _ htarget _ hvalue =>
      have := htarget.length_le
      have := hvalue.length_le
      simp only [least, Phrase.least, List.length_cons] at *
      omega
  | sides _ hfirst _ _ ih =>
      have := hfirst.length_le
      simp only [least, Phrase.least] at *
      omega
  | line _ _ hend ihs ihss =>
      have := hend.length_le
      simp only [least] at *
      omega
  | decoratorsMore _ he _ _ ih =>
      have := he.length_le
      simp only [least, Phrase.least, List.length_cons] at *
      omega
  | targetsLast he _ =>
      have := he.length_le
      simp only [least, Phrase.least] at *
      omega
  | targetsMore he _ _ ih =>
      have := he.length_le
      simp only [least, Phrase.least, List.length_cons] at *
      omega
  | suiteBlock _ _ _ _ hend ih =>
      have := hend.length_le
      simp only [least, List.length_cons] at *
      omega
  | branchesMore _ htest _ _ ihbody ihmore =>
      have := htest.length_le
      simp only [least, Phrase.least, List.length_cons] at *
      omega
  | define _ _ _ _ _ hparams _ _ ihmarks ihbody =>
      have := hparams.length_le
      simp only [least, List.length_cons] at *
      omega
  | whileLoop _ htest _ _ ih =>
      have := htest.length_le
      simp only [least, Phrase.least, List.length_cons] at *
      omega
  | conditional _ htest _ _ _ ihbody ihmore =>
      have := htest.length_le
      simp only [least, Phrase.least, List.length_cons] at *
      omega
  | conditionalElse _ htest _ _ _ _ ihbody ihmore ihelse =>
      have := htest.length_le
      simp only [least, Phrase.least, List.length_cons] at *
      omega
  | iteration _ _ _ hsource _ ihes ihbody =>
      have := hsource.length_le
      simp only [least, Phrase.least, List.length_cons] at *
      omega
  | classWithParents _ _ _ hparents _ _ ih =>
      have := hparents.length_le
      simp only [least, Phrase.least, List.length_cons] at *
      omega
  | _ =>
      simp only [least, List.length_cons] at *
      omega

end Clause

end progress

namespace Parser

variable {eof : Span} {t u : Token} {ts mid mid' rest : List Token} {bound rounds : Nat}

section names

theorem dottedNameTail_of_moreName {name whole : DottedName} (h : MoreName name whole ts rest)
    (hrounds : ts.length < rounds + rest.length) :
    dottedNameTail rounds name eof ts = .ok (whole, rest) := by
  induction h generalizing rounds with
  | done hrest =>
      cases rounds with
      | zero => omega
      | succ rounds =>
          rw [dottedNameTail, bind_run (accept_of_ahead hrest)]
          rfl
  | more ht hu hmore ih =>
      have := hmore.length_le
      simp only [List.length_cons] at hrounds
      cases rounds with
      | zero => omega
      | succ rounds =>
          rw [dottedNameTail, bind_run (accept_of_kind ht)]
          simp only [↓reduceIte]
          rw [bind_run (ident_of_kind hu)]
          exact ih (by omega)

theorem dottedName_of_derives {name : DottedName} (h : name.Derives ts rest)
    (hbound : ts.length ≤ bound + rest.length) : dottedName bound eof ts = .ok (name, rest) := by
  obtain ⟨t, ts', rfl, ht, hmore⟩ := h
  simp only [List.length_cons] at hbound
  rw [dottedName, bind_run (ident_of_kind ht)]
  exact dottedNameTail_of_moreName hmore (by omega)

theorem importName_of_derives {name : ImportName} (h : name.Derives ts rest)
    (hbound : ts.length ≤ bound + rest.length) : importName bound eof ts = .ok (name, rest) := by
  cases h with
  | plain hpath hrest =>
      rw [importName, bind_run (dottedName_of_derives hpath hbound),
        bind_run (accept_of_ahead hrest)]
      rfl
  | renamed hpath ht hu =>
      rw [importName,
        bind_run (dottedName_of_derives hpath (by simp only [List.length_cons]; omega)),
        bind_run (accept_of_kind ht)]
      simp only [↓reduceIte]
      rw [bind_run (ident_of_kind hu)]
      rfl

section lists

variable {α : Type} {item : Parser α} {a : α} {as : List α}

theorem listOf_last (hitem : item eof ts = .ok (a, rest)) (hrest : ahead rest ≠ some .comma) :
    listOf item (rounds + 1) eof ts = .ok ([a], rest) := by
  rw [listOf, bind_run hitem, bind_run (accept_of_ahead hrest)]
  rfl

theorem listOf_more (hitem : item eof ts = .ok (a, t :: mid)) (ht : t.kind = .comma)
    (hmore : listOf item rounds eof mid = .ok (as, rest)) :
    listOf item (rounds + 1) eof ts = .ok (a :: as, rest) := by
  rw [listOf, bind_run hitem, bind_run (accept_of_kind ht)]
  simp only [↓reduceIte]
  rw [bind_run hmore]
  rfl

end lists

theorem importNames_of_derives {names : List ImportName} (h : ImportNames names ts rest)
    (hbound : ts.length ≤ bound + rest.length) (hrounds : ts.length < rounds + rest.length) :
    listOf (importName bound) rounds eof ts = .ok (names, rest) := by
  induction h generalizing rounds with
  | last hname hrest =>
      have := hname.length_lt
      cases rounds with
      | zero => omega
      | succ rounds => exact listOf_last (importName_of_derives hname hbound) hrest
  | more hname ht hnames ih =>
      have := hname.length_lt
      have := hnames.length_lt
      simp only [List.length_cons] at *
      cases rounds with
      | zero => omega
      | succ rounds =>
          exact listOf_more
            (importName_of_derives hname (by simp only [List.length_cons]; omega)) ht
            (ih (by omega) (by omega))

theorem params_of_derives {params : List Ident} (h : Params params ts rest)
    (hrounds : ts.length < rounds + rest.length) :
    listUntil .rparen ident rounds eof ts = .ok (params, rest) := by
  induction h generalizing rounds with
  | done hrest =>
      cases rounds with
      | zero => omega
      | succ rounds => exact listUntil_done hrest
  | last ht hrest =>
      simp only [List.length_cons] at hrounds
      cases rounds with
      | zero => omega
      | succ rounds => exact listUntil_last (by simp [ht]) (ident_of_kind ht) hrest
  | more ht hu hparams ih =>
      have := hparams.length_le
      simp only [List.length_cons] at hrounds
      cases rounds with
      | zero => omega
      | succ rounds => exact listUntil_more (by simp [ht]) (ident_of_kind ht) hu (ih (by omega))

end names

section steps

variable {e value : Expr} {es : List Expr} {s : Stmt} {ss more : List Stmt} {stop : Span}
  {inner : Parser (List Stmt)}

theorem assignedTail_done (h : ahead ts ≠ some .eq) :
    assignedTail bound (rounds + 1) eof ts = .ok ([], ts) := by
  rw [assignedTail, bind_run (accept_of_ahead h)]
  rfl

theorem assignedTail_more (ht : t.kind = .eq)
    (he : exprList (expr bound 0) bound eof ts = .ok (e, mid))
    (hes : assignedTail bound rounds eof mid = .ok (es, rest)) :
    assignedTail bound (rounds + 1) eof (t :: ts) = .ok (e :: es, rest) := by
  rw [assignedTail, bind_run (accept_of_kind ht)]
  simp only [↓reduceIte]
  rw [bind_run he, bind_run hes]
  rfl

theorem simpleStmt_of_exprStmt (h : ∀ kind ∈ ahead ts, kind.startsKeywordStmt = false) :
    simpleStmt bound eof ts = exprStmt bound eof ts := by
  rw [simpleStmt, peekKind_bind]
  cases hk : ahead ts with
  | none => rfl
  | some kind =>
      have hkind := h kind hk
      cases kind <;> first | rfl | cases hkind

theorem returnStmt_nothing (ht : t.kind = .kwReturn) (hts : atSimpleEnd (ahead ts) = true) :
    returnStmt bound eof (t :: ts) = .ok (.giveBack none t.span, ts) := by
  rw [returnStmt, bind_run (expect_of_kind ht), peekKind_bind]
  simp only [hts, ↓reduceIte]
  rfl

theorem returnStmt_value (ht : t.kind = .kwReturn) (hts : atSimpleEnd (ahead ts) = false)
    (he : exprList (expr bound 0) bound eof ts = .ok (e, rest)) :
    returnStmt bound eof (t :: ts) =
      .ok (.giveBack (some e) (t.span.through e.span), rest) := by
  rw [returnStmt, bind_run (expect_of_kind ht), peekKind_bind]
  simp only [hts, Bool.false_eq_true, ↓reduceIte]
  rw [bind_run he]
  rfl

theorem fromStmt_run {name : DottedName} {skipped : List Token} (ht : t.kind = .kwFrom)
    (hname : dottedName bound eof ts = .ok (name, u :: mid)) (hu : u.kind = .kwImport)
    (hskipped : mid.span (fun token => !atSimpleEnd (some token.kind)) = (skipped, rest)) :
    fromStmt bound eof (t :: ts) = .ok (.unsupported .importFrom
      (t.span.through ((skipped.getLast?.map Token.span).getD t.span)), rest) := by
  have hget : (get : Parser (List Token)) eof mid = .ok (mid, mid) := rfl
  rw [fromStmt, bind_run (expect_of_kind ht)]
  dsimp only
  rw [bind_run hname, bind_run (expect_of_kind hu), bind_run hget, hskipped]
  rfl

theorem exprStmt_augmented {op : BinaryOp}
    (he : exprList (expr bound 0) bound eof ts = .ok (e, t :: mid))
    (ht : BinaryOp.ofAugmented? t.kind = some op)
    (hvalue : expr bound 0 eof mid = .ok (value, rest)) :
    exprStmt bound eof ts = .ok (.augAssign e op value (e.span.through value.span), rest) := by
  rw [exprStmt, bind_run he, peekKind_bind, ahead_cons]
  simp only [Option.bind_some, ht]
  rw [bind_run skip_cons, bind_run hvalue]
  rfl

theorem exprStmt_sides (he : exprList (expr bound 0) bound eof ts = .ok (e, mid))
    (hmid : (ahead mid).bind BinaryOp.ofAugmented? = none)
    (hes : assignedTail bound bound eof mid = .ok (es, rest)) :
    exprStmt bound eof ts = .ok (.ofSides e es, rest) := by
  rw [exprStmt, bind_run he, peekKind_bind]
  simp only [hmid]
  rw [bind_run hes, Stmt.ofSides]
  cases es.getLast? <;> rfl

theorem simpleStmtsTail_done (h : ahead ts ≠ some .semi) :
    simpleStmtsTail bound (rounds + 1) eof ts = .ok ([], ts) := by
  rw [simpleStmtsTail, bind_run (accept_of_ahead h)]
  rfl

theorem simpleStmtsTail_semi (ht : t.kind = .semi)
    (hts : ahead ts = none ∨ ahead ts = some .newline) :
    simpleStmtsTail bound (rounds + 1) eof (t :: ts) = .ok ([], ts) := by
  rw [simpleStmtsTail, bind_run (accept_of_kind ht)]
  simp only [↓reduceIte]
  rw [peekKind_bind]
  rcases hts with hts | hts <;> (simp only [hts]; rfl)

theorem simpleStmtsTail_more (ht : t.kind = .semi)
    (hts : ahead ts ≠ none ∧ ahead ts ≠ some .newline) (hs : simpleStmt bound eof ts = .ok (s, mid))
    (hss : simpleStmtsTail bound rounds eof mid = .ok (ss, rest)) :
    simpleStmtsTail bound (rounds + 1) eof (t :: ts) = .ok (s :: ss, rest) := by
  rw [simpleStmtsTail, bind_run (accept_of_kind ht)]
  simp only [↓reduceIte]
  rw [peekKind_bind]
  have hgo : (simpleStmt bound >>= fun first => simpleStmtsTail bound rounds >>= fun more =>
      (return first :: more : Parser (List Stmt))) eof ts = .ok (s :: ss, rest) := by
    rw [bind_run hs, bind_run hss]
    rfl
  cases hk : ahead ts with
  | none => exact absurd hk hts.1
  | some kind => cases kind <;> first | exact hgo | exact absurd hk hts.2

theorem lineEnd_run (h : LineEnd ts rest) : lineEnd eof ts = .ok ((), rest) := by
  unfold lineEnd
  rw [peekKind_bind]
  cases h with
  | newline ht =>
      simp only [ahead_cons, ht]
      rfl
  | block hts => rcases hts with hts | hts <;> (simp only [hts]; rfl)

theorem simpleStmts_run (hs : simpleStmt bound eof ts = .ok (s, mid))
    (hss : simpleStmtsTail bound bound eof mid = .ok (ss, mid')) (hend : LineEnd mid' rest) :
    simpleStmts bound eof ts = .ok (s :: ss, rest) := by
  rw [simpleStmts, bind_run hs, bind_run hss, bind_run (lineEnd_run hend)]
  rfl

theorem decorators_done (h : ahead ts ≠ some .atSign) :
    decorators bound (rounds + 1) eof ts = .ok ([], ts) := by
  rw [decorators, bind_run (accept_of_ahead h)]
  rfl

theorem decorators_more (ht : t.kind = .atSign) (he : expr bound 0 eof ts = .ok (e, u :: mid))
    (hu : u.kind = .newline) (hes : decorators bound rounds eof mid = .ok (es, rest)) :
    decorators bound (rounds + 1) eof (t :: ts) = .ok (e :: es, rest) := by
  rw [decorators, bind_run (accept_of_kind ht)]
  simp only [↓reduceIte]
  rw [bind_run he, bind_run (expect_of_kind hu), bind_run hes]
  rfl

theorem blockStmts_done (h : ahead ts = none ∨ ahead ts = some .dedent) :
    blockStmts inner (rounds + 1) eof ts = .ok ([], ts) := by
  rw [blockStmts, peekKind_bind]
  rcases h with h | h <;> (simp only [h]; rfl)

theorem blockStmts_more (hts : ahead ts ≠ none ∧ ahead ts ≠ some .dedent)
    (hss : inner eof ts = .ok (ss, mid))
    (hmore : blockStmts inner rounds eof mid = .ok (more, rest)) :
    blockStmts inner (rounds + 1) eof ts = .ok (ss ++ more, rest) := by
  rw [blockStmts, peekKind_bind]
  have hgo : (inner >>= fun first => blockStmts inner rounds >>= fun more =>
      (return first ++ more : Parser (List Stmt))) eof ts = .ok (ss ++ more, rest) := by
    rw [bind_run hss, bind_run hmore]
    rfl
  cases hk : ahead ts with
  | none => exact absurd hk hts.1
  | some kind => cases kind <;> first | exact hgo | exact absurd hk hts.2

theorem suite_block {colon : Token} (hcolon : colon.kind = .colon) (ht : t.kind = .newline)
    (hu : u.kind = .indent) (hss : blockStmts inner bound eof ts = .ok (ss, mid))
    (hend : BlockEnd mid rest) :
    suite inner bound eof (colon :: t :: u :: ts) = .ok ((ss, Clause.suiteEnd ss colon), rest) := by
  rw [suite, bind_run (expect_of_kind hcolon), bind_run (accept_of_kind ht)]
  simp only [↓reduceIte]
  rw [bind_run (expect_of_kind hu), bind_run hss]
  cases hend with
  | dedent hd =>
      rw [bind_run (accept_of_kind hd)]
      rfl
  | none hmid =>
      rw [bind_run (accept_of_ahead hmid)]
      rfl

theorem suite_line {colon : Token} (hcolon : colon.kind = .colon) (hts : ahead ts ≠ some .newline)
    (hss : simpleStmts bound eof ts = .ok (ss, rest)) :
    suite inner bound eof (colon :: ts) = .ok ((ss, Clause.suiteEnd ss colon), rest) := by
  rw [suite, bind_run (expect_of_kind hcolon), bind_run (accept_of_ahead hts)]
  simp only [Bool.false_eq_true, ↓reduceIte]
  rw [bind_run hss]
  rfl

theorem elifBranches_done (h : ahead ts ≠ some .kwElif) :
    elifBranches inner bound (rounds + 1) stop eof ts = .ok (stop, ts) := by
  rw [elifBranches, bind_run (accept_of_ahead h)]
  rfl

theorem elifBranches_more {before : Span} (ht : t.kind = .kwElif)
    (he : expr bound 0 eof ts = .ok (e, mid))
    (hss : suite inner bound eof mid = .ok ((ss, stop), mid')) :
    elifBranches inner bound (rounds + 1) before eof (t :: ts) =
      elifBranches inner bound rounds stop eof mid' := by
  rw [elifBranches, bind_run (accept_of_kind ht)]
  simp only [↓reduceIte]
  rw [bind_run he, bind_run hss]

theorem stmt_of_simpleStmts (ht : t.kind.startsCompound = false) :
    stmt (bound + 1) eof (t :: ts) = simpleStmts (bound + 1) eof (t :: ts) := by
  rw [stmt, peekKind_bind, ahead_cons]
  cases hk : t.kind <;> first | rfl | (rw [hk] at ht; cases ht)

section compound

variable {colon name opening close : Token} {between last : Span} {otherwise : List Stmt}
  {mid'' : List Token}

theorem stmt_define {params : List Ident} (ht : t.kind = .atSign ∨ t.kind = .kwDef)
    (hes : decorators (bound + 1) (bound + 1) eof (t :: ts) = .ok (es, u :: name :: opening :: mid))
    (hu : u.kind = .kwDef) (hname : name.kind = .ident) (hopening : opening.kind = .lparen)
    (hparams : listUntil .rparen ident (bound + 1) eof mid = .ok (params, close :: mid'))
    (hclose : close.kind = .rparen)
    (hss : suite (stmt bound) (bound + 1) eof mid' = .ok ((ss, stop), rest)) :
    stmt (bound + 1) eof (t :: ts) =
      .ok ([.define name.ident params es ss (t.span.through stop)], rest) := by
  have hrun : defineStmt (stmt bound) (bound + 1) eof (t :: ts) =
      .ok (.define name.ident params es ss (t.span.through stop), rest) := by
    have hhere : here eof (t :: ts) = .ok (t.span, t :: ts) := rfl
    rw [defineStmt, bind_run hhere, bind_run hes, bind_run (expect_of_kind hu),
      bind_run (ident_of_kind hname), bind_run (expect_of_kind hopening), bind_run hparams,
      bind_run (expect_of_kind hclose), bind_run hss]
    rfl
  rw [stmt, peekKind_bind, ahead_cons]
  rcases ht with ht | ht <;> (simp only [ht]; rw [bind_run hrun]; rfl)

theorem stmt_while (ht : t.kind = .kwWhile) (he : expr (bound + 1) 0 eof ts = .ok (e, mid))
    (hss : suite (stmt bound) (bound + 1) eof mid = .ok ((ss, stop), rest))
    (hrest : ahead rest ≠ some .kwElse) :
    stmt (bound + 1) eof (t :: ts) = .ok ([.whileLoop e ss (t.span.through stop)], rest) := by
  have hrun : whileStmt (stmt bound) (bound + 1) eof (t :: ts) =
      .ok (.whileLoop e ss (t.span.through stop), rest) := by
    rw [whileStmt, bind_run (expect_of_kind ht)]
    dsimp only
    rw [bind_run he, bind_run hss]
    dsimp only
    rw [peekKind_bind]
    simp only [hrest, ↓reduceIte]
    rfl
  rw [stmt, peekKind_bind, ahead_cons]
  simp only [ht]
  rw [bind_run hrun]
  rfl

theorem stmt_if (ht : t.kind = .kwIf) (he : expr (bound + 1) 0 eof ts = .ok (e, mid))
    (hss : suite (stmt bound) (bound + 1) eof mid = .ok ((ss, between), mid'))
    (hbranches : elifBranches (stmt bound) (bound + 1) (bound + 1) between eof mid' =
      .ok (stop, rest)) (hrest : ahead rest ≠ some .kwElse) :
    stmt (bound + 1) eof (t :: ts) =
      .ok ([.unsupported .conditional (t.span.through stop)], rest) := by
  have hrun : ifStmt (stmt bound) (bound + 1) eof (t :: ts) =
      .ok (.unsupported .conditional (t.span.through stop), rest) := by
    rw [ifStmt, bind_run (expect_of_kind ht)]
    dsimp only
    rw [bind_run he, bind_run hss]
    dsimp only
    rw [bind_run hbranches, bind_run (accept_of_ahead hrest)]
    rfl
  rw [stmt, peekKind_bind, ahead_cons]
  simp only [ht]
  rw [bind_run hrun]
  rfl

theorem stmt_ifElse (ht : t.kind = .kwIf) (he : expr (bound + 1) 0 eof ts = .ok (e, mid))
    (hss : suite (stmt bound) (bound + 1) eof mid = .ok ((ss, between), mid'))
    (hbranches : elifBranches (stmt bound) (bound + 1) (bound + 1) between eof mid' =
      .ok (last, u :: mid'')) (hu : u.kind = .kwElse)
    (hotherwise : suite (stmt bound) (bound + 1) eof mid'' = .ok ((otherwise, stop), rest)) :
    stmt (bound + 1) eof (t :: ts) =
      .ok ([.unsupported .conditional (t.span.through stop)], rest) := by
  have hrun : ifStmt (stmt bound) (bound + 1) eof (t :: ts) =
      .ok (.unsupported .conditional (t.span.through stop), rest) := by
    rw [ifStmt, bind_run (expect_of_kind ht)]
    dsimp only
    rw [bind_run he, bind_run hss]
    dsimp only
    rw [bind_run hbranches, bind_run (accept_of_kind hu)]
    simp only [↓reduceIte]
    rw [bind_run hotherwise]
    rfl
  rw [stmt, peekKind_bind, ahead_cons]
  simp only [ht]
  rw [bind_run hrun]
  rfl

theorem stmt_for (ht : t.kind = .kwFor)
    (hes : listOf (expr (bound + 1) Power.loopTarget) (bound + 1) eof ts = .ok (es, u :: mid))
    (hu : u.kind = .kwIn) (he : exprList (expr (bound + 1) 0) (bound + 1) eof mid = .ok (e, mid'))
    (hss : suite (stmt bound) (bound + 1) eof mid' = .ok ((ss, stop), rest)) :
    stmt (bound + 1) eof (t :: ts) =
      .ok ([.unsupported .iteration (t.span.through stop)], rest) := by
  have hrun : forStmt (stmt bound) (bound + 1) eof (t :: ts) =
      .ok (.unsupported .iteration (t.span.through stop), rest) := by
    rw [forStmt, bind_run (expect_of_kind ht)]
    dsimp only
    rw [bind_run hes, bind_run (expect_of_kind hu), bind_run he, bind_run hss]
    rfl
  rw [stmt, peekKind_bind, ahead_cons]
  simp only [ht]
  rw [bind_run hrun]
  rfl

theorem stmt_class (ht : t.kind = .kwClass) (hname : name.kind = .ident)
    (hts : ahead ts ≠ some .lparen)
    (hss : suite (stmt bound) (bound + 1) eof ts = .ok ((ss, stop), rest)) :
    stmt (bound + 1) eof (t :: name :: ts) =
      .ok ([.unsupported .classDefinition (t.span.through stop)], rest) := by
  have hrun : classStmt (stmt bound) (bound + 1) eof (t :: name :: ts) =
      .ok (.unsupported .classDefinition (t.span.through stop), rest) := by
    rw [classStmt, bind_run (expect_of_kind ht)]
    dsimp only
    rw [bind_run (ident_of_kind hname), bind_run (accept_of_ahead hts)]
    simp only [Bool.false_eq_true, ↓reduceIte]
    rw [bind_run hss]
    rfl
  rw [stmt, peekKind_bind, ahead_cons]
  simp only [ht]
  rw [bind_run hrun]
  rfl

theorem stmt_classWithParents (ht : t.kind = .kwClass) (hname : name.kind = .ident)
    (hopening : opening.kind = .lparen)
    (hes : listUntil .rparen (expr (bound + 1) 0) (bound + 1) eof ts = .ok (es, close :: mid))
    (hclose : close.kind = .rparen)
    (hss : suite (stmt bound) (bound + 1) eof mid = .ok ((ss, stop), rest)) :
    stmt (bound + 1) eof (t :: name :: opening :: ts) =
      .ok ([.unsupported .classDefinition (t.span.through stop)], rest) := by
  have hrun : classStmt (stmt bound) (bound + 1) eof (t :: name :: opening :: ts) =
      .ok (.unsupported .classDefinition (t.span.through stop), rest) := by
    rw [classStmt, bind_run (expect_of_kind ht)]
    dsimp only
    rw [bind_run (ident_of_kind hname), bind_run (accept_of_kind hopening)]
    simp only [↓reduceIte]
    rw [bind_run hes, bind_run (expect_of_kind hclose), bind_run hss]
    rfl
  rw [stmt, peekKind_bind, ahead_cons]
  simp only [ht]
  rw [bind_run hrun]
  rfl

end compound

theorem moduleStmts_newline (ht : t.kind = .newline) :
    moduleStmts bound (rounds + 1) eof (t :: ts) = moduleStmts bound rounds eof ts := by
  rw [moduleStmts, peekKind_bind, ahead_cons]
  simp only [ht]
  rw [bind_run skip_cons]

theorem moduleStmts_more (hts : ahead ts ≠ none ∧ ahead ts ≠ some .newline)
    (hss : stmt bound eof ts = .ok (ss, mid))
    (hmore : moduleStmts bound rounds eof mid = .ok (more, rest)) :
    moduleStmts bound (rounds + 1) eof ts = .ok (ss ++ more, rest) := by
  rw [moduleStmts, peekKind_bind]
  have hgo : (stmt bound >>= fun first => moduleStmts bound rounds >>= fun more =>
      (return first ++ more : Parser (List Stmt))) eof ts = .ok (ss ++ more, rest) := by
    rw [bind_run hss, bind_run hmore]
    rfl
  cases hk : ahead ts with
  | none => exact absurd hk hts.1
  | some kind => cases kind <;> first | exact hgo | exact absurd hk hts.2

end steps

end Parser

namespace Clause

/-- The parser for the clause reads it and leaves `rest`, if its bounds suffice. -/
def Reads : Clause → List Token → List Token → Prop
  | assigned sides, ts, rest => ∀ bound rounds eof, ts.length < bound + rest.length →
      ts.length < rounds + rest.length →
      Parser.assignedTail bound rounds eof ts = .ok (sides, rest)
  | simple s, ts, rest => ∀ bound eof, ts.length < bound + rest.length →
      Parser.simpleStmt bound eof ts = .ok (s, rest)
  | moreSimple ss, ts, rest => ∀ bound rounds eof, ts.length < bound + rest.length →
      ts.length < rounds + rest.length →
      Parser.simpleStmtsTail bound rounds eof ts = .ok (ss, rest)
  | line ss, ts, rest => ∀ bound eof, ts.length < bound + rest.length →
      Parser.simpleStmts bound eof ts = .ok (ss, rest)
  | decorators es, ts, rest => ∀ bound rounds eof, ts.length < bound + rest.length →
      ts.length < rounds + rest.length →
      Parser.decorators bound rounds eof ts = .ok (es, rest)
  | targets es, ts, rest => ∀ bound rounds eof, ts.length < bound + rest.length →
      ts.length < rounds + rest.length →
      Parser.listOf (Parser.expr bound Power.loopTarget) rounds eof ts = .ok (es, rest)
  | block ss, ts, rest => ∀ bound rounds eof, ts.length < bound + rest.length →
      ts.length < rounds + rest.length →
      Parser.blockStmts (Parser.stmt bound) rounds eof ts = .ok (ss, rest)
  -- The statements of a suite are one level below the suite.
  | suite body stop, ts, rest => ∀ bound eof, ts.length ≤ bound + rest.length →
      Parser.suite (Parser.stmt bound) (bound + 1) eof ts = .ok ((body, stop), rest)
  | branches before stop, ts, rest => ∀ bound rounds eof, ts.length ≤ bound + rest.length →
      ts.length < rounds + rest.length →
      Parser.elifBranches (Parser.stmt bound) (bound + 1) rounds before eof ts = .ok (stop, rest)
  | stmt ss, ts, rest => ∀ bound eof, ts.length < bound + rest.length →
      Parser.stmt bound eof ts = .ok (ss, rest)
  | whole ss, ts, rest => ∀ bound rounds eof, ts.length < bound + rest.length →
      ts.length < rounds + rest.length →
      Parser.moduleStmts bound rounds eof ts = .ok (ss, rest)

open P16.Parser in
theorem Derives.reads {c : Clause} {ts rest : List Token} (h : c.Derives ts rest) :
    c.Reads ts rest := by
  induction h with
  | assignedDone hrest =>
      intro bound rounds eof _ hrounds
      cases rounds with
      | zero => omega
      | succ rounds => exact assignedTail_done hrest
  | assignedMore ht hside hsides ih =>
      intro bound rounds eof hbound hrounds
      have := hside.length_le
      have := hsides.length_le
      simp only [List.length_cons, least, Phrase.least] at *
      cases rounds with
      | zero => omega
      | succ rounds =>
          exact assignedTail_more ht (hside.reads bound eof (by omega))
            (ih bound rounds eof (by omega) (by omega))
  | pass ht | breakLoop ht | continueLoop ht =>
      intro bound eof _
      rw [simpleStmt, peekKind_bind, ahead_cons]
      simp only [ht]
      rfl
  | giveBackNothing ht hrest =>
      intro bound eof _
      rw [simpleStmt, peekKind_bind, ahead_cons]
      simp only [ht]
      exact returnStmt_nothing ht hrest
  | giveBack ht hts hvalue =>
      intro bound eof hbound
      simp only [List.length_cons] at hbound
      rw [simpleStmt, peekKind_bind, ahead_cons]
      simp only [ht]
      exact returnStmt_value ht hts (hvalue.reads bound eof (by omega))
  | importNames ht hnames =>
      intro bound eof hbound
      simp only [List.length_cons] at hbound
      rw [simpleStmt, peekKind_bind, ahead_cons]
      simp only [ht]
      rw [importStmt, bind_run (expect_of_kind ht),
        bind_run (importNames_of_derives hnames (by omega) (by omega))]
      rfl
  | importFrom ht hname hu hskipped =>
      intro bound eof hbound
      have := length_le_of_span hskipped
      simp only [List.length_cons] at hbound
      rw [simpleStmt, peekKind_bind, ahead_cons]
      simp only [ht]
      exact fromStmt_run ht
        (dottedName_of_derives hname (by simp only [List.length_cons]; omega)) hu
        hskipped
  | augAssign hts htarget ht hvalue =>
      intro bound eof hbound
      have := htarget.length_le
      have := hvalue.length_le
      simp only [List.length_cons, Phrase.least] at *
      rw [simpleStmt_of_exprStmt hts]
      exact exprStmt_augmented (htarget.reads bound eof (by simp only [List.length_cons]; omega)) ht
        (hvalue.reads bound eof (by omega))
  | sides hts hfirst hmid hsides ih =>
      intro bound eof hbound
      have := hfirst.length_le
      have := hsides.length_le
      simp only [least, Phrase.least] at *
      rw [simpleStmt_of_exprStmt hts]
      exact exprStmt_sides (hfirst.reads bound eof (by omega)) hmid
        (ih bound bound eof (by omega) (by omega))
  | simpleDone hrest =>
      intro bound rounds eof _ hrounds
      cases rounds with
      | zero => omega
      | succ rounds => exact simpleStmtsTail_done hrest
  | simpleSemi ht hrest =>
      intro bound rounds eof _ hrounds
      simp only [List.length_cons] at hrounds
      cases rounds with
      | zero => omega
      | succ rounds => exact simpleStmtsTail_semi ht hrest
  | simpleMore ht hts hs hss ihs ihss =>
      intro bound rounds eof hbound hrounds
      have := hs.length_le
      have := hss.length_le
      simp only [List.length_cons, least] at *
      cases rounds with
      | zero => omega
      | succ rounds =>
          exact simpleStmtsTail_more ht hts (ihs bound eof (by omega))
            (ihss bound rounds eof (by omega) (by omega))
  | line hs hss hend ihs ihss =>
      intro bound eof hbound
      have := hs.length_le
      have := hss.length_le
      have := hend.length_le
      simp only [least] at *
      exact simpleStmts_run (ihs bound eof (by omega)) (ihss bound bound eof (by omega) (by omega))
        hend
  | decoratorsDone hrest =>
      intro bound rounds eof _ hrounds
      cases rounds with
      | zero => omega
      | succ rounds => exact decorators_done hrest
  | decoratorsMore ht he hu hes ih =>
      intro bound rounds eof hbound hrounds
      have := he.length_le
      have := hes.length_le
      simp only [List.length_cons, least, Phrase.least] at *
      cases rounds with
      | zero => omega
      | succ rounds =>
          exact decorators_more ht (he.reads bound eof (by simp only [List.length_cons]; omega)) hu
            (ih bound rounds eof (by omega) (by omega))
  | targetsLast he hrest =>
      intro bound rounds eof hbound hrounds
      have := he.length_le
      cases rounds with
      | zero => omega
      | succ rounds => exact listOf_last (he.reads bound eof hbound) hrest
  | targetsMore he ht hes ih =>
      intro bound rounds eof hbound hrounds
      have := he.length_le
      have := hes.length_le
      simp only [List.length_cons, least, Phrase.least] at *
      cases rounds with
      | zero => omega
      | succ rounds =>
          exact listOf_more (he.reads bound eof (by simp only [List.length_cons]; omega)) ht
            (ih bound rounds eof (by omega) (by omega))
  | blockDone hrest =>
      intro bound rounds eof _ hrounds
      cases rounds with
      | zero => omega
      | succ rounds => exact blockStmts_done hrest
  | blockMore hts hss hmore ihss ihmore =>
      intro bound rounds eof hbound hrounds
      have := hss.length_le
      have := hmore.length_le
      simp only [least] at *
      cases rounds with
      | zero => omega
      | succ rounds =>
          exact blockStmts_more hts (ihss bound eof (by omega))
            (ihmore bound rounds eof (by omega) (by omega))
  | suiteBlock hcolon ht hu hbody hend ih =>
      intro bound eof hbound
      have := hend.length_le
      simp only [List.length_cons] at *
      exact suite_block hcolon ht hu (ih bound (bound + 1) eof (by omega) (by omega)) hend
  | suiteLine hcolon hts hbody ih =>
      intro bound eof hbound
      simp only [List.length_cons] at *
      exact suite_line hcolon hts (ih (bound + 1) eof (by omega))
  | branchesDone hrest =>
      intro bound rounds eof _ hrounds
      cases rounds with
      | zero => omega
      | succ rounds => exact elifBranches_done hrest
  | branchesMore ht htest hbody hmore ihbody ihmore =>
      intro bound rounds eof hbound hrounds
      have := htest.length_le
      have := hbody.length_le
      have := hmore.length_le
      simp only [List.length_cons, least, Phrase.least] at *
      cases rounds with
      | zero => omega
      | succ rounds =>
          rw [elifBranches_more ht (htest.reads (bound + 1) eof (by omega))
            (ihbody bound eof (by omega))]
          exact ihmore bound rounds eof (by omega) (by omega)
  | define ht hmarks hkw hname hopening hparams hclose hbody ihmarks ihbody =>
      intro bound eof hbound
      have := hmarks.length_le
      have := hparams.length_le
      have := hbody.length_le
      simp only [Reads, List.length_cons, least] at *
      cases bound with
      | zero => omega
      | succ bound =>
          exact stmt_define ht (ihmarks (bound + 1) (bound + 1) eof (by omega) (by omega)) hkw hname
            hopening (params_of_derives hparams (by simp only [List.length_cons]; omega)) hclose
            (ihbody bound eof (by omega))
  | whileLoop ht htest hbody hrest ih =>
      intro bound eof hbound
      have := htest.length_le
      have := hbody.length_le
      simp only [List.length_cons, least, Phrase.least] at *
      cases bound with
      | zero => omega
      | succ bound =>
          exact stmt_while ht (htest.reads (bound + 1) eof (by omega)) (ih bound eof (by omega))
            hrest
  | conditional ht htest hbody hbranches hrest ihbody ihbranches =>
      intro bound eof hbound
      have := htest.length_le
      have := hbody.length_le
      have := hbranches.length_le
      simp only [List.length_cons, least, Phrase.least] at *
      cases bound with
      | zero => omega
      | succ bound =>
          exact stmt_if ht (htest.reads (bound + 1) eof (by omega)) (ihbody bound eof (by omega))
            (ihbranches bound (bound + 1) eof (by omega) (by omega)) hrest
  | conditionalElse ht htest hbody hbranches hu hotherwise ihbody ihbranches ihotherwise =>
      intro bound eof hbound
      have := htest.length_le
      have := hbody.length_le
      have := hbranches.length_le
      have := hotherwise.length_le
      simp only [Reads, List.length_cons, least, Phrase.least] at *
      cases bound with
      | zero => omega
      | succ bound =>
          exact stmt_ifElse ht (htest.reads (bound + 1) eof (by omega))
            (ihbody bound eof (by omega))
            (ihbranches bound (bound + 1) eof (by omega) (by omega)) hu
            (ihotherwise bound eof (by omega))
  | iteration ht hes hu hsource hbody ihes ihbody =>
      intro bound eof hbound
      have := hes.length_le
      have := hsource.length_le
      have := hbody.length_le
      simp only [Reads, List.length_cons, least, Phrase.least] at *
      cases bound with
      | zero => omega
      | succ bound =>
          exact stmt_for ht (ihes (bound + 1) (bound + 1) eof (by omega) (by omega)) hu
            (hsource.reads (bound + 1) eof (by omega)) (ihbody bound eof (by omega))
  | classDefinition ht hname hts hbody ih =>
      intro bound eof hbound
      have := hbody.length_le
      simp only [List.length_cons, least] at *
      cases bound with
      | zero => omega
      | succ bound => exact stmt_class ht hname hts (ih bound eof (by omega))
  | classWithParents ht hname hopening hparents hclose hbody ih =>
      intro bound eof hbound
      have := hparents.length_le
      have := hbody.length_le
      simp only [List.length_cons, least, Phrase.least] at *
      cases bound with
      | zero => omega
      | succ bound =>
          exact stmt_classWithParents ht hname hopening
            (hparents.reads (bound + 1) (bound + 1) eof (by simp only [List.length_cons]; omega)
              (by simp only [List.length_cons]; omega)) hclose (ih bound eof (by omega))
  | stmtLine ht hss ih =>
      intro bound eof hbound
      have := hss.length_le
      simp only [List.length_cons, least] at *
      cases bound with
      | zero => omega
      | succ bound =>
          rw [stmt_of_simpleStmts ht]
          exact ih (bound + 1) eof (by simp only [List.length_cons]; omega)
  | wholeDone =>
      intro bound rounds eof _ hrounds
      cases rounds with
      | zero => cases hrounds
      | succ rounds => rfl
  | wholeNewline ht hss ih =>
      intro bound rounds eof hbound hrounds
      simp only [List.length_cons, List.length_nil] at *
      cases rounds with
      | zero => omega
      | succ rounds =>
          rw [moduleStmts_newline ht]
          exact ih bound rounds eof (by simp; omega) (by simp; omega)
  | wholeMore hts hss hmore ihss ihmore =>
      intro bound rounds eof hbound hrounds
      have := hss.length_le
      have := hmore.length_le
      simp only [List.length_nil, least] at *
      cases rounds with
      | zero => omega
      | succ rounds =>
          exact moduleStmts_more hts (ihss bound eof (by omega))
            (ihmore bound rounds eof (by simp; omega) (by simp; omega))

end Clause

theorem parseTokens_iff_derives {eof : Span} {tokens : List Token} {ss : List Stmt} :
    (∃ span, parseTokens eof tokens = .ok ⟨ss, span⟩) ↔ (Clause.whole ss).Derives tokens [] := by
  refine ⟨fun ⟨_, h⟩ => derives_of_parseTokens h, fun h => ?_⟩
  have hrun := h.reads (tokens.length + 1) (tokens.length + 1) eof (by simp) (by simp)
  obtain ⟨start, hstart⟩ : ∃ start, Parser.here eof tokens = .ok (start, tokens) := by
    cases tokens with
    | nil => exact ⟨_, rfl⟩
    | cons t ts => exact ⟨_, rfl⟩
  refine ⟨start.through eof, ?_⟩
  have hwhole : Parser.wholeModule (tokens.length + 1) eof tokens =
      .ok (⟨ss, start.through eof⟩, []) := by
    rw [Parser.wholeModule, Parser.bind_run hstart, Parser.bind_run hrun]
    rfl
  simp only [parseTokens, ReaderT.run, StateT.run, hwhole, Except.map]

end P16
