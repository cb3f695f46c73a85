import P16.Proofs.GrammarSound
import P16.Proofs.StmtGrammar

/-!
# Every statement that is read is derived
-/

namespace P16

namespace Parser

section names

theorem moreName_of_dottedNameTail {bound : Nat} {name whole : DottedName} {eof : Span}
    {ts rest : List Token} (h : dottedNameTail bound name eof ts = .ok (whole, rest)) :
    MoreName name whole ts rest := by
  induction bound generalizing name ts with
  | zero => exact absurd h tooDeep_ne_ok
  | succ bound ih =>
      rw [dottedNameTail] at h
      rcases accept_bind_inv h with ⟨t, ts', rfl, ht, h⟩ | ⟨hts, h⟩
      · simp only [↓reduceIte] at h
        obtain ⟨u, ts', rfl, hu, h⟩ := ident_bind_inv h
        exact .more ht hu (ih h)
      · cases h
        exact .done hts

theorem sound_dottedName (bound : Nat) : (dottedName bound).Sound DottedName.Derives := by
  intro eof ts name rest hrun
  obtain ⟨t, ts', rfl, ht, hrun⟩ := ident_bind_inv hrun
  exact ⟨t, ts', rfl, ht, moreName_of_dottedNameTail hrun⟩

theorem sound_importName (bound : Nat) : (importName bound).Sound ImportName.Derives := by
  intro eof ts name rest hrun
  obtain ⟨path, mid, hpath, hrun⟩ := bind_inv hrun
  have hpath := sound_dottedName bound _ _ _ _ hpath
  rcases accept_bind_inv hrun with ⟨t, mid, rfl, ht, hrun⟩ | ⟨hmid, hrun⟩
  · simp only [↓reduceIte] at hrun
    obtain ⟨u, mid, rfl, hu, hrun⟩ := ident_bind_inv hrun
    cases hrun
    exact .renamed hpath ht hu
  · cases hrun
    exact .plain hpath hmid

theorem sound_importNames (bound rounds : Nat) :
    (listOf (importName bound) rounds).Sound ImportNames := by
  induction rounds with
  | zero => exact fun _ _ _ _ hrun => absurd hrun tooDeep_ne_ok
  | succ rounds ih =>
      intro eof ts names rest hrun
      rw [listOf] at hrun
      obtain ⟨name, mid, hname, hrun⟩ := bind_inv hrun
      have hname := sound_importName bound _ _ _ _ hname
      rcases accept_bind_inv hrun with ⟨t, mid, rfl, ht, hrun⟩ | ⟨hmid, hrun⟩
      · simp only [↓reduceIte] at hrun
        obtain ⟨more, mid', hmore, hrun⟩ := bind_inv hrun
        cases hrun
        exact .more hname ht (ih _ _ _ _ hmore)
      · cases hrun
        exact .last hname hmid

theorem sound_params (bound : Nat) : (listUntil .rparen ident bound).Sound Params := by
  induction bound with
  | zero => exact fun _ _ _ _ hrun => absurd hrun tooDeep_ne_ok
  | succ bound ih =>
      intro eof ts params rest hrun
      rw [listUntil, peekKind_bind] at hrun
      by_cases hclose : ahead ts = some .rparen
      · simp only [hclose, ↓reduceIte] at hrun
        cases hrun
        exact .done hclose
      · simp only [hclose, ↓reduceIte] at hrun
        obtain ⟨t, mid, rfl, ht, hrun⟩ := ident_bind_inv hrun
        rcases accept_bind_inv hrun with ⟨u, mid, rfl, hu, hrun⟩ | ⟨hmid, hrun⟩
        · simp only [↓reduceIte] at hrun
          obtain ⟨more, mid', hmore, hrun⟩ := bind_inv hrun
          cases hrun
          exact .more ht hu (ih _ _ _ _ hmore)
        · cases hrun
          exact .last ht hmid

end names

section simple

theorem sound_side (bound : Nat) :
    (exprList (expr bound 0) bound).Sound fun e => (Phrase.exprList e).Derives :=
  sound_exprList (sound_expr bound 0) bound

theorem sound_assignedTail (bound rounds : Nat) :
    (assignedTail bound rounds).Sound fun sides => (Clause.assigned sides).Derives := by
  induction rounds with
  | zero => exact fun _ _ _ _ hrun => absurd hrun tooDeep_ne_ok
  | succ rounds ih =>
      intro eof ts sides rest hrun
      rw [assignedTail] at hrun
      rcases accept_bind_inv hrun with ⟨t, ts', rfl, ht, hrun⟩ | ⟨hts, hrun⟩
      · simp only [↓reduceIte] at hrun
        obtain ⟨side, mid, hside, hrun⟩ := bind_inv hrun
        obtain ⟨more, mid', hmore, hrun⟩ := bind_inv hrun
        cases hrun
        exact .assignedMore ht (sound_side bound _ _ _ _ hside) (ih _ _ _ _ hmore)
      · cases hrun
        exact .assignedDone hts

theorem sound_exprStmt {bound : Nat} {eof : Span} {ts rest : List Token} {s : Stmt}
    (hts : ∀ kind ∈ ahead ts, kind.startsKeywordStmt = false)
    (hrun : exprStmt bound eof ts = .ok (s, rest)) : (Clause.simple s).Derives ts rest := by
  unfold exprStmt at hrun
  obtain ⟨first, mid, hfirst, hrun⟩ := bind_inv hrun
  have hfirst := sound_side bound _ _ _ _ hfirst
  rw [peekKind_bind] at hrun
  cases hop : (ahead mid).bind BinaryOp.ofAugmented? with
  | some op =>
      simp only [hop] at hrun
      cases mid with
      | nil => cases hop
      | cons t mid =>
          rw [bind_run skip_cons] at hrun
          obtain ⟨value, mid', hvalue, hrun⟩ := bind_inv hrun
          cases hrun
          exact .augAssign hts hfirst hop (sound_expr bound 0 _ _ _ _ hvalue)
  | none =>
      simp only [hop] at hrun
      obtain ⟨sides, mid', hsides, hrun⟩ := bind_inv hrun
      have hderives := Clause.Derives.sides hts hfirst hop (sound_assignedTail _ _ _ _ _ _ hsides)
      unfold Stmt.ofSides at hderives
      cases hlast : sides.getLast? with
      | none | some value =>
          simp only [hlast] at hrun hderives
          cases hrun
          exact hderives

theorem sound_returnStmt {bound : Nat} {eof : Span} {ts rest : List Token} {s : Stmt}
    (hrun : returnStmt bound eof ts = .ok (s, rest)) : (Clause.simple s).Derives ts rest := by
  obtain ⟨t, ts', rfl, ht, hrun⟩ := expect_bind_inv hrun
  dsimp only at hrun
  rw [peekKind_bind] at hrun
  cases hend : atSimpleEnd (ahead ts') with
  | true =>
      simp only [hend, ↓reduceIte] at hrun
      cases hrun
      exact .giveBackNothing ht hend
  | false =>
      simp only [hend, Bool.false_eq_true, ↓reduceIte] at hrun
      obtain ⟨value, mid, hvalue, hrun⟩ := bind_inv hrun
      cases hrun
      exact .giveBack ht hend (sound_side bound _ _ _ _ hvalue)

theorem sound_importStmt {bound : Nat} {eof : Span} {ts rest : List Token} {s : Stmt}
    (hrun : importStmt bound eof ts = .ok (s, rest)) : (Clause.simple s).Derives ts rest := by
  obtain ⟨t, ts', rfl, ht, hrun⟩ := expect_bind_inv hrun
  obtain ⟨names, mid, hnames, hrun⟩ := bind_inv hrun
  cases hrun
  exact .importNames ht (sound_importNames _ _ _ _ _ _ hnames)

theorem sound_fromStmt {bound : Nat} {eof : Span} {ts rest : List Token} {s : Stmt}
    (hrun : fromStmt bound eof ts = .ok (s, rest)) : (Clause.simple s).Derives ts rest := by
  obtain ⟨t, ts', rfl, ht, hrun⟩ := expect_bind_inv hrun
  obtain ⟨name, mid, hname, hrun⟩ := bind_inv hrun
  obtain ⟨u, mid, rfl, hu, hrun⟩ := expect_bind_inv hrun
  cases hrun
  exact .importFrom ht (sound_dottedName _ _ _ _ _ hname) hu rfl

theorem sound_simpleStmt (bound : Nat) :
    (simpleStmt bound).Sound fun s => (Clause.simple s).Derives := by
  intro eof ts s rest hrun
  unfold simpleStmt at hrun
  rw [peekKind_bind] at hrun
  cases ts with
  | nil => exact sound_exprStmt (by simp) hrun
  | cons t ts =>
      rw [ahead_cons] at hrun
      cases hk : t.kind with
      | kwPass =>
          simp only [hk] at hrun
          cases hrun
          exact .pass hk
      | kwBreak =>
          simp only [hk] at hrun
          cases hrun
          exact .breakLoop hk
      | kwContinue =>
          simp only [hk] at hrun
          cases hrun
          exact .continueLoop hk
      | kwReturn =>
          simp only [hk] at hrun
          exact sound_returnStmt hrun
      | kwImport =>
          simp only [hk] at hrun
          exact sound_importStmt hrun
      | kwFrom =>
          simp only [hk] at hrun
          exact sound_fromStmt hrun
      | _ =>
          simp only [hk] at hrun
          exact sound_exprStmt (by simp [hk, TokenKind.startsKeywordStmt]) hrun

theorem sound_simpleStmtsTail (bound rounds : Nat) :
    (simpleStmtsTail bound rounds).Sound fun ss => (Clause.moreSimple ss).Derives := by
  induction rounds with
  | zero => exact fun _ _ _ _ hrun => absurd hrun tooDeep_ne_ok
  | succ rounds ih =>
      intro eof ts ss rest hrun
      rw [simpleStmtsTail] at hrun
      rcases accept_bind_inv hrun with ⟨t, ts', rfl, ht, hrun⟩ | ⟨hts, hrun⟩
      · simp only [↓reduceIte] at hrun
        rw [peekKind_bind] at hrun
        cases hk : ahead ts' with
        | none =>
            simp only [hk] at hrun
            cases hrun
            exact .simpleSemi ht (.inl hk)
        | some kind =>
            cases kind with
            | newline =>
                simp only [hk] at hrun
                cases hrun
                exact .simpleSemi ht (.inr hk)
            | _ =>
                simp only [hk] at hrun
                obtain ⟨s, mid, hs, hrun⟩ := bind_inv hrun
                obtain ⟨more, mid', hmore, hrun⟩ := bind_inv hrun
                cases hrun
                exact .simpleMore ht (by simp [hk]) (sound_simpleStmt bound _ _ _ _ hs)
                  (ih _ _ _ _ hmore)
      · cases hrun
        exact .simpleDone hts

theorem lineEnd_of_run {eof : Span} {ts rest : List Token} (h : lineEnd eof ts = .ok ((), rest)) :
    LineEnd ts rest := by
  unfold lineEnd at h
  rw [peekKind_bind] at h
  cases ts with
  | nil =>
      cases h
      exact .block (.inl rfl)
  | cons t ts =>
      rw [ahead_cons] at h
      cases hk : t.kind with
      | newline =>
          simp only [hk] at h
          cases h
          exact .newline hk
      | dedent =>
          simp only [hk] at h
          cases h
          exact .block (.inr (by simp [hk]))
      | _ =>
          simp only [hk] at h
          exact absurd h failHere_ne_ok

theorem sound_simpleStmts (bound : Nat) :
    (simpleStmts bound).Sound fun ss => (Clause.line ss).Derives := by
  intro eof ts ss rest hrun
  obtain ⟨s, mid, hs, hrun⟩ := bind_inv hrun
  obtain ⟨more, mid', hmore, hrun⟩ := bind_inv hrun
  obtain ⟨_, mid'', hend, hrun⟩ := bind_inv hrun
  cases hrun
  exact .line (sound_simpleStmt bound _ _ _ _ hs) (sound_simpleStmtsTail _ _ _ _ _ _ hmore)
    (lineEnd_of_run hend)

theorem sound_decorators (bound rounds : Nat) :
    (decorators bound rounds).Sound fun es => (Clause.decorators es).Derives := by
  induction rounds with
  | zero => exact fun _ _ _ _ hrun => absurd hrun tooDeep_ne_ok
  | succ rounds ih =>
      intro eof ts es rest hrun
      rw [decorators] at hrun
      rcases accept_bind_inv hrun with ⟨t, ts', rfl, ht, hrun⟩ | ⟨hts, hrun⟩
      · simp only [↓reduceIte] at hrun
        obtain ⟨e, mid, he, hrun⟩ := bind_inv hrun
        obtain ⟨u, mid, rfl, hu, hrun⟩ := expect_bind_inv hrun
        obtain ⟨more, mid', hmore, hrun⟩ := bind_inv hrun
        cases hrun
        exact .decoratorsMore ht (sound_expr bound 0 _ _ _ _ he) hu (ih _ _ _ _ hmore)
      · cases hrun
        exact .decoratorsDone hts

theorem sound_targets (bound rounds : Nat) :
    (listOf (expr bound Power.loopTarget) rounds).Sound fun es => (Clause.targets es).Derives := by
  induction rounds with
  | zero => exact fun _ _ _ _ hrun => absurd hrun tooDeep_ne_ok
  | succ rounds ih =>
      intro eof ts es rest hrun
      rw [listOf] at hrun
      obtain ⟨e, mid, he, hrun⟩ := bind_inv hrun
      have he := sound_expr bound _ _ _ _ _ he
      rcases accept_bind_inv hrun with ⟨t, mid, rfl, ht, hrun⟩ | ⟨hmid, hrun⟩
      · simp only [↓reduceIte] at hrun
        obtain ⟨more, mid', hmore, hrun⟩ := bind_inv hrun
        cases hrun
        exact .targetsMore he ht (ih _ _ _ _ hmore)
      · cases hrun
        exact .targetsLast he hmid

end simple

section compound

variable {inner : Parser (List Stmt)} (h : inner.Sound fun ss => (Clause.stmt ss).Derives)
include h

theorem sound_blockStmts (rounds : Nat) :
    (blockStmts inner rounds).Sound fun ss => (Clause.block ss).Derives := by
  induction rounds with
  | zero => exact fun _ _ _ _ hrun => absurd hrun tooDeep_ne_ok
  | succ rounds ih =>
      intro eof ts ss rest hrun
      rw [blockStmts, peekKind_bind] at hrun
      cases hk : ahead ts with
      | none =>
          simp only [hk] at hrun
          cases hrun
          exact .blockDone (.inl hk)
      | some kind =>
          cases kind with
          | dedent =>
              simp only [hk] at hrun
              cases hrun
              exact .blockDone (.inr hk)
          | _ =>
              simp only [hk] at hrun
              obtain ⟨first, mid, hfirst, hrun⟩ := bind_inv hrun
              obtain ⟨more, mid', hmore, hrun⟩ := bind_inv hrun
              cases hrun
              exact .blockMore (by simp [hk]) (h _ _ _ _ hfirst) (ih _ _ _ _ hmore)

theorem sound_suite (bound : Nat) :
    (suite inner bound).Sound fun r => (Clause.suite r.1 r.2).Derives := by
  intro eof ts r rest hrun
  obtain ⟨colon, ts', rfl, hcolon, hrun⟩ := expect_bind_inv hrun
  rcases accept_bind_inv hrun with ⟨t, ts', rfl, ht, hrun⟩ | ⟨hts, hrun⟩
  · simp only [↓reduceIte] at hrun
    obtain ⟨u, ts', rfl, hu, hrun⟩ := expect_bind_inv hrun
    obtain ⟨body, mid, hbody, hrun⟩ := bind_inv hrun
    have hbody := sound_blockStmts h bound _ _ _ _ hbody
    rcases accept_bind_inv hrun with ⟨d, mid, rfl, hd, hrun⟩ | ⟨hmid, hrun⟩
    · cases hrun
      exact .suiteBlock hcolon ht hu hbody (.dedent hd)
    · cases hrun
      exact .suiteBlock hcolon ht hu hbody (.none hmid)
  · simp only [Bool.false_eq_true, ↓reduceIte] at hrun
    obtain ⟨body, mid, hbody, hrun⟩ := bind_inv hrun
    cases hrun
    exact .suiteLine hcolon hts (sound_simpleStmts bound _ _ _ _ hbody)

theorem sound_elifBranches (bound rounds : Nat) (before : Span) :
    (elifBranches inner bound rounds before).Sound fun stop =>
      (Clause.branches before stop).Derives := by
  induction rounds generalizing before with
  | zero => exact fun _ _ _ _ hrun => absurd hrun tooDeep_ne_ok
  | succ rounds ih =>
      intro eof ts stop rest hrun
      rw [elifBranches] at hrun
      rcases accept_bind_inv hrun with ⟨t, ts', rfl, ht, hrun⟩ | ⟨hts, hrun⟩
      · simp only [↓reduceIte] at hrun
        obtain ⟨test, mid, htest, hrun⟩ := bind_inv hrun
        obtain ⟨⟨body, between⟩, mid', hbody, hrun⟩ := bind_inv hrun
        exact .branchesMore ht (sound_expr bound 0 _ _ _ _ htest)
          (sound_suite h bound _ _ _ _ hbody)
          (ih _ _ _ _ _ hrun)
      · cases hrun
        exact .branchesDone hts

theorem sound_defineStmt {bound : Nat} {eof : Span} {t : Token} {ts rest : List Token} {s : Stmt}
    (ht : t.kind = .atSign ∨ t.kind = .kwDef)
    (hrun : defineStmt inner bound eof (t :: ts) = .ok (s, rest)) :
    (Clause.stmt [s]).Derives (t :: ts) rest := by
  obtain ⟨start, mid₀, hstart, hrun⟩ := bind_inv hrun
  cases hstart
  obtain ⟨marks, mid, hmarks, hrun⟩ := bind_inv hrun
  obtain ⟨kw, mid, rfl, hkw, hrun⟩ := expect_bind_inv hrun
  obtain ⟨name, mid, rfl, hname, hrun⟩ := ident_bind_inv hrun
  obtain ⟨opening, mid, rfl, hopening, hrun⟩ := expect_bind_inv hrun
  obtain ⟨params, mid', hparams, hrun⟩ := bind_inv hrun
  obtain ⟨close, mid', rfl, hclose, hrun⟩ := expect_bind_inv hrun
  obtain ⟨⟨body, stop⟩, mid'', hbody, hrun⟩ := bind_inv hrun
  cases hrun
  exact .define ht (sound_decorators _ _ _ _ _ _ hmarks) hkw hname hopening
    (sound_params _ _ _ _ _ hparams) hclose (sound_suite h bound _ _ _ _ hbody)

theorem sound_whileStmt (bound : Nat) :
    (whileStmt inner bound).Sound fun s => (Clause.stmt [s]).Derives := by
  intro eof ts s rest hrun
  obtain ⟨t, ts', rfl, ht, hrun⟩ := expect_bind_inv hrun
  obtain ⟨test, mid, htest, hrun⟩ := bind_inv hrun
  obtain ⟨⟨body, stop⟩, mid', hbody, hrun⟩ := bind_inv hrun
  dsimp only at hrun
  rw [peekKind_bind] at hrun
  by_cases helse : ahead mid' = some .kwElse
  · simp only [helse, ↓reduceIte] at hrun
    obtain ⟨_, _, hfail, -⟩ := bind_inv hrun
    exact absurd hfail failHere_ne_ok
  · simp only [helse, ↓reduceIte] at hrun
    cases hrun
    exact .whileLoop ht (sound_expr bound 0 _ _ _ _ htest) (sound_suite h bound _ _ _ _ hbody) helse

theorem sound_ifStmt (bound : Nat) :
    (ifStmt inner bound).Sound fun s => (Clause.stmt [s]).Derives := by
  intro eof ts s rest hrun
  obtain ⟨t, ts', rfl, ht, hrun⟩ := expect_bind_inv hrun
  obtain ⟨test, mid, htest, hrun⟩ := bind_inv hrun
  obtain ⟨⟨body, between⟩, mid', hbody, hrun⟩ := bind_inv hrun
  obtain ⟨stop, mid'', hbranches, hrun⟩ := bind_inv hrun
  have htest := sound_expr bound 0 _ _ _ _ htest
  have hbody := sound_suite h bound _ _ _ _ hbody
  have hbranches := sound_elifBranches h bound bound _ _ _ _ _ hbranches
  rcases accept_bind_inv hrun with ⟨u, mid, rfl, hu, hrun⟩ | ⟨hmid, hrun⟩
  · simp only [↓reduceIte] at hrun
    obtain ⟨⟨otherwise, stop⟩, mid', hotherwise, hrun⟩ := bind_inv hrun
    cases hrun
    exact .conditionalElse ht htest hbody hbranches hu (sound_suite h bound _ _ _ _ hotherwise)
  · cases hrun
    exact .conditional ht htest hbody hbranches hmid

theorem sound_forStmt (bound : Nat) :
    (forStmt inner bound).Sound fun s => (Clause.stmt [s]).Derives := by
  intro eof ts s rest hrun
  obtain ⟨t, ts', rfl, ht, hrun⟩ := expect_bind_inv hrun
  obtain ⟨es, mid, hes, hrun⟩ := bind_inv hrun
  obtain ⟨u, mid, rfl, hu, hrun⟩ := expect_bind_inv hrun
  obtain ⟨source, mid', hsource, hrun⟩ := bind_inv hrun
  obtain ⟨⟨body, stop⟩, mid'', hbody, hrun⟩ := bind_inv hrun
  cases hrun
  exact .iteration ht (sound_targets _ _ _ _ _ _ hes) hu (sound_side bound _ _ _ _ hsource)
    (sound_suite h bound _ _ _ _ hbody)

theorem sound_classStmt (bound : Nat) :
    (classStmt inner bound).Sound fun s => (Clause.stmt [s]).Derives := by
  intro eof ts s rest hrun
  obtain ⟨t, ts', rfl, ht, hrun⟩ := expect_bind_inv hrun
  obtain ⟨name, ts', rfl, hname, hrun⟩ := ident_bind_inv hrun
  rcases accept_bind_inv hrun with ⟨opening, ts', rfl, hopening, hrun⟩ | ⟨hts, hrun⟩
  · simp only [↓reduceIte] at hrun
    obtain ⟨parents, mid, hparents, hrun⟩ := bind_inv hrun
    obtain ⟨close, mid, rfl, hclose, hrun⟩ := expect_bind_inv hrun
    obtain ⟨⟨body, stop⟩, mid', hbody, hrun⟩ := bind_inv hrun
    cases hrun
    exact .classWithParents ht hname hopening
      (sound_items (sound_expr bound 0) _ _ _ _ _ _ hparents)
      hclose (sound_suite h bound _ _ _ _ hbody)
  · simp only [Bool.false_eq_true, ↓reduceIte] at hrun
    obtain ⟨⟨body, stop⟩, mid', hbody, hrun⟩ := bind_inv hrun
    cases hrun
    exact .classDefinition ht hname hts (sound_suite h bound _ _ _ _ hbody)

end compound

theorem sound_stmt (bound : Nat) : (stmt bound).Sound fun ss => (Clause.stmt ss).Derives := by
  induction bound with
  | zero => exact fun _ _ _ _ hrun => absurd hrun tooDeep_ne_ok
  | succ bound ih =>
      intro eof ts ss rest hrun
      rw [stmt, peekKind_bind] at hrun
      cases ts with
      | nil => exact absurd hrun failHere_ne_ok
      | cons t ts =>
          rw [ahead_cons] at hrun
          cases hk : t.kind with
          | atSign | kwDef =>
              simp only [hk] at hrun
              obtain ⟨s, mid, hs, hrun⟩ := bind_inv hrun
              cases hrun
              exact sound_defineStmt ih (by simp [hk]) hs
          | kwWhile =>
              simp only [hk] at hrun
              obtain ⟨s, mid, hs, hrun⟩ := bind_inv hrun
              cases hrun
              exact sound_whileStmt ih _ _ _ _ _ hs
          | kwIf =>
              simp only [hk] at hrun
              obtain ⟨s, mid, hs, hrun⟩ := bind_inv hrun
              cases hrun
              exact sound_ifStmt ih _ _ _ _ _ hs
          | kwFor =>
              simp only [hk] at hrun
              obtain ⟨s, mid, hs, hrun⟩ := bind_inv hrun
              cases hrun
              exact sound_forStmt ih _ _ _ _ _ hs
          | kwClass =>
              simp only [hk] at hrun
              obtain ⟨s, mid, hs, hrun⟩ := bind_inv hrun
              cases hrun
              exact sound_classStmt ih _ _ _ _ _ hs
          | indent =>
              simp only [hk] at hrun
              exact absurd hrun failHere_ne_ok
          | _ =>
              simp only [hk] at hrun
              exact .stmtLine (by simp [hk, TokenKind.startsCompound])
                (sound_simpleStmts _ _ _ _ _ hrun)

theorem sound_moduleStmts (bound rounds : Nat) :
    (moduleStmts bound rounds).Sound fun ss ts rest =>
      rest = [] ∧ (Clause.whole ss).Derives ts [] := by
  induction rounds with
  | zero => exact fun _ _ _ _ hrun => absurd hrun tooDeep_ne_ok
  | succ rounds ih =>
      intro eof ts ss rest hrun
      rw [moduleStmts, peekKind_bind] at hrun
      cases ts with
      | nil =>
          cases hrun
          exact ⟨rfl, .wholeDone⟩
      | cons t ts =>
          rw [ahead_cons] at hrun
          cases hk : t.kind with
          | newline =>
              simp only [hk] at hrun
              rw [bind_run skip_cons] at hrun
              obtain ⟨hrest, hss⟩ := ih _ _ _ _ hrun
              exact ⟨hrest, .wholeNewline hk hss⟩
          | _ =>
              simp only [hk] at hrun
              obtain ⟨first, mid, hfirst, hrun⟩ := bind_inv hrun
              obtain ⟨more, mid', hmore, hrun⟩ := bind_inv hrun
              cases hrun
              obtain ⟨hrest, hss⟩ := ih _ _ _ _ hmore
              exact ⟨hrest, .wholeMore (by simp [hk]) (sound_stmt bound _ _ _ _ hfirst) hss⟩

end Parser

theorem exists_of_parseTokens {eof : Span} {tokens : List Token} {m : Module}
    (h : parseTokens eof tokens = .ok m) :
    ∃ rest, Parser.moduleStmts (tokens.length + 1) (tokens.length + 1) eof tokens =
      .ok (m.body, rest) ∧ m.span = ((tokens.head?.map Token.span).getD eof).through eof := by
  cases hrun : (Parser.wholeModule (tokens.length + 1)).run eof tokens with
  | error e => simp [parseTokens, StateT.run, hrun, Except.map] at h
  | ok r =>
      simp only [parseTokens, StateT.run, hrun, Except.map, Except.ok.injEq] at h
      subst h
      obtain ⟨start, mid, hstart, hrun⟩ := Parser.bind_inv hrun
      obtain ⟨body, rest, hbody, hrun⟩ := Parser.bind_inv hrun
      cases hrun
      cases tokens <;> cases hstart <;> exact ⟨_, hbody, rfl⟩

theorem derives_of_parseTokens {eof : Span} {tokens : List Token} {m : Module}
    (h : parseTokens eof tokens = .ok m) : (Clause.whole m.body).Derives tokens [] := by
  obtain ⟨rest, hbody, -⟩ := exists_of_parseTokens h
  exact (Parser.sound_moduleStmts _ _ _ _ _ _ hbody).2

end P16
