import Mathlib.Data.List.Forall2
import P16.Proofs.Precedence
import P16.Proofs.StmtGrammarComplete

/-!
# Writing statements

The words of statements, with the ends of lines and the marks of blocks among them, and that tokens
which write statements are read as them.
-/

namespace P16

open P16.Expr (bareItems)

section bare

theorem Expr.bareItems_eq_map (es : List Expr) : bareItems es = es.map Expr.bare := by
  induction es with
  | nil => rfl
  | cons e es ih => rw [bareItems, ih, List.map_cons]

def DottedName.bare (name : DottedName) : DottedName := ⟨name.segments.map Ident.bare, default⟩

def ImportName.bare (name : ImportName) : ImportName :=
  ⟨name.path.bare, name.newName?.map Ident.bare, default⟩

namespace Stmt

mutual

def bare : Stmt → Stmt
  | importNames names _ => importNames (names.map ImportName.bare) default
  | assign targets value _ => assign (bareItems targets) value.bare default
  | augAssign target op value _ => augAssign target.bare op value.bare default
  | expr e _ => expr e.bare default
  | define name params decorators body _ =>
    define name.bare (params.map Ident.bare) (bareItems decorators) (bareBlock body) default
  | giveBack value? _ => giveBack (value?.map Expr.bare) default
  | whileLoop test body _ => whileLoop test.bare (bareBlock body) default
  | breakLoop _ => breakLoop default
  | continueLoop _ => continueLoop default
  | pass _ => pass default
  | unsupported form _ => unsupported form default

def bareBlock : List Stmt → List Stmt
  | [] => []
  | s :: ss => s.bare :: bareBlock ss

end

end Stmt

end bare

section written

def DottedName.words (name : DottedName) : List Word :=
  match name.segments with
  | [] => []
  | first :: more => .name first.text :: more.flatMap fun part => [.sign .dot, .name part.text]

def ImportName.words (name : ImportName) : List Word :=
  name.path.words ++ name.newName?.elim [] fun newName => [.sign .kwAs, .name newName.text]

def importWords : List ImportName → List Word
  | [] => []
  | name :: names =>
    name.words ++ (if names.isEmpty then [] else .sign .comma :: importWords names)

def paramWords : List Ident → List Word
  | [] => []
  | param :: params =>
    .name param.text :: (if params.isEmpty then [] else .sign .comma :: paramWords params)

/-- The sign of the augmented assignment, if there is one. -/
def BinaryOp.augmentedKind? : BinaryOp → Option TokenKind
  | add => some .plusEq
  | sub => some .minusEq
  | mul => some .starEq
  | div => some .slashEq
  | floorDiv => some .slashSlashEq
  | mod => some .percentEq
  | pow => some .starStarEq
  | shl => some .shlEq
  | shr => some .shrEq
  | bitOr => some .pipeEq
  | bitAnd => some .ampEq
  | bitXor => some .caretEq
  | and | or => none

/-- Expressions with `=` between them. -/
inductive Sides : List Expr → List Word → Prop where
  | last {e : Expr} {ws : List Word} (he : (Form.expr .disjunction e).Writes ws) : Sides [e] ws
  | more {e : Expr} {es : List Expr} {ws ws' : List Word}
      (he : (Form.expr .disjunction e).Writes ws) (hes : Sides es ws') :
      Sides (e :: es) (ws ++ .sign .eq :: ws')

namespace Stmt

/-- The words write a statement that fits on a line. -/
inductive WritesLine : Stmt → List Word → Prop where
  | pass {span : Span} : WritesLine (.pass span) [.sign .kwPass]
  | breakLoop {span : Span} : WritesLine (.breakLoop span) [.sign .kwBreak]
  | continueLoop {span : Span} : WritesLine (.continueLoop span) [.sign .kwContinue]
  | giveBackNothing {span : Span} : WritesLine (.giveBack none span) [.sign .kwReturn]
  | giveBack {value : Expr} {span : Span} {ws : List Word}
      (hvalue : (Form.expr .disjunction value).Writes ws) :
      WritesLine (.giveBack (some value) span) (.sign .kwReturn :: ws)
  | importNames {names : List ImportName} {span : Span} (hnames : names ≠ [])
      (hpaths : ∀ name ∈ names, name.path.segments ≠ []) :
      WritesLine (.importNames names span) (.sign .kwImport :: importWords names)
  | augAssign {target value : Expr} {op : BinaryOp} {kind : TokenKind} {span : Span}
      {ws ws' : List Word} (hop : op.augmentedKind? = some kind)
      (htarget : (Form.expr .disjunction target).Writes ws)
      (hvalue : (Form.expr .disjunction value).Writes ws') :
      WritesLine (.augAssign target op value span) (ws ++ .sign kind :: ws')
  | expr {e : Expr} {span : Span} {ws : List Word} (he : (Form.expr .disjunction e).Writes ws) :
      WritesLine (.expr e span) ws
  | assign {targets : List Expr} {value : Expr} {span : Span} {ws : List Word}
      (htargets : targets ≠ []) (hsides : Sides (targets ++ [value]) ws) :
      WritesLine (.assign targets value span) ws

def defineWords (name : Ident) (params : List Ident) : List Word :=
  .sign .kwDef :: .name name.text :: .sign .lparen ::
    (paramWords params ++ [.sign .rparen, .sign .colon])

def whileWords (test : List Word) : List Word := .sign .kwWhile :: (test ++ [.sign .colon])

/-- The words write decorators, one list for each. -/
abbrev WritesMarks (decorators : List Expr) (marks : List (List Word)) : Prop :=
  List.Forall₂ (fun e ws => (Form.expr .disjunction e).Writes ws) decorators marks

/-- The words write statements. Each line ends with a `newline`, and each suite stands between an
`indent` and a `dedent`. -/
inductive WritesBlock : List Stmt → List Word → Prop where
  | nil : WritesBlock [] []
  | line {s : Stmt} {ss : List Stmt} {ws ws' : List Word} (hs : s.WritesLine ws)
      (hss : WritesBlock ss ws') : WritesBlock (s :: ss) (ws ++ .sign .newline :: ws')
  | define {name : Ident} {params : List Ident} {decorators : List Expr} {body ss : List Stmt}
      {span : Span} {marks : List (List Word)} {ws ws' : List Word}
      (hmarks : WritesMarks decorators marks) (hbody : WritesBlock body ws)
      (hss : WritesBlock ss ws') :
      WritesBlock (.define name params decorators body span :: ss)
        (marks.flatMap (fun mark => .sign .atSign :: (mark ++ [.sign .newline])) ++
          (defineWords name params ++
            .sign .newline :: .sign .indent :: (ws ++ .sign .dedent :: ws')))
  | whileLoop {test : Expr} {body ss : List Stmt} {span : Span} {ws ws' ws'' : List Word}
      (htest : (Form.expr .disjunction test).Writes ws) (hbody : WritesBlock body ws')
      (hss : WritesBlock ss ws'') :
      WritesBlock (.whileLoop test body span :: ss)
        (whileWords ws ++ .sign .newline :: .sign .indent :: (ws' ++ .sign .dedent :: ws''))

end Stmt

end written

section names

variable {ts : List Token}

theorem moreName_of_spells {parts : List Ident}
    (hts : Spells ts (parts.flatMap fun part => [.sign .dot, .name part.text]))
    (name : DottedName) : ∃ whole : DottedName,
      whole.bare = ⟨name.segments.map Ident.bare ++ parts.map Ident.bare, default⟩ ∧
      ∀ rest, ahead rest ≠ some .dot → MoreName name whole (ts ++ rest) rest := by
  induction parts generalizing ts name with
  | nil =>
      cases hts.eq_nil
      exact ⟨name, by simp [DottedName.bare], fun _ hrest => .done hrest⟩
  | cons part parts ih =>
      obtain ⟨t, us, rfl, ht, hus⟩ := hts.sign_inv
      obtain ⟨u, us, rfl, hu, htext, hus⟩ := hus.leaf_inv rfl
      obtain ⟨whole, hwhole, hread⟩ := ih hus (name.snoc u.ident)
      refine ⟨whole, ?_, fun rest hrest => .more ht hu (hread rest hrest)⟩
      simp [hwhole, DottedName.snoc, Ident.bare, Token.ident, htext]

theorem dottedName_of_spells {name : DottedName} (hname : name.segments ≠ [])
    (hts : Spells ts name.words) :
    ∃ name' : DottedName, name'.bare = name.bare ∧
      ∀ rest, ahead rest ≠ some .dot → name'.Derives (ts ++ rest) rest := by
  unfold DottedName.words at hts
  cases hsegments : name.segments with
  | nil => exact absurd hsegments hname
  | cons first more =>
      rw [hsegments] at hts
      obtain ⟨t, us, rfl, ht, htext, hus⟩ := hts.leaf_inv rfl
      obtain ⟨whole, hwhole, hread⟩ := moreName_of_spells hus (.ofIdent t.ident)
      refine ⟨whole, ?_, fun rest hrest => ⟨t, us ++ rest, rfl, ht, hread rest hrest⟩⟩
      rw [hwhole]
      simp [DottedName.bare, hsegments, DottedName.ofIdent, Ident.bare, Token.ident, htext]

theorem importName_of_spells {name : ImportName} (hname : name.path.segments ≠ [])
    (hts : Spells ts name.words) :
    ∃ name' : ImportName, name'.bare = name.bare ∧ ∀ rest, ahead rest ≠ some .dot →
      ahead rest ≠ some .kwAs → name'.Derives (ts ++ rest) rest := by
  obtain ⟨us, vs, rfl, hus, hvs⟩ := hts.append_inv
  obtain ⟨path, hpath, hread⟩ := dottedName_of_spells hname hus
  cases hnew : name.newName? with
  | none =>
      rw [hnew] at hvs
      cases hvs.eq_nil
      refine ⟨⟨path, none, path.span⟩, ?_, fun rest hdot has => ?_⟩
      · simp [ImportName.bare, hpath, hnew]
      · simpa using ImportName.Derives.plain (hread rest hdot) has
  | some newName =>
      rw [hnew] at hvs
      obtain ⟨t, vs, rfl, ht, hvs⟩ := hvs.sign_inv
      obtain ⟨u, vs, rfl, hu, htext, hvs⟩ := hvs.leaf_inv rfl
      cases hvs.eq_nil
      refine ⟨⟨path, some u.ident, path.span.through u.span⟩, ?_, fun rest _ _ => ?_⟩
      · simp [ImportName.bare, hpath, hnew, Ident.bare, Token.ident, htext]
      · simpa using ImportName.Derives.renamed (hread (t :: u :: rest) (by simp [ht])) ht hu

theorem importNames_of_spells {names : List ImportName} (hnames : names ≠ [])
    (hpaths : ∀ name ∈ names, name.path.segments ≠ []) (hts : Spells ts (importWords names)) :
    ∃ names' : List ImportName, names'.map ImportName.bare = names.map ImportName.bare ∧
      ∀ rest, ahead rest = some .newline → ImportNames names' (ts ++ rest) rest := by
  induction names generalizing ts with
  | nil => exact absurd rfl hnames
  | cons name names ih =>
      rw [importWords] at hts
      cases names with
      | nil =>
          obtain ⟨name', hname', hread⟩ :=
            importName_of_spells (hpaths name (by simp)) (by simpa using hts)
          refine ⟨[name'], by simp [hname'], fun rest hrest => ?_⟩
          exact .last (hread rest (by simp [hrest]) (by simp [hrest])) (by simp [hrest])
      | cons next names =>
          obtain ⟨us, t, vs, rfl, hus, ht, hvs⟩ := Spells.separated_inv (by simpa using hts)
          obtain ⟨name', hname', hread⟩ := importName_of_spells (hpaths name (by simp)) hus
          obtain ⟨names', hnames', hreads⟩ :=
            ih nofun (fun n hn => hpaths n (List.mem_cons_of_mem _ hn)) hvs
          refine ⟨name' :: names', by simp [hname', hnames'], fun rest hrest => ?_⟩
          have hfirst := hread (t :: (vs ++ rest)) (by simp [ht]) (by simp [ht])
          simpa using ImportNames.more hfirst ht (hreads rest hrest)

theorem params_of_spells {params : List Ident} (hts : Spells ts (paramWords params)) :
    ∃ params' : List Ident, params'.map Ident.bare = params.map Ident.bare ∧
      ∀ rest, ahead rest = some .rparen → Params params' (ts ++ rest) rest := by
  induction params generalizing ts with
  | nil =>
      cases hts.eq_nil
      exact ⟨[], rfl, fun rest hrest => .done hrest⟩
  | cons param params ih =>
      rw [paramWords] at hts
      obtain ⟨t, us, rfl, ht, htext, hus⟩ := hts.leaf_inv rfl
      cases params with
      | nil =>
          cases Spells.eq_nil (by simpa using hus)
          refine ⟨[t.ident], by simp [Ident.bare, Token.ident, htext], fun rest hrest => ?_⟩
          exact .last ht (by simp [hrest])
      | cons next params =>
          obtain ⟨u, us, rfl, hu, hus⟩ := Spells.sign_inv (by simpa using hus)
          obtain ⟨params', hparams', hreads⟩ := ih hus
          refine ⟨t.ident :: params', by simp [Ident.bare, Token.ident, htext, hparams'],
            fun rest hrest => ?_⟩
          exact .more ht hu (hreads rest hrest)

end names

section lines

variable {e : Expr} {ws : List Word} {ts : List Token}

theorem exprList_of_writes (h : (Form.expr .disjunction e).Writes ws) (hts : Spells ts ws) :
    ∃ e' : Expr, e'.bare = e.bare ∧ ∀ rest, Ends rest → ahead rest ≠ some .comma →
      (Phrase.exprList e').Derives (ts ++ rest) rest := by
  obtain ⟨e', he', hread⟩ := (h.derived ts hts).ends
  exact ⟨e', he', fun rest hends hcomma => .single (hread rest hends) hcomma⟩

theorem ends_of_newline {rest : List Token} (h : ahead rest = some .newline) : Ends rest := by
  obtain ⟨t, rest, rfl, ht⟩ := exists_of_ahead h
  exact ends_cons ht rfl

theorem sides_of_spells {es : List Expr} (h : Sides es ws) :
    ∀ ts, Spells ts ws → ∃ e' es', bareItems (e' :: es') = bareItems es ∧
      ∀ rest, ahead rest = some .newline → ∃ mid, (Phrase.exprList e').Derives (ts ++ rest) mid ∧
        (Clause.assigned es').Derives mid rest ∧ (ahead mid).bind BinaryOp.ofAugmented? = none := by
  induction h with
  | last he =>
      intro ts hts
      obtain ⟨e', he', hread⟩ := exprList_of_writes he hts
      refine ⟨e', [], by simp [bareItems, he'], fun rest hrest => ⟨rest, ?_, ?_, ?_⟩⟩
      · exact hread rest (ends_of_newline hrest) (by simp [hrest])
      · exact .assignedDone (by simp [hrest])
      · simp [hrest, BinaryOp.ofAugmented?]
  | more he _ ih =>
      intro ts hts
      obtain ⟨us, t, vs, rfl, hus, ht, hvs⟩ := hts.separated_inv
      obtain ⟨e', he', hread⟩ := exprList_of_writes he hus
      obtain ⟨side, sides, hsides, hreads⟩ := ih vs hvs
      refine ⟨e', side :: sides, ?_, fun rest hrest => ?_⟩
      · rw [bareItems, he', hsides, bareItems]
      obtain ⟨mid, hside, hmore, -⟩ := hreads rest hrest
      refine ⟨t :: (vs ++ rest), ?_, .assignedMore ht hside hmore, ?_⟩
      · simpa using hread (t :: (vs ++ rest)) (ends_cons ht rfl) (by simp [ht])
      · simp [ht, BinaryOp.ofAugmented?]

theorem BinaryOp.augmentedKind?_facts {op : BinaryOp} {kind : TokenKind}
    (h : op.augmentedKind? = some kind) :
    ofAugmented? kind = some op ∧ kind.endsExpr = true ∧ kind ≠ .comma := by
  cases op <;> cases h <;> decide

theorem TokenKind.not_keywordStmt_of_startsExpr {kind : TokenKind} (h : kind.startsExpr = true) :
    kind.startsKeywordStmt = false ∧ kind.startsCompound = false := by
  cases kind <;> first | exact ⟨rfl, rfl⟩ | cases h

theorem not_keywordStmt_of_exprList {rest : List Token}
    (h : (Phrase.exprList e).Derives ts rest) :
    ∀ kind ∈ ahead ts, kind.startsKeywordStmt = false := by
  intro kind hkind
  obtain ⟨kind', hkind', hstarts⟩ := h.starts rfl
  rw [hkind', Option.mem_some_iff] at hkind
  exact hkind ▸ (TokenKind.not_keywordStmt_of_startsExpr hstarts).1

theorem Stmt.bare_ofSides {first value : Expr} {sides targets : List Expr} {span : Span}
    (htargets : targets ≠ [])
    (h : bareItems (first :: sides) = bareItems (targets ++ [value])) :
    (ofSides first sides).bare = (assign targets value span).bare := by
  rcases List.eq_nil_or_concat sides with rfl | ⟨init, last, rfl⟩
  · cases targets with
    | nil => exact absurd rfl htargets
    | cons target targets => simp [Expr.bareItems_eq_map] at h
  · have hparts : (first :: init).map Expr.bare ++ [last.bare] =
        targets.map Expr.bare ++ [value.bare] := by
      simpa [Expr.bareItems_eq_map] using h
    obtain ⟨htargets, hvalue⟩ := List.append_inj' hparts rfl
    simp only [ofSides, List.concat_eq_append, List.getLast?_concat, List.dropLast_concat, bare,
      Expr.bareItems_eq_map, htargets]
    rw [(List.cons.inj hvalue).1]

/-- A line that writes a statement is read as it. -/
theorem Stmt.WritesLine.derives {s : Stmt} (h : s.WritesLine ws) (hts : Spells ts ws) :
    ∃ s' : Stmt, s'.bare = s.bare ∧
      ∀ rest, ahead rest = some .newline → (Clause.simple s').Derives (ts ++ rest) rest := by
  cases h with
  | pass =>
      obtain ⟨t, us, rfl, ht, hus⟩ := hts.sign_inv
      cases hus.eq_nil
      exact ⟨.pass t.span, rfl, fun rest _ => .pass ht⟩
  | breakLoop =>
      obtain ⟨t, us, rfl, ht, hus⟩ := hts.sign_inv
      cases hus.eq_nil
      exact ⟨.breakLoop t.span, rfl, fun rest _ => .breakLoop ht⟩
  | continueLoop =>
      obtain ⟨t, us, rfl, ht, hus⟩ := hts.sign_inv
      cases hus.eq_nil
      exact ⟨.continueLoop t.span, rfl, fun rest _ => .continueLoop ht⟩
  | giveBackNothing =>
      obtain ⟨t, us, rfl, ht, hus⟩ := hts.sign_inv
      cases hus.eq_nil
      exact ⟨.giveBack none t.span, rfl,
        fun rest hrest => .giveBackNothing ht (by simp [hrest, Parser.atSimpleEnd])⟩
  | giveBack hvalue =>
      obtain ⟨t, us, rfl, ht, hus⟩ := hts.sign_inv
      obtain ⟨value, hvalue', hread⟩ := exprList_of_writes hvalue hus
      refine ⟨.giveBack (some value) (t.span.through value.span), by simp [bare, hvalue'],
        fun rest hrest => ?_⟩
      have hvalue := hread rest (ends_of_newline hrest) (by simp [hrest])
      have hstart : Parser.atSimpleEnd (ahead (us ++ rest)) = false := by
        obtain ⟨kind, hkind, hstarts⟩ := hvalue.starts rfl
        rw [hkind]
        cases kind <;> first | rfl | cases hstarts
      exact .giveBack ht hstart hvalue
  | importNames hnames hpaths =>
      obtain ⟨t, us, rfl, ht, hus⟩ := hts.sign_inv
      obtain ⟨names', hnames', hread⟩ := importNames_of_spells hnames hpaths hus
      exact ⟨.importNames names' _, by simp only [bare, hnames'],
        fun rest hrest => .importNames ht (hread rest hrest)⟩
  | @augAssign _ _ op _ _ _ _ hop htarget hvalue =>
      obtain ⟨us, t, vs, rfl, hus, ht, hvs⟩ := hts.separated_inv
      obtain ⟨hkind, hends, hcomma⟩ := BinaryOp.augmentedKind?_facts hop
      obtain ⟨target, htarget', hreadTarget⟩ := exprList_of_writes htarget hus
      obtain ⟨value, hvalue', hreadValue⟩ := (hvalue.derived vs hvs).ends
      refine ⟨.augAssign target op value (target.span.through value.span),
        by simp only [bare, htarget', hvalue'], fun rest hrest => ?_⟩
      have htarget := hreadTarget (t :: (vs ++ rest)) (ends_cons ht hends)
        (by simp [ht, hcomma])
      have hvalue := hreadValue rest (ends_of_newline hrest)
      simpa using Clause.Derives.augAssign (not_keywordStmt_of_exprList htarget) htarget
        (by rw [ht]; exact hkind) hvalue
  | expr he =>
      obtain ⟨e', he', hread⟩ := exprList_of_writes he hts
      refine ⟨.ofSides e' [], by simp [ofSides, bare, he'], fun rest hrest => ?_⟩
      have hfirst := hread rest (ends_of_newline hrest) (by simp [hrest])
      exact .sides (not_keywordStmt_of_exprList hfirst) hfirst
        (by simp [hrest, BinaryOp.ofAugmented?]) (.assignedDone (by simp [hrest]))
  | assign htargets hsides =>
      obtain ⟨e', es', hes', hread⟩ := sides_of_spells hsides ts hts
      refine ⟨.ofSides e' es', bare_ofSides htargets hes', fun rest hrest => ?_⟩
      obtain ⟨mid, hfirst, hmore, hmid⟩ := hread rest hrest
      exact .sides (not_keywordStmt_of_exprList hfirst) hfirst hmid hmore

end lines

section blocks

/-- Statements read one after the other. -/
inductive StmtRun : List Stmt → List Token → List Token → Prop where
  | nil {rest : List Token} : StmtRun [] rest rest
  | cons {ss more : List Stmt} {ts mid rest : List Token} (hss : (Clause.stmt ss).Derives ts mid)
      (hmore : StmtRun more mid rest) : StmtRun (ss ++ more) ts rest

namespace TokenKind

def startsStmt (kind : TokenKind) : Bool :=
  kind.startsExpr || kind.startsKeywordStmt || (kind.startsCompound && kind ≠ .indent)

theorem startsStmt_ne {kind : TokenKind} (h : kind.startsStmt = true) :
    kind ≠ .newline ∧ kind ≠ .dedent ∧ kind ≠ .kwElse := by
  refine ⟨?_, ?_, ?_⟩ <;> rintro rfl <;> cases h

end TokenKind

variable {s : Stmt} {ss : List Stmt} {ts rest : List Token}

theorem starts_of_simple (h : (Clause.simple s).Derives ts rest) :
    ∃ kind, ahead ts = some kind ∧ kind.startsStmt = true ∧ kind.startsCompound = false := by
  have hexpr : ∀ {e : Expr} {rest : List Token}, (Phrase.exprList e).Derives ts rest →
      ∃ kind, ahead ts = some kind ∧ kind.startsStmt = true ∧ kind.startsCompound = false := by
    intro e rest he
    obtain ⟨kind, hkind, hstarts⟩ := he.starts rfl
    exact ⟨kind, hkind, by simp [TokenKind.startsStmt, hstarts],
      (TokenKind.not_keywordStmt_of_startsExpr hstarts).2⟩
  cases h with
  | pass ht | breakLoop ht | continueLoop ht | giveBackNothing ht _ | giveBack ht _ _
  | importNames ht _ | importFrom ht _ _ _ => exact ⟨_, congrArg some ht, rfl, rfl⟩
  | augAssign _ htarget _ _ => exact hexpr htarget
  | sides _ hfirst _ _ => exact hexpr hfirst

theorem starts_of_stmt (h : (Clause.stmt ss).Derives ts rest) :
    ∃ kind, ahead ts = some kind ∧ kind.startsStmt = true := by
  cases h with
  | define ht _ _ _ _ _ _ _ => rcases ht with ht | ht <;> exact ⟨_, congrArg some ht, rfl⟩
  | whileLoop ht _ _ _ | conditional ht _ _ _ _ | conditionalElse ht _ _ _ _ _
  | iteration ht _ _ _ _ | classDefinition ht _ _ _ | classWithParents ht _ _ _ _ _ =>
      exact ⟨_, congrArg some ht, rfl⟩
  | stmtLine _ hss =>
      cases hss with
      | line hs _ _ =>
          obtain ⟨kind, hkind, hstarts, -⟩ := starts_of_simple hs
          exact ⟨kind, hkind, hstarts⟩

theorem stmt_of_simple {newline : Token} (h : (Clause.simple s).Derives ts (newline :: rest))
    (hnewline : newline.kind = .newline) : (Clause.stmt [s]).Derives ts rest := by
  obtain ⟨kind, hkind, -, hcompound⟩ := starts_of_simple h
  obtain ⟨t, ts, rfl, rfl⟩ := exists_of_ahead hkind
  exact .stmtLine hcompound (.line h (.simpleDone (by simp [hnewline])) (.newline hnewline))

namespace StmtRun

theorem ahead_ne (h : StmtRun ss ts rest) (hrest : ahead rest ≠ some .kwElse) :
    ahead ts ≠ some .kwElse := by
  cases h with
  | nil => exact hrest
  | cons hss _ =>
      obtain ⟨kind, hkind, hstarts⟩ := starts_of_stmt hss
      rw [hkind]
      simpa using (TokenKind.startsStmt_ne hstarts).2.2

theorem block {mid : List Token} (h : StmtRun ss ts mid)
    (hmid : ahead mid = some .dedent) : (Clause.block ss).Derives ts mid := by
  induction h with
  | nil => exact .blockDone (.inr hmid)
  | cons hss _ ih =>
      obtain ⟨kind, hkind, hstarts⟩ := starts_of_stmt hss
      refine .blockMore ?_ hss (ih hmid)
      simpa [hkind] using (TokenKind.startsStmt_ne hstarts).2.1

theorem whole (h : StmtRun ss ts rest) (hrest : rest = []) : (Clause.whole ss).Derives ts [] := by
  induction h with
  | nil =>
      subst hrest
      exact .wholeDone
  | cons hss _ ih =>
      obtain ⟨kind, hkind, hstarts⟩ := starts_of_stmt hss
      refine .wholeMore ?_ hss (ih hrest)
      simpa [hkind] using (TokenKind.startsStmt_ne hstarts).1

end StmtRun

theorem decorators_of_spells {es : List Expr} {marks : List (List Word)}
    (h : Stmt.WritesMarks es marks) : ∀ ts,
    Spells ts (marks.flatMap fun mark => .sign .atSign :: (mark ++ [.sign .newline])) →
    ∃ es', bareItems es' = bareItems es ∧ ∀ rest, ahead rest ≠ some .atSign →
      (Clause.decorators es').Derives (ts ++ rest) rest := by
  induction h with
  | nil =>
      intro ts hts
      cases hts.eq_nil
      exact ⟨[], rfl, fun rest hrest => .decoratorsDone hrest⟩
  | cons he _ ih =>
      intro ts hts
      rw [List.flatMap_cons] at hts
      obtain ⟨us, vs, rfl, hus, hvs⟩ := hts.append_inv
      obtain ⟨t, us, rfl, ht, hmark⟩ := hus.sign_inv
      obtain ⟨us, u, rfl, he', hu⟩ := hmark.last_inv
      obtain ⟨e', hbare, hread⟩ := (he.derived us he').ends
      obtain ⟨es', hes', hreads⟩ := ih vs hvs
      refine ⟨e' :: es', by simp [bareItems, hbare, hes'], fun rest hrest => ?_⟩
      have hfirst := hread (u :: (vs ++ rest)) (ends_cons hu rfl)
      simpa using Clause.Derives.decoratorsMore ht hfirst hu (hreads rest hrest)

theorem exists_of_decorators {es : List Expr} {kw : Token}
    (h : (Clause.decorators es).Derives ts (kw :: rest)) (hkw : kw.kind = .kwDef) :
    ∃ t ts', ts = t :: ts' ∧ (t.kind = .atSign ∨ t.kind = .kwDef) := by
  cases h with
  | decoratorsDone _ => exact ⟨kw, rest, rfl, .inr hkw⟩
  | decoratorsMore ht _ _ _ => exact ⟨_, _, rfl, .inl ht⟩

theorem suite_of_run {body : List Stmt} {colon newline indent dedent : Token}
    (hcolon : colon.kind = .colon) (hnewline : newline.kind = .newline)
    (hindent : indent.kind = .indent) (hbody : StmtRun body (ts ++ dedent :: rest) (dedent :: rest))
    (hdedent : dedent.kind = .dedent) :
    (Clause.suite body (Clause.suiteEnd body colon)).Derives
      (colon :: newline :: indent :: (ts ++ dedent :: rest)) rest :=
  .suiteBlock hcolon hnewline hindent (hbody.block (by simp [hdedent])) (.dedent hdedent)

theorem define_of_spells {name : Ident} {params : List Ident} {decorators : List Expr}
    {marks : List (List Word)} {ms head : List Token} (hmarks : Stmt.WritesMarks decorators marks)
    (hms : Spells ms (marks.flatMap fun mark => .sign .atSign :: (mark ++ [.sign .newline])))
    (hhead : Spells head (Stmt.defineWords name params)) :
    ∃ (name' : Ident) (params' : List Ident) (decorators' : List Expr),
      name'.bare = name.bare ∧ params'.map Ident.bare = params.map Ident.bare ∧
      bareItems decorators' = bareItems decorators ∧ ∀ (body : List Stmt) (ts rest : List Token),
        (∀ colon : Token, colon.kind = .colon →
          (Clause.suite body (Clause.suiteEnd body colon)).Derives (colon :: ts) rest) →
        ∃ span, (Clause.stmt [.define name' params' decorators' body span]).Derives
          (ms ++ (head ++ ts)) rest := by
  obtain ⟨kw, head, rfl, hkw, hhead⟩ := hhead.sign_inv
  obtain ⟨t, head, rfl, ht, htext, hhead⟩ := hhead.leaf_inv rfl
  obtain ⟨opening, head, rfl, hopening, hhead⟩ := hhead.sign_inv
  obtain ⟨inner, close, tail, rfl, hinner, hclose, htail⟩ := hhead.separated_inv
  obtain ⟨colon, tail, rfl, hcolon, htail⟩ := htail.sign_inv
  cases htail.eq_nil
  obtain ⟨decorators', hdecorators, hreadMarks⟩ := decorators_of_spells hmarks ms hms
  obtain ⟨params', hparams, hreadParams⟩ := params_of_spells hinner
  refine ⟨t.ident, params', decorators', by simp [Ident.bare, Token.ident, htext], hparams,
    hdecorators, fun body ts rest hsuite => ?_⟩
  have hfirst := hreadMarks (kw :: t :: opening :: (inner ++ close :: colon :: ts)) (by simp [hkw])
  have hinside := hreadParams (close :: colon :: ts) (by simp [hclose])
  obtain ⟨start, us, hstart, hkind⟩ := exists_of_decorators hfirst hkw
  rw [hstart] at hfirst
  refine ⟨start.span.through (Clause.suiteEnd body colon), ?_⟩
  have hdefine := Clause.Derives.define hkind hfirst hkw ht hopening hinside hclose
    (hsuite colon hcolon)
  rw [← hstart] at hdefine
  simpa using hdefine

open Stmt in
/-- Tokens that write statements are read as them. -/
theorem Stmt.WritesBlock.run {ws : List Word} (h : WritesBlock ss ws) :
    ∀ ts rest, Spells ts ws → ahead rest ≠ some .kwElse →
      ∃ ss', bareBlock ss' = bareBlock ss ∧ StmtRun ss' (ts ++ rest) rest := by
  -- an `else` after a loop would be read with it, so it must not come next
  induction h with
  | nil =>
      intro ts rest hts _
      cases hts.eq_nil
      exact ⟨[], rfl, .nil⟩
  | line hs _ ih =>
      intro ts rest hts hrest
      obtain ⟨us, t, vs, rfl, hus, ht, hvs⟩ := hts.separated_inv
      obtain ⟨s', hs', hread⟩ := hs.derives hus
      obtain ⟨ss', hss', hmore⟩ := ih vs rest hvs hrest
      have hline := hread (t :: (vs ++ rest)) (by simp [ht])
      refine ⟨s' :: ss', by simp [bareBlock, hs', hss'], ?_⟩
      simpa using StmtRun.cons (stmt_of_simple hline ht) hmore
  | define hmarks _ _ ihbody ih =>
      intro ts rest hts hrest
      obtain ⟨ms, us, rfl, hms, hus⟩ := hts.append_inv
      obtain ⟨head, newline, us, rfl, hhead, hnewline, hus⟩ := hus.separated_inv
      obtain ⟨indent, us, rfl, hindent, hus⟩ := hus.sign_inv
      obtain ⟨us, dedent, vs, rfl, hus, hdedent, hvs⟩ := hus.separated_inv
      obtain ⟨name', params', decorators', hname, hparams, hdecorators, hread⟩ :=
        define_of_spells hmarks hms hhead
      obtain ⟨body', hbody', hbody⟩ :=
        ihbody us (dedent :: (vs ++ rest)) hus (by simp [hdedent])
      obtain ⟨ss', hss', hmore⟩ := ih vs rest hvs hrest
      obtain ⟨span, hdefine⟩ := hread body' _ (vs ++ rest)
        fun _ hcolon => suite_of_run hcolon hnewline hindent hbody hdedent
      refine ⟨.define name' params' decorators' body' span :: ss',
        by simp [bareBlock, bare, hname, hparams, hdecorators, hbody', hss'], ?_⟩
      simpa using StmtRun.cons hdefine hmore
  | whileLoop htest _ _ ihbody ih =>
      intro ts rest hts hrest
      obtain ⟨head, newline, us, rfl, hhead, hnewline, hus⟩ := hts.separated_inv
      obtain ⟨indent, us, rfl, hindent, hus⟩ := hus.sign_inv
      obtain ⟨us, dedent, vs, rfl, hus, hdedent, hvs⟩ := hus.separated_inv
      obtain ⟨kw, head, rfl, hkw, hhead⟩ := hhead.sign_inv
      obtain ⟨head, colon, rfl, hhead, hcolon⟩ := hhead.last_inv
      obtain ⟨test', htest', hread⟩ := (htest.derived head hhead).ends
      obtain ⟨body', hbody', hbody⟩ :=
        ihbody us (dedent :: (vs ++ rest)) hus (by simp [hdedent])
      obtain ⟨ss', hss', hmore⟩ := ih vs rest hvs hrest
      have hsuite := suite_of_run hcolon hnewline hindent hbody hdedent
      have hloop := Clause.Derives.whileLoop hkw (hread _ (ends_cons hcolon rfl)) hsuite
        (hmore.ahead_ne hrest)
      refine ⟨.whileLoop test' body' (kw.span.through (Clause.suiteEnd body' colon)) :: ss',
        by simp [bareBlock, bare, htest', hbody', hss'], ?_⟩
      simpa using StmtRun.cons hloop hmore

theorem parseTokens_of_writes {ws : List Word} {tokens : List Token} (eof : Span)
    (h : Stmt.WritesBlock ss ws) (htokens : Spells tokens ws) :
    ∃ m, parseTokens eof tokens = .ok m ∧ Stmt.bareBlock m.body = Stmt.bareBlock ss := by
  obtain ⟨ss', hss', hrun⟩ := h.run tokens [] htokens nofun
  rw [List.append_nil] at hrun
  obtain ⟨span, hparse⟩ := parseTokens_iff_derives.2 (hrun.whole rfl)
  exact ⟨⟨ss', span⟩, hparse, hss'⟩

end blocks

end P16
