import P16.Proofs.WrittenStmts
import P16.Token.Layout

/-!
# Lines of a program

How statements are laid out on lines, and that layout finds the blocks of statements so laid out.
-/

namespace P16

section lined

/-- A line of a program that is neither blank nor a comment. -/
structure SourceLine where
  column : Nat
  words : List Word

namespace Stmt

/-- The lines lay out the statements of a block at a column. Every suite has lines of its own,
further to the right by one or more columns. -/
inductive Lined : Nat → List Stmt → List SourceLine → Prop where
  | nil {column : Nat} : Lined column [] []
  | line {column : Nat} {s : Stmt} {ss : List Stmt} {ws : List Word} {lines : List SourceLine}
      (hs : s.WritesLine ws) (hss : Lined column ss lines) :
      Lined column (s :: ss) (⟨column, ws⟩ :: lines)
  | define {column step : Nat} {name : Ident} {params : List Ident} {decorators : List Expr}
      {body ss : List Stmt} {span : Span} {marks : List (List Word)} {inner lines : List SourceLine}
      (hmarks : WritesMarks decorators marks) (hnonempty : body ≠ []) (hstep : 0 < step)
      (hbody : Lined (column + step) body inner) (hss : Lined column ss lines) :
      Lined column (.define name params decorators body span :: ss)
        (marks.map (fun mark => ⟨column, .sign .atSign :: mark⟩) ++
          ⟨column, defineWords name params⟩ :: (inner ++ lines))
  | whileLoop {column step : Nat} {test : Expr} {body ss : List Stmt} {span : Span}
      {ws : List Word} {inner lines : List SourceLine}
      (htest : (Form.expr .disjunction test).Writes ws) (hnonempty : body ≠ []) (hstep : 0 < step)
      (hbody : Lined (column + step) body inner) (hss : Lined column ss lines) :
      Lined column (.whileLoop test body span :: ss)
        (⟨column, whileWords ws⟩ :: (inner ++ lines))

theorem Lined.head_column {column : Nat} {ss : List Stmt} {lines : List SourceLine}
    (h : Lined column ss lines) : ∀ line ∈ lines.head?, line.column = column := by
  cases h with
  | nil => simp
  | line | whileLoop => simp
  | @define _ _ _ _ _ _ _ _ marks => cases marks <;> simp

theorem Lined.ne_nil {column : Nat} {ss : List Stmt} {lines : List SourceLine}
    (h : Lined column ss lines) (hss : ss ≠ []) : lines ≠ [] := by
  cases h <;> simp_all

end Stmt

end lined

section inline

/-- Words that stay on their line: no line break is among them, and they close the brackets they
open and no others. -/
structure Inline (ws : List Word) : Prop where
  unbroken : ∀ w ∈ ws, w.kind ≠ .newline
  level : ∀ depth, ws.foldl (fun depth w => Layout.depthAfter depth w.kind) depth = depth

/-- Neither a line break nor a bracket. -/
def TokenKind.isInline (kind : TokenKind) : Bool :=
  kind ≠ .newline && !kind.opensBracket && !kind.closesBracket

namespace Inline

variable {w : Word} {ws ws' : List Word} {opening close : TokenKind}

theorem nil : Inline [] := ⟨nofun, fun _ => rfl⟩

theorem append (h : Inline ws) (h' : Inline ws') : Inline (ws ++ ws') where
  unbroken := List.forall_mem_append.mpr ⟨h.unbroken, h'.unbroken⟩
  level depth := by rw [List.foldl_append, h.level, h'.level]

theorem cons (hw : w.kind.isInline = true) (h : Inline ws) : Inline (w :: ws) := by
  simp only [TokenKind.isInline, Bool.and_eq_true, Bool.not_eq_true', decide_eq_true_eq] at hw
  obtain ⟨⟨hnewline, hopen⟩, hclose⟩ := hw
  constructor
  · exact List.forall_mem_cons.mpr ⟨hnewline, h.unbroken⟩
  · intro depth
    rw [List.foldl_cons, Layout.depthAfter, hopen, hclose]
    exact h.level depth

theorem bracketed (hopening : opening.opensBracket = true) (hclose : close.closesBracket = true)
    (h : Inline ws) : Inline (.sign opening :: (ws ++ [.sign close])) := by
  have hkinds : opening ≠ .newline ∧ close ≠ .newline := by
    constructor <;> (rintro rfl; contradiction)
  have hcloses : close.opensBracket = false := by
    cases close <;> first | rfl | cases hclose
  constructor
  · simp only [List.forall_mem_cons, List.forall_mem_append]
    exact ⟨hkinds.1, h.unbroken, hkinds.2, nofun⟩
  · intro depth
    rw [List.foldl_cons, List.foldl_append, h.level]
    simp [Layout.depthAfter, Word.sign, hopening, hclose, hcloses]

end Inline

theorem BinaryOp.kind_isInline (op : BinaryOp) : op.kind.isInline = true := by
  cases op <;> rfl

theorem BinaryOp.augmentedKind?_isInline {op : BinaryOp} {kind : TokenKind}
    (h : op.augmentedKind? = some kind) : kind.isInline = true := by
  cases op <;> cases h <;> rfl

theorem UnaryOp.kind_isInline (op : UnaryOp) : op.kind.isInline = true := by
  cases op <;> rfl

theorem CompareOp.inline_words (op : CompareOp) : Inline op.words := by
  cases op with
  | notIn | isNot => exact .cons rfl (.cons rfl .nil)
  | _ => exact .cons rfl .nil

open Inline in
theorem Form.Writes.inline {f : Form} {ws : List Word} (h : f.Writes ws) : Inline ws := by
  induction h with
  | name | number | text => exact cons rfl nil
  | parens _ ih => exact bracketed rfl rfl ih
  | unit | emptyList | emptyDict => exact bracketed rfl rfl nil
  | single _ ih => simpa using bracketed rfl rfl (ih.append (cons rfl nil))
  | tuple _ _ ih ih' => simpa using bracketed rfl rfl (ih.append (cons rfl ih'))
  | list _ ih | dict _ ih => exact bracketed rfl rfl ih
  | member _ ih => exact ih.append (cons rfl (cons rfl nil))
  | subscript _ _ ih ih' => exact ih.append (bracketed rfl rfl ih')
  | emptyCall _ ih => exact ih.append (bracketed rfl rfl nil)
  | call _ _ ih ih' => exact ih.append (bracketed rfl rfl ih')
  | binary _ _ _ ih ih' => exact ih.append (cons (BinaryOp.kind_isInline _) ih')
  | unary _ _ ih => exact cons (UnaryOp.kind_isInline _) ih
  | compare _ _ _ ih ih' => exact ih.append ih'
  | itemsLast _ ih | positionalLast _ ih => exact ih
  | itemsMore _ _ ih ih' | positionalMore _ _ ih ih' | entriesLast _ _ ih ih' =>
      exact ih.append (cons rfl ih')
  | entriesMore _ _ _ ihkey ihvalue ih =>
      exact ihkey.append (cons rfl (ihvalue.append (cons rfl ih)))
  | keywordLast _ ih => exact cons rfl (cons rfl ih)
  | keywordMore _ _ ih ih' => exact cons rfl (cons rfl (ih.append (cons rfl ih')))
  | linksLast _ ih => exact (CompareOp.inline_words _).append ih
  | linksMore _ _ ih ih' => exact (CompareOp.inline_words _).append (ih.append ih')

open Inline in
theorem DottedName.inline_words (name : DottedName) : Inline name.words := by
  have hmore (parts : List Ident) :
      Inline (parts.flatMap fun part => [.sign .dot, .name part.text]) := by
    induction parts with
    | nil => exact nil
    | cons part parts ih => exact cons rfl (cons rfl ih)
  unfold DottedName.words
  cases name.segments with
  | nil => exact nil
  | cons first more => exact cons rfl (hmore more)

open Inline in
theorem ImportName.inline_words (name : ImportName) : Inline name.words := by
  refine name.path.inline_words.append ?_
  cases name.newName? with
  | none => exact nil
  | some newName => exact cons rfl (cons rfl nil)

theorem inline_importWords (names : List ImportName) : Inline (importWords names) := by
  induction names with
  | nil => exact .nil
  | cons name names ih =>
      rw [importWords]
      refine name.inline_words.append ?_
      split
      · exact .nil
      · exact .cons rfl ih

theorem inline_paramWords (params : List Ident) : Inline (paramWords params) := by
  induction params with
  | nil => exact .nil
  | cons param params ih =>
      rw [paramWords]
      refine .cons rfl ?_
      split
      · exact .nil
      · exact .cons rfl ih

theorem Sides.inline {es : List Expr} {ws : List Word} (h : Sides es ws) : Inline ws := by
  induction h with
  | last he => exact he.inline
  | more he _ ih => exact he.inline.append (.cons rfl ih)

namespace Stmt

theorem inline_defineWords (name : Ident) (params : List Ident) :
    Inline (defineWords name params) := by
  have hparams : Inline (.sign .lparen :: (paramWords params ++ [.sign .rparen])) :=
    (inline_paramWords params).bracketed rfl rfl
  have hend : Inline (.sign .lparen :: (paramWords params ++ [.sign .rparen, .sign .colon])) := by
    simpa using hparams.append (.cons (w := .sign .colon) rfl .nil)
  exact .cons rfl (.cons rfl hend)

theorem inline_whileWords {ws : List Word} (h : Inline ws) : Inline (whileWords ws) :=
  .cons rfl (h.append (.cons rfl .nil))

theorem WritesLine.inline {s : Stmt} {ws : List Word} (h : s.WritesLine ws) : Inline ws := by
  cases h with
  | pass | breakLoop | continueLoop | giveBackNothing => exact .cons rfl .nil
  | giveBack hvalue => exact .cons rfl hvalue.inline
  | importNames _ _ => exact .cons rfl (inline_importWords _)
  | augAssign hop htarget hvalue =>
      exact htarget.inline.append (.cons (BinaryOp.augmentedKind?_isInline hop) hvalue.inline)
  | expr he => exact he.inline
  | assign _ hsides => exact hsides.inline

end Stmt

end inline

section scanned

/-- The tokens of the lines, before layout. Blank lines leave their line breaks, and the last line
may lack its own. -/
inductive Scanned : List SourceLine → List Token → Prop where
  | done : Scanned [] []
  | blank {lines : List SourceLine} {t : Token} {raw : List Token} (ht : t.kind = .newline)
      (hlines : Scanned lines raw) : Scanned lines (t :: raw)
  | line {line : SourceLine} {lines : List SourceLine} {first t : Token} {ts raw : List Token}
      (hfirst : first.kind ≠ .newline) (hwords : Spells (first :: ts) line.words)
      (hcolumn : first.span.column = line.column) (ht : t.kind = .newline)
      (hlines : Scanned lines raw) :
      Scanned (line :: lines) (first :: (ts ++ t :: raw))
  | last {line : SourceLine} {first : Token} {ts : List Token} (hfirst : first.kind ≠ .newline)
      (hwords : Spells (first :: ts) line.words) (hcolumn : first.span.column = line.column) :
      Scanned [line] (first :: ts)

namespace Layout

section indentation

variable {t : Token} {indents : List Nat}

theorem indentation_same (h : indents.headD 0 = t.span.column) :
    indentation indents t = .ok ([], indents) := by
  have hkept : indents.takeWhile (t.span.column < ·) = [] ∧
      indents.dropWhile (t.span.column < ·) = indents := by
    cases indents with
    | nil => simp
    | cons c indents => simp_all
  simp only [indentation, hkept, h, Nat.lt_irrefl, ↓reduceIte, List.map_nil]

theorem indentation_deeper (h : indents.headD 0 < t.span.column) :
    indentation indents t = .ok ([mark .indent t.span], t.span.column :: indents) :=
  if_pos h

/-- A line that ends a block is placed as if the block had ended before it. -/
theorem indentation_pop {c : Nat} (hc : t.span.column < c) (h : t.span.column ≤ indents.headD 0) :
    indentation (c :: indents) t =
      (indentation indents t).map fun placed => (mark .dedent t.span :: placed.1, placed.2) := by
  have hshallow : ¬ (c :: indents).headD 0 < t.span.column := by
    rw [List.headD_cons]
    omega
  simp only [indentation, if_neg hshallow, if_neg (Nat.not_lt.mpr h),
    List.takeWhile_cons_of_pos (p := (t.span.column < ·)) (decide_eq_true hc),
    List.dropWhile_cons_of_pos (p := (t.span.column < ·)) (decide_eq_true hc)]
  split <;> rfl

end indentation

variable {eof : Span} {ws : List Word} {ts : List Token}

theorem tokensFrom_newline {t : Token} (ht : t.kind = .newline) (indents : List Nat)
    (raw : List Token) :
    tokensFrom eof ⟨indents, 0, true⟩ (t :: raw) = tokensFrom eof ⟨indents, 0, true⟩ raw := by
  rw [tokensFrom]
  simp [ht]

theorem tokensFrom_first {t : Token} {indents indents' : List Nat} {depth : Nat}
    {marks : List Token} (ht : t.kind ≠ .newline)
    (hmarks : indentation indents t = .ok (marks, indents')) (raw : List Token) :
    tokensFrom eof ⟨indents, depth, true⟩ (t :: raw) =
      (tokensFrom eof ⟨indents', depthAfter depth t.kind, false⟩ raw).map (marks ++ t :: ·) := by
  rw [tokensFrom, if_neg ht, if_pos rfl, hmarks]
  rfl

theorem tokensFrom_next {t : Token} {indents : List Nat} {depth : Nat} {raw tail : List Token}
    (ht : t.kind ≠ .newline)
    (htail : tokensFrom eof ⟨indents, depthAfter depth t.kind, false⟩ raw = .ok tail) :
    tokensFrom eof ⟨indents, depth, false⟩ (t :: raw) = .ok (t :: tail) := by
  rw [tokensFrom, if_neg ht]
  exact congrArg (Except.map (t :: ·)) htail

theorem tokensFrom_inline (hts : Spells ts ws) (hws : ∀ w ∈ ws, w.kind ≠ .newline)
    {indents : List Nat} {depth : Nat} {raw tail : List Token}
    (htail : tokensFrom eof
      ⟨indents, ws.foldl (fun depth w => depthAfter depth w.kind) depth, false⟩ raw = .ok tail) :
    tokensFrom eof ⟨indents, depth, false⟩ (ts ++ raw) = .ok (ts ++ tail) := by
  induction ts generalizing ws depth with
  | nil =>
      cases hts
      exact htail
  | cons t ts ih =>
      cases hts
      exact tokensFrom_next (hws t.word (by simp))
        (ih rfl (fun w hw => hws w (List.mem_cons_of_mem _ hw)) htail)

/-- From the levels `stack` at the beginning of a line, layout makes `out` of the tokens up to
`raw'` and goes on at the beginning of a line with the levels `stack'`. -/
def Gives (eof : Span) (stack : List Nat) (raw out : List Token) (stack' : List Nat)
    (raw' : List Token) : Prop :=
  ∀ tail, tokensFrom eof ⟨stack', 0, true⟩ raw' = .ok tail →
    tokensFrom eof ⟨stack, 0, true⟩ raw = .ok (out ++ tail)

theorem map_append_of_ok {r : Except ParseError (List Token)} {f : List Token → List Token}
    {tail : List Token} (marks : List Token) (h : r.map f = .ok tail) :
    r.map (fun rest => marks ++ f rest) = .ok (marks ++ tail) := by
  cases r with
  | error => cases h
  | ok =>
      cases h
      rfl

theorem Gives.refl (eof : Span) (stack : List Nat) (raw : List Token) :
    Gives eof stack raw [] stack raw :=
  fun _ htail => htail

theorem Gives.trans {stack stack' stack'' : List Nat} {raw raw' raw'' out out' : List Token}
    (h : Gives eof stack raw out stack' raw') (h' : Gives eof stack' raw' out' stack'' raw'') :
    Gives eof stack raw (out ++ out') stack'' raw'' := by
  intro tail htail
  rw [List.append_assoc]
  exact h _ (h' tail htail)

theorem gives_newline {t : Token} {stack stack' : List Nat} {raw raw' out : List Token}
    (ht : t.kind = .newline) (h : Gives eof stack raw out stack' raw') :
    Gives eof stack (t :: raw) out stack' raw' := by
  intro tail htail
  rw [tokensFrom_newline ht]
  exact h tail htail

theorem tokensFrom_line {first : Token} {stack : List Nat} {raw tail : List Token}
    (hfirst : first.kind ≠ .newline) (hwords : Spells (first :: ts) ws) (hws : Inline ws)
    (hstack : stack.headD 0 = first.span.column)
    (htail : tokensFrom eof ⟨stack, 0, false⟩ raw = .ok tail) :
    tokensFrom eof ⟨stack, 0, true⟩ (first :: (ts ++ raw)) = .ok (first :: (ts ++ tail)) := by
  cases hwords
  have hlevel : (ts.map Token.word).foldl (fun depth w => depthAfter depth w.kind)
      (depthAfter 0 first.kind) = 0 := hws.level 0
  have hinline : tokensFrom eof ⟨stack, depthAfter 0 first.kind, false⟩ (ts ++ raw) =
      .ok (ts ++ tail) := by
    apply tokensFrom_inline rfl fun w hw => hws.unbroken w (List.mem_cons_of_mem _ hw)
    rw [hlevel]
    exact htail
  rw [tokensFrom_first hfirst (indentation_same hstack), hinline]
  rfl

end Layout

namespace Scanned

open Layout

variable (eof : Span) {line : SourceLine} {lines : List SourceLine} {raw : List Token}
  {stack : List Nat}

theorem gives_line (h : Scanned (line :: lines) raw) (hline : Inline line.words)
    (hstack : stack.headD 0 = line.column) :
    ∃ ts t raw', Spells ts line.words ∧ t.kind = .newline ∧ Scanned lines raw' ∧
      Gives eof stack raw (ts ++ [t]) stack raw' := by
  generalize hlines : line :: lines = all at h
  induction h with
  | done => cases hlines
  | blank ht _ ih =>
      obtain ⟨ts, t', raw', hts, ht', hraw', hgives⟩ := ih hlines
      exact ⟨ts, t', raw', hts, ht', hraw', gives_newline ht hgives⟩
  | @line _ _ first t ts raw hfirst hwords hcolumn ht hmore _ =>
      cases hlines
      refine ⟨first :: ts, t, raw, hwords, ht, hmore, fun tail htail => ?_⟩
      have hbreak : tokensFrom eof ⟨stack, 0, false⟩ (t :: raw) = .ok (t :: tail) := by
        simp [tokensFrom, ht, htail]
      simpa using tokensFrom_line hfirst hwords hline (hstack.trans hcolumn.symm) hbreak
  | @last _ first ts hfirst hwords hcolumn =>
      cases hlines
      refine ⟨first :: ts, mark .newline eof, [], hwords, rfl, .done, fun tail htail => ?_⟩
      have hend : tokensFrom eof ⟨stack, 0, false⟩ [] = .ok (mark .newline eof :: tail) := by
        cases htail
        rfl
      simpa using tokensFrom_line hfirst hwords hline (hstack.trans hcolumn.symm) hend

theorem gives_push (h : Scanned (line :: lines) raw) (hstack : stack.headD 0 < line.column) :
    ∃ t, t.kind = .indent ∧ Gives eof stack raw [t] (line.column :: stack) raw := by
  generalize hlines : line :: lines = all at h
  induction h with
  | done => cases hlines
  | blank ht _ ih =>
      obtain ⟨t, hkind, hgives⟩ := ih hlines
      refine ⟨t, hkind, fun tail htail => ?_⟩
      rw [tokensFrom_newline ht] at htail ⊢
      exact hgives tail htail
  | @line _ _ first _ _ _ hfirst _ hcolumn _ _ _ | @last _ first _ hfirst _ hcolumn =>
      -- with the new level on the stack the same token is at its column already
      cases hlines
      rw [← hcolumn] at hstack ⊢
      refine ⟨mark .indent first.span, rfl, fun tail htail => ?_⟩
      rw [tokensFrom_first hfirst (indentation_same rfl)] at htail
      rw [tokensFrom_first hfirst (indentation_deeper hstack)]
      exact map_append_of_ok _ htail

theorem gives_pop {c : Nat} (h : Scanned lines raw)
    (hlines : ∀ line ∈ lines.head?, line.column < c ∧ line.column ≤ stack.headD 0) :
    ∃ t, t.kind = .dedent ∧ Gives eof (c :: stack) raw [t] stack raw := by
  induction h with
  | done =>
      refine ⟨mark .dedent eof, rfl, fun tail htail => ?_⟩
      cases htail
      rfl
  | blank ht _ ih =>
      obtain ⟨t, hkind, hgives⟩ := ih hlines
      refine ⟨t, hkind, fun tail htail => ?_⟩
      rw [tokensFrom_newline ht] at htail ⊢
      exact hgives tail htail
  | @line line _ first _ _ _ hfirst _ hcolumn _ _ _ | @last line first _ hfirst _ hcolumn =>
      obtain ⟨hc, hle⟩ := hlines line rfl
      rw [← hcolumn] at hc hle
      refine ⟨mark .dedent first.span, rfl, fun tail htail => ?_⟩
      cases hplaced : indentation stack first with
      | error =>
          rw [tokensFrom, if_neg hfirst, if_pos rfl, hplaced] at htail
          cases htail
      | ok placed =>
          have hpop : indentation (c :: stack) first =
              .ok (mark .dedent first.span :: placed.1, placed.2) := by
            rw [indentation_pop hc hle, hplaced]
            rfl
          rw [tokensFrom_first hfirst hplaced] at htail
          rw [tokensFrom_first hfirst hpop]
          exact map_append_of_ok [mark .dedent first.span] htail

end Scanned

end scanned

section blocks

namespace Spells

variable {t : Token} {ts ts' : List Token} {ws ws' : List Word} {kind : TokenKind}

theorem append (h : Spells ts ws) (h' : Spells ts' ws') : Spells (ts ++ ts') (ws ++ ws') := by
  cases h
  cases h'
  exact List.map_append

theorem sign (ht : t.kind = kind) (hkind : kind.isLeaf = false) : Spells [t] [.sign kind] := by
  subst ht
  simp [Spells, Token.word, hkind, Word.sign]

end Spells

open Layout Stmt

variable (eof : Span) {column : Nat} {stack : List Nat} {raw : List Token}
  {lines more : List SourceLine}

theorem gives_marks {decorators : List Expr} {marks : List (List Word)}
    (hmarks : WritesMarks decorators marks) (hstack : stack.headD 0 = column)
    (h : Scanned (marks.map (fun mark => ⟨column, .sign .atSign :: mark⟩) ++ more) raw) :
    ∃ out raw', Spells out
        (marks.flatMap fun mark => .sign .atSign :: (mark ++ [.sign .newline])) ∧
      Scanned more raw' ∧ Gives eof stack raw out stack raw' := by
  induction hmarks generalizing raw with
  | nil => exact ⟨[], raw, rfl, h, .refl eof stack raw⟩
  | cons he _ ih =>
      obtain ⟨ts, t, raw₁, hts, ht, hraw₁, hgives⟩ := h.gives_line eof (.cons rfl he.inline) hstack
      obtain ⟨out, raw₂, hout, hraw₂, hgives'⟩ := ih hraw₁
      refine ⟨ts ++ [t] ++ out, raw₂, ?_, hraw₂, hgives.trans hgives'⟩
      simpa using (hts.append (.sign ht rfl)).append hout

/-- Whatever lines follow that are not further to the right, layout makes of the lines a block that
writes the statements. -/
def FindsBlock (eof : Span) (column : Nat) (ss : List Stmt) (lines : List SourceLine) : Prop :=
  ∀ more stack raw, stack.headD 0 = column → (∀ line ∈ more.head?, line.column ≤ column) →
    Scanned (lines ++ more) raw → ∃ ws out raw', WritesBlock ss ws ∧ Spells out ws ∧
      Scanned more raw' ∧ Gives eof stack raw out stack raw'

theorem gives_suite {step : Nat} {body : List Stmt} {inner : List SourceLine} (hstep : 0 < step)
    (hnonempty : body ≠ []) (hbody : Lined (column + step) body inner)
    (ih : FindsBlock eof (column + step) body inner) (hstack : stack.headD 0 = column)
    (hmore : ∀ line ∈ more.head?, line.column ≤ column) (h : Scanned (inner ++ more) raw) :
    ∃ ws out raw', WritesBlock body ws ∧ Spells out (.sign .indent :: (ws ++ [.sign .dedent])) ∧
      Scanned more raw' ∧ Gives eof stack raw out stack raw' := by
  obtain ⟨ws, out, raw', hws, hout, hraw', hgives⟩ := ih more ((column + step) :: stack) raw rfl
    (fun line hline => Nat.le_add_right_of_le (hmore line hline)) h
  obtain ⟨first, inner, rfl⟩ := List.exists_cons_of_ne_nil (hbody.ne_nil hnonempty)
  have hcolumn : first.column = column + step := hbody.head_column first rfl
  have hright : stack.headD 0 < first.column := by omega
  have hleft : ∀ line ∈ more.head?,
      line.column < column + step ∧ line.column ≤ stack.headD 0 := fun line hline => by
    have := hmore line hline
    omega
  obtain ⟨t, ht, hpush⟩ := h.gives_push eof hright
  obtain ⟨u, hu, hpop⟩ := hraw'.gives_pop eof hleft
  rw [hcolumn] at hpush
  refine ⟨ws, [t] ++ out ++ [u], raw', hws, ?_, hraw', (hpush.trans hgives).trans hpop⟩
  exact ((Spells.sign ht rfl).append hout).append (.sign hu rfl)

theorem Stmt.Lined.head_le {ss : List Stmt} (h : Lined column ss lines)
    (hmore : ∀ line ∈ more.head?, line.column ≤ column) :
    ∀ line ∈ (lines ++ more).head?, line.column ≤ column := by
  cases lines with
  | nil => exact hmore
  | cons first lines => exact fun line hline => Nat.le_of_eq (h.head_column line hline)

/-- The line before a suite, the suite and what follows it. -/
theorem gives_compound {step : Nat} {body ss : List Stmt} {head : List Word}
    {inner : List SourceLine} (hhead : Inline head) (hstep : 0 < step) (hnonempty : body ≠ [])
    (hbody : Lined (column + step) body inner) (hss : Lined column ss lines)
    (ihbody : FindsBlock eof (column + step) body inner) (ih : FindsBlock eof column ss lines)
    (hstack : stack.headD 0 = column) (hmore : ∀ line ∈ more.head?, line.column ≤ column)
    (h : Scanned (⟨column, head⟩ :: (inner ++ (lines ++ more))) raw) :
    ∃ ws ws' out raw', WritesBlock body ws ∧ WritesBlock ss ws' ∧
      Spells out (head ++ .sign .newline :: .sign .indent :: (ws ++ .sign .dedent :: ws')) ∧
      Scanned more raw' ∧ Gives eof stack raw out stack raw' := by
  obtain ⟨ts, t, raw₁, hts, ht, hraw₁, hgives⟩ := h.gives_line eof hhead hstack
  obtain ⟨ws, suite, raw₂, hws, hsuite, hraw₂, hgives₂⟩ :=
    gives_suite eof hstep hnonempty hbody ihbody hstack (hss.head_le hmore) hraw₁
  obtain ⟨ws', out, raw₃, hws', hout, hraw₃, hgives₃⟩ := ih more stack raw₂ hstack hmore hraw₂
  refine ⟨ws, ws', ts ++ [t] ++ suite ++ out, raw₃, hws, hws', ?_, hraw₃,
    (hgives.trans hgives₂).trans hgives₃⟩
  simpa using ((hts.append (.sign ht rfl)).append hsuite).append hout

theorem Stmt.Lined.findsBlock {ss : List Stmt} (h : Lined column ss lines) :
    FindsBlock eof column ss lines := by
  induction h with
  | nil =>
      intro more stack raw _ _ hraw
      exact ⟨[], [], raw, .nil, rfl, hraw, .refl eof stack raw⟩
  | line hs _ ih =>
      intro more stack raw hstack hmore hraw
      obtain ⟨ts, t, raw₁, hts, ht, hraw₁, hgives⟩ := hraw.gives_line eof hs.inline hstack
      obtain ⟨ws, out, raw₂, hws, hout, hraw₂, hgives'⟩ := ih more stack raw₁ hstack hmore hraw₁
      refine ⟨_, ts ++ [t] ++ out, raw₂, .line hs hws, ?_, hraw₂, hgives.trans hgives'⟩
      simpa using (hts.append (.sign ht rfl)).append hout
  | define hmarks hnonempty hstep hbody hss ihbody ih =>
      intro more stack raw hstack hmore hraw
      rw [List.append_assoc, List.cons_append, List.append_assoc] at hraw
      obtain ⟨out, raw₁, hout, hraw₁, hgives⟩ := gives_marks eof hmarks hstack hraw
      obtain ⟨ws, ws', out', raw₂, hws, hws', hout', hraw₂, hgives'⟩ :=
        gives_compound eof (inline_defineWords _ _) hstep hnonempty hbody hss ihbody ih hstack
          hmore hraw₁
      exact ⟨_, out ++ out', raw₂, .define hmarks hws hws', hout.append hout', hraw₂,
        hgives.trans hgives'⟩
  | whileLoop htest hnonempty hstep hbody hss ihbody ih =>
      intro more stack raw hstack hmore hraw
      rw [List.cons_append, List.append_assoc] at hraw
      obtain ⟨ws, ws', out, raw', hws, hws', hout, hraw', hgives⟩ :=
        gives_compound eof (inline_whileWords htest.inline) hstep hnonempty hbody hss ihbody ih
          hstack hmore hraw
      exact ⟨_, out, raw', .whileLoop htest hws hws', hout, hraw', hgives⟩

theorem tokensFrom_of_scanned_nil (h : Scanned [] raw) :
    tokensFrom eof ⟨[], 0, true⟩ raw = .ok [] := by
  generalize hlines : [] = lines at h
  induction h with
  | done => rfl
  | blank ht _ ih => rw [tokensFrom_newline ht, ih hlines]
  | line | last => cases hlines

/-- Layout finds the blocks of a program that is laid out on lines. -/
theorem layout_of_lined {ss : List Stmt} (h : Lined 0 ss lines) (hraw : Scanned lines raw) :
    ∃ ws out, WritesBlock ss ws ∧ Spells out ws ∧ tokensFrom eof .start raw = .ok out := by
  rw [← List.append_nil lines] at hraw
  obtain ⟨ws, out, raw', hws, hout, hraw', hgives⟩ := h.findsBlock eof [] [] raw rfl nofun hraw
  have hlayout := hgives [] (tokensFrom_of_scanned_nil eof hraw')
  rw [List.append_nil] at hlayout
  exact ⟨ws, out, hws, hout, hlayout⟩

end blocks

end P16
