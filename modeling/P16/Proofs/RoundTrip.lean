import P16.Proofs.SourceText

/-!
# Printing and parsing

Every tree that has a source text is parsed from each of its texts.
-/

namespace P16

section printing

theorem Expr.wellFormed_of_mem {named : String → Bool} {es : List Expr}
    (h : wellFormedItems named es = true) : ∀ e ∈ es, e.wellFormed named = true := by
  induction es with
  | nil => nofun
  | cons e es ih =>
      rw [wellFormedItems, Bool.and_eq_true] at h
      exact List.forall_mem_cons.mpr ⟨h.1, ih h.2⟩

def ImportName.wellFormed (named : String → Bool) (name : ImportName) : Bool :=
  !name.path.segments.isEmpty && name.path.segments.all (named ·.text) &&
    name.newName?.all (named ·.text)

namespace Stmt

open P16.Expr (wellFormedItems)

mutual

/-- The statement has a source text: every part of it is supported and can be written, no suite is
empty, and no list that needs a member is. -/
def wellFormed (named : String → Bool) : Stmt → Bool
  | importNames names _ => !names.isEmpty && names.all (ImportName.wellFormed named)
  | assign targets value _ =>
    !targets.isEmpty && wellFormedItems named targets && value.wellFormed named
  | augAssign target op value _ =>
    op.augmentedKind?.isSome && target.wellFormed named && value.wellFormed named
  | expr e _ => e.wellFormed named
  | define name params decorators body _ =>
    named name.text && params.all (named ·.text) && wellFormedItems named decorators &&
      !body.isEmpty && wellFormedBlock named body
  | giveBack value? _ => value?.all (Expr.wellFormed named)
  | whileLoop test body _ => test.wellFormed named && !body.isEmpty && wellFormedBlock named body
  | breakLoop _ | continueLoop _ | pass _ => true
  | unsupported .. => false

def wellFormedBlock (named : String → Bool) : List Stmt → Bool
  | [] => true
  | s :: ss => s.wellFormed named && wellFormedBlock named ss

end

/-- The words of a statement that fits on a line. -/
def lineWords (spelling : Spelling) : Stmt → List Word
  | importNames names _ => .sign .kwImport :: importWords names
  | assign targets value _ =>
    targets.flatMap (fun target => target.words spelling .disjunction ++ [.sign .eq]) ++
      value.words spelling .disjunction
  | augAssign target op value _ =>
    target.words spelling .disjunction ++
      .sign (op.augmentedKind?.getD .eq) :: value.words spelling .disjunction
  | expr e _ => e.words spelling .disjunction
  | giveBack none _ => [.sign .kwReturn]
  | giveBack (some value) _ => .sign .kwReturn :: value.words spelling .disjunction
  | breakLoop _ => [.sign .kwBreak]
  | continueLoop _ => [.sign .kwContinue]
  | pass _ => [.sign .kwPass]
  | define .. | whileLoop .. | unsupported .. => []

mutual

/-- The lines of a statement at a column, with `step` more columns for each suite. -/
def lines (spelling : Spelling) (step column : Nat) : Stmt → List SourceLine
  | define name params decorators body _ =>
    decorators.map (fun e => ⟨column, .sign .atSign :: e.words spelling .disjunction⟩) ++
      ⟨column, defineWords name params⟩ :: blockLines spelling step (column + step) body
  | whileLoop test body _ =>
    ⟨column, whileWords (test.words spelling .disjunction)⟩ ::
      blockLines spelling step (column + step) body
  | s => [⟨column, s.lineWords spelling⟩]

def blockLines (spelling : Spelling) (step column : Nat) : List Stmt → List SourceLine
  | [] => []
  | s :: ss => s.lines spelling step column ++ blockLines spelling step column ss

end

mutual

/-- How deep suites are nested in the statement. -/
def nesting : Stmt → Nat
  | define _ _ _ body _ | whileLoop _ body _ => blockNesting body + 1
  | _ => 0

def blockNesting : List Stmt → Nat
  | [] => 0
  | s :: ss => max s.nesting (blockNesting ss)

end

mutual

theorem column_lines (spelling : Spelling) (step : Nat) : ∀ (s : Stmt) (column : Nat),
    ∀ line ∈ s.lines spelling step column, line.column ≤ column + step * s.nesting
  | define name params decorators body span, column => by
      have hbody := column_blockLines spelling step body (column + step)
      rw [lines, List.forall_mem_append, List.forall_mem_map, List.forall_mem_cons, nesting,
        Nat.mul_succ, Nat.add_comm _ step, ← Nat.add_assoc]
      refine ⟨fun _ _ => ?_, ?_, hbody⟩ <;> (dsimp only; omega)
  | whileLoop test body span, column => by
      have hbody := column_blockLines spelling step body (column + step)
      rw [lines, List.forall_mem_cons, nesting, Nat.mul_succ, Nat.add_comm _ step, ← Nat.add_assoc]
      refine ⟨?_, hbody⟩
      dsimp only
      omega
  | importNames .., column | assign .., column | augAssign .., column | expr .., column
  | giveBack .., column | breakLoop _, column | continueLoop _, column | pass _, column
  | unsupported .., column => List.forall_mem_singleton.mpr (Nat.le_add_right _ _)

theorem column_blockLines (spelling : Spelling) (step : Nat) : ∀ (ss : List Stmt) (column : Nat),
    ∀ line ∈ blockLines spelling step column ss, line.column ≤ column + step * blockNesting ss
  | [], _ => nofun
  | s :: ss, column => by
      rw [blockLines, blockNesting, List.forall_mem_append]
      have hs : step * s.nesting ≤ step * max s.nesting (blockNesting ss) :=
        Nat.mul_le_mul_left step (Nat.le_max_left _ _)
      have hss : step * blockNesting ss ≤ step * max s.nesting (blockNesting ss) :=
        Nat.mul_le_mul_left step (Nat.le_max_right _ _)
      constructor
      · intro line hline
        have := column_lines spelling step s column line hline
        omega
      · intro line hline
        have := column_blockLines spelling step ss column line hline
        omega

end

end Stmt

def SourceLine.chars (line : SourceLine) : List Char :=
  List.replicate line.column ' ' ++ [' '].intercalate (line.words.map Word.chars)

/-- The source text of a program, with `step` more blanks before the lines of each suite. -/
def Stmt.render (step : Nat) (ss : List Stmt) : String :=
  String.ofList ((blockLines .standard step 0 ss).flatMap fun line => line.chars ++ ['\n'])

example : Stmt.render 2 [.whileLoop (.name ⟨"x", default⟩) [.pass default] default,
    .expr (.text "a\n" default) default] = "while x :\n  pass\n\"a\\n\"\n" := by
  decide +kernel

end printing

section plain

/-- All of the words can be written. -/
abbrev AllPlain (ws : List Word) : Prop := ∀ w ∈ ws, w.Plain

namespace AllPlain

variable {ws ws' : List Word}

theorem nil : AllPlain [] := nofun

theorem append (h : AllPlain ws) (h' : AllPlain ws') : AllPlain (ws ++ ws') :=
  List.forall_mem_append.mpr ⟨h, h'⟩

theorem sign {kind : TokenKind} (hkind : kind.spelling ≠ [] ∧ kind ≠ .newline) (h : AllPlain ws) :
    AllPlain (.sign kind :: ws) :=
  List.forall_mem_cons.mpr ⟨.sign hkind.1 hkind.2, h⟩

theorem name {text : String} (htext : TokenKind.isName text = true) (h : AllPlain ws) :
    AllPlain (.name text :: ws) :=
  List.forall_mem_cons.mpr ⟨.name htext, h⟩

theorem enclose {needed : Bool} (h : AllPlain ws) : AllPlain (Expr.enclose needed ws) := by
  unfold Expr.enclose
  split
  · exact sign (by decide) (h.append (sign (by decide) nil))
  · exact h

theorem separated {last : Bool} {kind : TokenKind} (hkind : kind.spelling ≠ [] ∧ kind ≠ .newline)
    (h : AllPlain ws) (h' : AllPlain ws') :
    AllPlain (ws ++ if last then [] else .sign kind :: ws') := by
  refine h.append ?_
  split
  · exact nil
  · exact sign hkind h'

end AllPlain

theorem Spelling.plain_number (value : Int) :
    Word.Plain ⟨.int, Spelling.standard.number value⟩ := by
  have hdigits : Spelling.standard.number value = String.ofList (Nat.toDigits 10 value.toNat) :=
    Nat.toString_eq_ofList_toDigits
  rw [hdigits]
  exact .number Nat.toDigits_ne_nil fun d hd =>
    Nat.isDigit_of_mem_toDigits (by decide) (by decide) hd

theorem Spelling.plain_text (value : String) :
    Word.Plain ⟨.str, Spelling.standard.text value⟩ :=
  .text rfl (Literal.quoted_flatMap_escapeIn rfl value.toList)

theorem BinaryOp.kind_spelled (op : BinaryOp) :
    op.kind.spelling ≠ [] ∧ op.kind ≠ .newline := by
  cases op <;> decide

theorem UnaryOp.kind_spelled (op : UnaryOp) : op.kind.spelling ≠ [] ∧ op.kind ≠ .newline := by
  cases op <;> decide

theorem CompareOp.plain_words (op : CompareOp) : AllPlain op.words := by
  cases op with
  | notIn | isNot => exact .sign (by decide) (.sign (by decide) .nil)
  | _ => exact .sign (by decide) .nil

namespace Expr

open AllPlain (nil sign)

mutual

theorem plain_words : ∀ (e : Expr) (required : Tier),
    e.wellFormed TokenKind.isName = true → AllPlain (e.words .standard required)
  | name ident, required, h => .name h .nil
  | member value attr span, required, h => by
      simp only [wellFormed, Bool.and_eq_true] at h
      exact (plain_words value .trailer h.1).append (sign (by decide) (.name h.2 nil))
  | number value span, required, _ => List.forall_mem_singleton.mpr (Spelling.plain_number value)
  | text value span, required, _ => List.forall_mem_singleton.mpr (Spelling.plain_text value)
  | tuple items span, required, h => by
      rw [words]
      refine sign (by decide) ((plain_itemWords items h).append ?_)
      split
      · exact sign (by decide) (sign (by decide) nil)
      · exact sign (by decide) nil
  | list items span, required, h =>
      sign (by decide) ((plain_itemWords items h).append (sign (by decide) nil))
  | dict entries span, required, h =>
      sign (by decide) ((plain_entryWords entries h).append (sign (by decide) nil))
  | call callee args keywords span, required, h => by
      simp only [wellFormed, Bool.and_eq_true] at h
      have hargs := plain_argumentWords args _ (plain_keywordWords keywords h.2) h.1.2
      exact (plain_words callee .trailer h.1.1).append
        (sign (by decide) (hargs.append (sign (by decide) nil)))
  | binary op left right span, required, h => by
      simp only [wellFormed, Bool.and_eq_true] at h
      exact .enclose ((plain_words left op.leftTier h.1).append
        (sign op.kind_spelled (plain_words right op.rightTier h.2)))
  | unary op operand span, required, h =>
      .enclose (sign op.kind_spelled (plain_words operand op.tier h))
  | compare left links span, required, h => by
      simp only [wellFormed, Bool.and_eq_true] at h
      exact .enclose ((plain_words left .bitOr h.1.1).append (plain_linkWords links h.2))
  | subscript value index span, required, h => by
      simp only [wellFormed, Bool.and_eq_true] at h
      exact (plain_words value .trailer h.1).append
        (sign (by decide) ((plain_words index .disjunction h.2).append (sign (by decide) nil)))

theorem plain_itemWords : ∀ es : List Expr, wellFormedItems TokenKind.isName es = true →
    AllPlain (itemWords .standard es)
  | [], _ => nil
  | e :: es, h => by
      simp only [wellFormedItems, Bool.and_eq_true] at h
      exact .separated (by decide) (plain_words e .disjunction h.1) (plain_itemWords es h.2)

theorem plain_entryWords : ∀ es : List (Expr × Expr),
    wellFormedEntries TokenKind.isName es = true → AllPlain (entryWords .standard es)
  | [], _ => nil
  | (key, value) :: es, h => by
      simp only [wellFormedEntries, Bool.and_eq_true] at h
      exact (plain_words key .disjunction h.1.1).append (sign (by decide)
        (.separated (by decide) (plain_words value .disjunction h.1.2) (plain_entryWords es h.2)))

theorem plain_keywordWords : ∀ ks : List (Keyword Expr),
    wellFormedKeywords TokenKind.isName ks = true → AllPlain (keywordWords .standard ks)
  | [], _ => nil
  | ⟨ident, value, span⟩ :: ks, h => by
      simp only [wellFormedKeywords, Bool.and_eq_true] at h
      exact .name h.1.1 (sign (by decide)
        (.separated (by decide) (plain_words value .disjunction h.1.2) (plain_keywordWords ks h.2)))

theorem plain_argumentWords : ∀ (es : List Expr) (keywords : List Word), AllPlain keywords →
    wellFormedItems TokenKind.isName es = true → AllPlain (argumentWords .standard keywords es)
  | [], keywords, hkeywords, _ => hkeywords
  | e :: es, keywords, hkeywords, h => by
      simp only [wellFormedItems, Bool.and_eq_true] at h
      exact .separated (by decide) (plain_words e .disjunction h.1)
        (plain_argumentWords es keywords hkeywords h.2)

theorem plain_linkWords : ∀ more : List (CompareOp × Expr),
    wellFormedLinks TokenKind.isName more = true → AllPlain (linkWords .standard more)
  | [], _ => nil
  | (op, e) :: more, h => by
      simp only [wellFormedLinks, Bool.and_eq_true] at h
      exact op.plain_words.append
        ((plain_words e .bitOr h.1).append (plain_linkWords more h.2))

end

end Expr

theorem DottedName.plain_words {name : DottedName}
    (h : name.segments.all (TokenKind.isName ·.text) = true) : AllPlain name.words := by
  have hmore (parts : List Ident) (hparts : parts.all (TokenKind.isName ·.text) = true) :
      AllPlain (parts.flatMap fun part => [.sign .dot, .name part.text]) := by
    induction parts with
    | nil => exact .nil
    | cons part parts ih =>
        rw [List.all_cons, Bool.and_eq_true] at hparts
        exact .sign (by decide) (.name hparts.1 (ih hparts.2))
  unfold DottedName.words
  cases hsegments : name.segments with
  | nil => exact .nil
  | cons first more =>
      rw [hsegments, List.all_cons, Bool.and_eq_true] at h
      exact .name h.1 (hmore more h.2)

theorem ImportName.plain_words {name : ImportName} (h : name.wellFormed TokenKind.isName = true) :
    AllPlain name.words := by
  simp only [wellFormed, Bool.and_eq_true] at h
  obtain ⟨⟨-, hpath⟩, hnew⟩ := h
  refine (DottedName.plain_words hpath).append ?_
  cases hname : name.newName? with
  | none => exact .nil
  | some newName =>
      rw [hname] at hnew
      exact .sign (by decide) (.name hnew .nil)

theorem plain_importWords {names : List ImportName}
    (h : names.all (ImportName.wellFormed TokenKind.isName) = true) :
    AllPlain (importWords names) := by
  induction names with
  | nil => exact .nil
  | cons name names ih =>
      rw [List.all_cons, Bool.and_eq_true] at h
      exact .separated (by decide) (ImportName.plain_words h.1) (ih h.2)

theorem plain_paramWords {params : List Ident}
    (h : params.all (TokenKind.isName ·.text) = true) : AllPlain (paramWords params) := by
  induction params with
  | nil => exact .nil
  | cons param params ih =>
      rw [List.all_cons, Bool.and_eq_true] at h
      have hparam : AllPlain [.name param.text] := .name h.1 .nil
      exact hparam.separated (by decide) (ih h.2)

theorem BinaryOp.augmentedKind?_spelled {op : BinaryOp} {kind : TokenKind}
    (h : op.augmentedKind? = some kind) : kind.spelling ≠ [] ∧ kind ≠ .newline := by
  cases op <;> cases h <;> decide

namespace Stmt

open P16.Expr (plain_words wellFormedItems)

theorem plain_sides {targets : List Expr} {value : Expr}
    (htargets : wellFormedItems TokenKind.isName targets = true)
    (hvalue : value.wellFormed TokenKind.isName = true) :
    AllPlain (targets.flatMap (fun target => target.words .standard .disjunction ++ [.sign .eq]) ++
      value.words .standard .disjunction) := by
  refine .append (List.forall_mem_flatMap.mpr fun target htarget => ?_)
    (plain_words value .disjunction hvalue)
  exact (plain_words target .disjunction (Expr.wellFormed_of_mem htargets target htarget)).append
    (.sign (by decide) .nil)

theorem plain_lineWords {s : Stmt} (h : s.wellFormed TokenKind.isName = true) :
    AllPlain (s.lineWords .standard) := by
  cases s with
  | importNames names =>
      simp only [wellFormed, Bool.and_eq_true] at h
      exact .sign (by decide) (plain_importWords h.2)
  | assign targets value =>
      simp only [wellFormed, Bool.and_eq_true] at h
      exact plain_sides h.1.2 h.2
  | augAssign target op value =>
      simp only [wellFormed, Bool.and_eq_true] at h
      obtain ⟨kind, hkind⟩ := Option.isSome_iff_exists.mp h.1.1
      rw [lineWords, hkind]
      exact (plain_words target .disjunction h.1.2).append
        (.sign (BinaryOp.augmentedKind?_spelled hkind) (plain_words value .disjunction h.2))
  | expr e => exact plain_words e .disjunction h
  | giveBack value? =>
      cases value? with
      | none => exact .sign (by decide) .nil
      | some value => exact .sign (by decide) (plain_words value .disjunction h)
  | breakLoop | continueLoop | pass => exact .sign (by decide) .nil
  | define | whileLoop | unsupported => exact .nil

mutual

theorem plain_lines (step : Nat) : ∀ (s : Stmt) (column : Nat),
    s.wellFormed TokenKind.isName = true →
    ∀ line ∈ s.lines .standard step column, AllPlain line.words
  | define name params decorators body span, column, h => by
      simp only [wellFormed, Bool.and_eq_true] at h
      obtain ⟨⟨⟨⟨hname, hparams⟩, hdecorators⟩, -⟩, hbody⟩ := h
      rw [lines, List.forall_mem_append, List.forall_mem_map, List.forall_mem_cons]
      refine ⟨fun e he => ?_, ?_, plain_blockLines step body (column + step) hbody⟩
      · exact .sign (by decide)
          (plain_words e .disjunction (Expr.wellFormed_of_mem hdecorators e he))
      · exact .sign (by decide) (.name hname (.sign (by decide)
          ((plain_paramWords hparams).append (.sign (by decide) (.sign (by decide) .nil)))))
  | whileLoop test body span, column, h => by
      simp only [wellFormed, Bool.and_eq_true] at h
      obtain ⟨⟨htest, -⟩, hbody⟩ := h
      rw [lines, List.forall_mem_cons]
      refine ⟨.sign (by decide) ?_, plain_blockLines step body (column + step) hbody⟩
      exact (plain_words test .disjunction htest).append (.sign (by decide) .nil)
  | importNames .., _, h | assign .., _, h | augAssign .., _, h | expr .., _, h
  | giveBack .., _, h | breakLoop _, _, h | continueLoop _, _, h | pass _, _, h =>
      List.forall_mem_singleton.mpr (plain_lineWords h)

theorem plain_blockLines (step : Nat) : ∀ (ss : List Stmt) (column : Nat),
    wellFormedBlock TokenKind.isName ss = true →
    ∀ line ∈ blockLines .standard step column ss, AllPlain line.words
  | [], _, _ => nofun
  | s :: ss, column, h => by
      rw [wellFormedBlock, Bool.and_eq_true] at h
      rw [blockLines, List.forall_mem_append]
      exact ⟨plain_lines step s column h.1, plain_blockLines step ss column h.2⟩

end

end Stmt

end plain

section lined

variable (spelling : Spelling) {named : String → Bool}

theorem sides_words {targets : List Expr} {value : Expr}
    (htargets : Expr.wellFormedItems named targets = true)
    (hvalue : value.wellFormed named = true) :
    Sides (targets ++ [value])
      (targets.flatMap (fun target => target.words spelling .disjunction ++ [.sign .eq]) ++
        value.words spelling .disjunction) := by
  induction targets with
  | nil => exact .last (Expr.writes_words spelling value .disjunction hvalue)
  | cons target targets ih =>
      rw [Expr.wellFormedItems, Bool.and_eq_true] at htargets
      simpa using Sides.more (Expr.writes_words spelling target .disjunction htargets.1)
        (ih htargets.2)

namespace Stmt

mutual

theorem lined_lines {step : Nat} (hstep : 0 < step) : ∀ (s : Stmt) (column : Nat),
    s.wellFormed named = true → ∀ {ss : List Stmt} {more : List SourceLine},
      Lined column ss more → Lined column (s :: ss) (s.lines spelling step column ++ more)
  | define name params decorators body span, column, h, ss, more, hmore => by
      simp only [wellFormed, Bool.and_eq_true] at h
      obtain ⟨⟨⟨-, hdecorators⟩, hnonempty⟩, hbody⟩ := h
      have hmarks : WritesMarks decorators
          (decorators.map fun e => e.words spelling .disjunction) := by
        rw [WritesMarks, List.forall₂_map_right_iff, List.forall₂_same]
        exact fun e he =>
          Expr.writes_words spelling e .disjunction (Expr.wellFormed_of_mem hdecorators e he)
      have hinner := lined_blockLines hstep body (column + step) hbody
      have hdefine : Lined column (define name params decorators body span :: ss) _ :=
        .define hmarks (by simpa using hnonempty) hstep hinner hmore
      simpa [lines, Function.comp_def] using hdefine
  | whileLoop test body span, column, h, ss, more, hmore => by
      simp only [wellFormed, Bool.and_eq_true] at h
      obtain ⟨⟨htest, hnonempty⟩, hbody⟩ := h
      have hinner := lined_blockLines hstep body (column + step) hbody
      exact .whileLoop (Expr.writes_words spelling test .disjunction htest)
        (by simpa using hnonempty) hstep hinner hmore
  | importNames names span, column, h, ss, more, hmore => by
      simp only [wellFormed, Bool.and_eq_true, List.all_eq_true] at h
      refine .line (.importNames (by simpa using h.1) fun name hname => ?_) hmore
      have hpath := h.2 name hname
      simp only [ImportName.wellFormed, Bool.and_eq_true] at hpath
      simpa using hpath.1.1
  | assign targets value span, column, h, ss, more, hmore => by
      simp only [wellFormed, Bool.and_eq_true] at h
      exact .line (.assign (by simpa using h.1.1) (sides_words spelling h.1.2 h.2)) hmore
  | augAssign target op value span, column, h, ss, more, hmore => by
      simp only [wellFormed, Bool.and_eq_true] at h
      obtain ⟨kind, hkind⟩ := Option.isSome_iff_exists.mp h.1.1
      have hwords : (augAssign target op value span).lineWords spelling =
          target.words spelling .disjunction ++
            .sign kind :: value.words spelling .disjunction := by
        simp [lineWords, hkind]
      refine .line ?_ hmore
      rw [hwords]
      exact .augAssign hkind (Expr.writes_words spelling target .disjunction h.1.2)
        (Expr.writes_words spelling value .disjunction h.2)
  | expr e span, column, h, ss, more, hmore =>
      .line (.expr (Expr.writes_words spelling e .disjunction h)) hmore
  | giveBack none span, column, h, ss, more, hmore => .line .giveBackNothing hmore
  | giveBack (some value) span, column, h, ss, more, hmore =>
      .line (.giveBack (Expr.writes_words spelling value .disjunction h)) hmore
  | breakLoop span, column, h, ss, more, hmore => .line .breakLoop hmore
  | continueLoop span, column, h, ss, more, hmore => .line .continueLoop hmore
  | pass span, column, h, ss, more, hmore => .line .pass hmore

theorem lined_blockLines {step : Nat} (hstep : 0 < step) : ∀ (ss : List Stmt) (column : Nat),
    wellFormedBlock named ss = true → Lined column ss (blockLines spelling step column ss)
  | [], _, _ => .nil
  | s :: ss, column, h => by
      rw [wellFormedBlock, Bool.and_eq_true] at h
      exact lined_lines hstep s column h.1 (lined_blockLines hstep ss column h.2)

end

end Stmt

end lined

section laid

theorem Form.Writes.ne_nil {f : Form} {ws : List Word} (h : f.Writes ws) : ws ≠ [] := by
  induction h <;> simp_all

theorem Sides.ne_nil {es : List Expr} {ws : List Word} (h : Sides es ws) : ws ≠ [] := by
  cases h with
  | last he => exact he.ne_nil
  | more he _ => exact List.append_ne_nil_of_left_ne_nil he.ne_nil _

theorem Stmt.WritesLine.ne_nil {s : Stmt} {ws : List Word} (h : s.WritesLine ws) : ws ≠ [] := by
  cases h with
  | expr he => exact he.ne_nil
  | assign _ hsides => exact hsides.ne_nil
  | augAssign _ htarget _ => exact List.append_ne_nil_of_left_ne_nil htarget.ne_nil _
  | pass | breakLoop | continueLoop | giveBackNothing | giveBack | importNames => nofun

theorem Stmt.Lined.words_ne_nil {column : Nat} {ss : List Stmt} {lines : List SourceLine}
    (h : Lined column ss lines) : ∀ line ∈ lines, line.words ≠ [] := by
  induction h with
  | nil => nofun
  | line hs _ ih => exact List.forall_mem_cons.mpr ⟨hs.ne_nil, ih⟩
  | define _ _ _ _ _ ihbody ih =>
      rw [List.forall_mem_append, List.forall_mem_map, List.forall_mem_cons,
        List.forall_mem_append]
      exact ⟨fun _ _ => nofun, nofun, ihbody, ih⟩
  | whileLoop _ _ _ _ _ ihbody ih =>
      rw [List.forall_mem_cons, List.forall_mem_append]
      exact ⟨nofun, ihbody, ih⟩

theorem spelled_intercalate {ws : List Word} (hnonempty : ws ≠ []) (hws : AllPlain ws) :
    Spelled ws ([' '].intercalate (ws.map Word.chars)) := by
  induction ws with
  | nil => exact absurd rfl hnonempty
  | cons w ws ih =>
      obtain ⟨hw, hws⟩ := List.forall_mem_cons.mp hws
      cases ws with
      | nil => simpa using Spelled.last hw
      | cons w' ws =>
          have hgap : ∀ c ∈ [' '], Scan.isBlank c = true := by simp [Scan.isBlank]
          have hmore := ih (List.cons_ne_nil _ _) hws
          simpa [List.intercalate_cons_cons] using Spelled.more hw hgap (by simp) hmore

theorem laid_chars {lines : List SourceLine}
    (hlines : ∀ line ∈ lines, line.words ≠ [] ∧ AllPlain line.words) :
    Laid lines (lines.flatMap fun line => line.chars ++ ['\n']) := by
  induction lines with
  | nil => exact .done (.blank nofun)
  | cons line lines ih =>
      obtain ⟨hline, hlines⟩ := List.forall_mem_cons.mp hlines
      have hend : Filler [] := .blank nofun
      have hlaid := Laid.line (spelled_intercalate hline.1 hline.2) hend (ih hlines)
      simpa [SourceLine.chars] using hlaid

end laid

namespace Stmt

/-- The text is a source text of the statements: it writes lines on which they are laid out, at the
columns that are counted. -/
def IsSource (ss : List Stmt) (source : String) : Prop :=
  ∃ lines, Lined 0 ss (lines.map SourceLine.counted) ∧ Laid lines source.toList

theorem laid_render {ss : List Stmt} (h : wellFormedBlock TokenKind.isName ss = true)
    {step : Nat} (hstep : 0 < step) :
    Laid (blockLines .standard step 0 ss) (render step ss).toList := by
  have hlined := lined_blockLines Spelling.standard hstep ss 0 h
  rw [render, String.toList_ofList]
  exact laid_chars fun line hline =>
    ⟨hlined.words_ne_nil line hline, plain_blockLines step ss 0 h line hline⟩

theorem isSource_render {ss : List Stmt} (h : wellFormedBlock TokenKind.isName ss = true)
    {step : Nat} (hstep : 0 < step) (hdeep : step * blockNesting ss < columnLimit) :
    IsSource ss (render step ss) := by
  have hcounted : (blockLines .standard step 0 ss).map SourceLine.counted =
      blockLines .standard step 0 ss := by
    refine (List.map_congr_left fun line hline => ?_).trans (List.map_id _)
    have hcolumn := column_blockLines .standard step ss 0 line hline
    rw [SourceLine.counted, Nat.mod_eq_of_lt (by omega)]
    rfl
  refine ⟨blockLines .standard step 0 ss, ?_, laid_render h hstep⟩
  rw [hcounted]
  exact lined_blockLines Spelling.standard hstep ss 0 h

theorem IsSource.skip {ss : List Stmt} {filler source : String} (hfiller : Filler filler.toList)
    (h : IsSource ss source) : IsSource ss (filler ++ "\n" ++ source) := by
  obtain ⟨lines, hlined, hlaid⟩ := h
  refine ⟨lines, hlined, ?_⟩
  simpa using Laid.skip hfiller hlaid

theorem IsSource.parseModule {ss : List Stmt} {source : String} (h : IsSource ss source) :
    ∃ m, parseModule source = .ok m ∧ bareBlock m.body = bareBlock ss := by
  obtain ⟨lines, hlined, hlaid⟩ := h
  obtain ⟨ws, tokens, hws, htokens, hlex⟩ := layout_of_lined
    ((LineIndex.ofString source).span source.utf8ByteSize source.utf8ByteSize) hlined
    hlaid.scanned
  obtain ⟨m, hm, hbody⟩ := parseTokens_of_writes (endSpan source tokens) hws htokens
  refine ⟨m, ?_, hbody⟩
  rw [P16.parseModule, show lex source = .ok tokens from hlex]
  exact hm

end Stmt

/-- Every tree that has a source text is parsed from each of its source texts, whatever their
blank lines, comments, redundant parentheses and indentation, as long as the columns are counted in
the order that they have (`wide_suite_rejected`). -/
theorem parseModule_render {ss : List Stmt}
    (h : Stmt.wellFormedBlock TokenKind.isName ss = true) :
    (∀ step, 0 < step → step * Stmt.blockNesting ss < columnLimit →
      Stmt.IsSource ss (Stmt.render step ss)) ∧
    ∀ source, Stmt.IsSource ss source →
      ∃ m, parseModule source = .ok m ∧ Stmt.bareBlock m.body = Stmt.bareBlock ss :=
  ⟨fun _ => Stmt.isSource_render h, fun _ => Stmt.IsSource.parseModule⟩

/-- A decorated function with a loop in it, and a call. -/
def decoratedLoop : List Stmt :=
  [.importNames [⟨⟨[⟨"dev", default⟩, ⟨"screen", default⟩], default⟩, some ⟨"s", default⟩, default⟩]
      default,
    .define ⟨"f", default⟩ [⟨"x", default⟩, ⟨"y", default⟩]
      [.call (.member (.name ⟨"s", default⟩) ⟨"on", default⟩ default) [.text "\"\n" default] []
        default]
      [.whileLoop
          (.unary .not (.compare (.name ⟨"x", default⟩)
            [(.lt, .number 1 default), (.notIn, .name ⟨"y", default⟩)] default) default)
          [.augAssign (.name ⟨"x", default⟩) .floorDiv
            (.binary .pow (.unary .neg (.number 2 default) default) (.name ⟨"y", default⟩) default)
            default]
          default,
        .giveBack (some (.tuple [.name ⟨"x", default⟩] default)) default]
      default,
    .assign [.name ⟨"a", default⟩, .subscript (.name ⟨"b", default⟩) (.number 0 default) default]
      (.call (.name ⟨"f", default⟩) [.list [] default]
        [⟨⟨"y", default⟩, .dict [] default, default⟩] default) default]

theorem parseModule_render_decoratedLoop :
    Stmt.wellFormedBlock TokenKind.isName decoratedLoop = true ∧
    ∃ m, parseModule ("\t# first" ++ "\n" ++ Stmt.render 3 decoratedLoop) = .ok m ∧
      Stmt.bareBlock m.body = Stmt.bareBlock decoratedLoop := by
  have hform : Stmt.wellFormedBlock TokenKind.isName decoratedLoop = true := by decide
  obtain ⟨hrender, hparse⟩ := parseModule_render hform
  have hcomment : Filler (['\t'] ++ '#' :: [' ', 'f', 'i', 'r', 's', 't']) :=
    .comment (by simp [Scan.isBlank]) (by simp)
  exact ⟨hform, hparse _ ((hrender 3 (by decide) (by decide)).skip hcomment)⟩

/-- `while A: pass` -/
def passingLoop : Stmt := .whileLoop (.name ⟨"A", default⟩) [.pass default] default

theorem parseTokens_unindented {eof : Span} {tokens : List Token}
    (h : Spells tokens (Stmt.whileWords [.name "A"] ++ [.sign .newline, .sign .kwPass,
      .sign .newline])) : ∃ e, parseTokens eof tokens = .error e := by
  obtain ⟨⟨kind, span₀, text₀⟩, _, rfl, h₀, h⟩ := List.map_eq_cons_iff.mp h
  obtain ⟨⟨kind, span₁, text₁⟩, _, rfl, h₁, h⟩ := List.map_eq_cons_iff.mp h
  obtain ⟨⟨kind, span₂, text₂⟩, _, rfl, h₂, h⟩ := List.map_eq_cons_iff.mp h
  obtain ⟨⟨kind, span₃, text₃⟩, _, rfl, h₃, h⟩ := List.map_eq_cons_iff.mp h
  obtain ⟨⟨kind, span₄, text₄⟩, _, rfl, h₄, h⟩ := List.map_eq_cons_iff.mp h
  obtain ⟨⟨kind, span₅, text₅⟩, _, rfl, h₅, h⟩ := List.map_eq_cons_iff.mp h
  obtain rfl := List.map_eq_nil_iff.mp h
  cases congrArg Word.kind h₀
  cases congrArg Word.kind h₁
  cases congrArg Word.kind h₂
  cases congrArg Word.kind h₃
  cases congrArg Word.kind h₄
  cases congrArg Word.kind h₅
  exact ⟨_, rfl⟩

/-- A suite is on the column of its loop if it is indented by as many blanks as there are
columns. -/
theorem wide_suite_rejected :
    Stmt.wellFormedBlock TokenKind.isName [passingLoop] = true ∧
      ∃ e, parseModule (Stmt.render 0x100000000 [passingLoop]) = .error e := by
  have hform : Stmt.wellFormedBlock TokenKind.isName [passingLoop] = true := by decide
  refine ⟨hform, ?_⟩
  have hlines (step : Nat) : Stmt.blockLines .standard step 0 [passingLoop] =
      [⟨0, Stmt.whileWords [.name "A"]⟩, ⟨0 + step, [.sign .kwPass]⟩] := rfl
  generalize hsource : Stmt.render 0x100000000 [passingLoop] = source
  have hlaid : Laid _ source.toList := hsource ▸ Stmt.laid_render hform (by omega)
  have hscanned := hlaid.scanned
  rw [hlines] at hscanned
  -- the second line is counted at the column of the first
  change Scanned [⟨0, Stmt.whileWords [.name "A"]⟩, ⟨0, [.sign .kwPass]⟩] _ at hscanned
  obtain ⟨ts, t, raw, hts, ht, hraw, hgives⟩ := hscanned.gives_line
    ((LineIndex.ofString source).span source.utf8ByteSize source.utf8ByteSize)
    (Stmt.inline_whileWords (.cons rfl .nil)) (Eq.refl (List.headD [] 0))
  obtain ⟨ts', t', raw', hts', ht', hraw', hgives'⟩ := hraw.gives_line _ (.cons rfl .nil)
    (Eq.refl (List.headD [] 0))
  have hlex := (hgives.trans hgives') [] (tokensFrom_of_scanned_nil _ hraw')
  have hwords := (hts.append (.sign ht rfl)).append (hts'.append (.sign ht' rfl))
  rw [List.append_nil] at hlex
  rw [parseModule, show lex source = .ok _ from hlex]
  exact parseTokens_unindented hwords

end P16
