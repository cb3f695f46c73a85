import P16.Proofs.CallingConvention
import P16.Proofs.ImportReports
import P16.Proofs.Independence
import P16.Proofs.Reach
import P16.Proofs.RoundTrip

/-!
# Programs that call a function of an imported module

The shortest program that makes use of a module imports it and calls one of its functions. What is
written for it depends on the tree without its spans, and is the code of the call, followed by what
stands behind the end of the program once the function's body has been written.
-/

namespace P16

open Compilation

/-- The text is read as the statements, wherever in the text they stand. -/
def ReadAs (source : String) (stmts : List Stmt) : Prop :=
  ∃ m, parseModule source = .ok m ∧ Stmt.bareBlock m.body = Stmt.bareBlock stmts

/-- A text is read as statements if its tree and the statements are rendered alike. -/
theorem ReadAs.of_render {source : String} {stmts : List Stmt}
    (hstmts : Stmt.wellFormedBlock TokenKind.isName stmts = true)
    (hread : (parseModule source).toOption.any (fun m =>
      Stmt.wellFormedBlock TokenKind.isName m.body && Stmt.blockNesting m.body == 0 &&
        Stmt.blockNesting stmts == 0 && Stmt.render 1 m.body == Stmt.render 1 stmts) = true) :
    ReadAs source stmts := by
  cases hm : parseModule source with
  | error e => simp [hm, Except.toOption] at hread
  | ok m =>
      simp only [hm, Except.toOption, Option.any_some, Bool.and_eq_true, beq_iff_eq] at hread
      obtain ⟨⟨⟨hbody, hflat⟩, hflat'⟩, hsame⟩ := hread
      have hread := (Stmt.isSource_render hbody Nat.one_pos (by rw [hflat]; decide)).parseModule
      rw [hsame] at hread
      obtain ⟨m₁, hm₁, hbare₁⟩ := hread
      obtain ⟨m₂, hm₂, hbare₂⟩ :=
        (Stmt.isSource_render hstmts Nat.one_pos (by rw [hflat']; decide)).parseModule
      cases hm₁.symm.trans hm₂
      exact ⟨m, hm, hbare₁.symm.trans hbare₂⟩

section operands

/-- What an expression stands for if neither parameters nor constants are needed. -/
inductive Expr.StandsFor : Expr → Operand → Prop where
  | literal {n : Int} {span : Span} {w : UInt16} (hw : word? n = some w) :
      StandsFor (.number n span) (.lit w)
  | negative {n : Int} {inner span : Span} {w : UInt16} (hw : word? (-n) = some w) :
      StandsFor (.unary .neg (.number n inner) span) (.lit w)
  | register {ident : Ident} {x : Register} (hx : Register.ofName? ident.text = some x) :
      StandsFor (.name ident) (.reg x)

theorem Expr.eq_name_of_bare {e : Expr} {ident : Ident} (h : e.bare = .name ident.bare) :
    ∃ ident', e = .name ident' ∧ ident'.text = ident.text := by
  cases e <;> simp only [Expr.bare, reduceCtorEq, Expr.name.injEq, Ident.bare, Ident.mk.injEq] at h
  exact ⟨_, rfl, h.1⟩

namespace Expr.StandsFor

variable {e e' : Expr} {a : Operand} {c : Compilation}

theorem operand (h : e.StandsFor a) (hc : c.scope.aliases = .empty) : c.operand e = .ok a := by
  cases h with
  | literal hw => simp [Compilation.operand, literalOperand, hw]
  | negative hw => simp [Compilation.operand, literalOperand, hw]
  | register hx => simp [Compilation.operand, registerNamed?, hc, hx]

theorem of_bare (h : e.StandsFor a) (he : e'.bare = e.bare) : e'.StandsFor a := by
  cases h with
  | literal hw =>
      cases e' <;> simp only [Expr.bare, reduceCtorEq, Expr.number.injEq] at he
      exact .literal (he.1 ▸ hw)
  | negative hw =>
      cases e' with
      | unary op inner span =>
          simp only [Expr.bare, Expr.unary.injEq] at he
          obtain ⟨rfl, hinner, -⟩ := he
          cases inner <;> simp only [Expr.bare, reduceCtorEq, Expr.number.injEq] at hinner
          exact .negative (hinner.1 ▸ hw)
      | _ => simp only [Expr.bare, reduceCtorEq] at he
  | register hx =>
      obtain ⟨ident', rfl, htext⟩ := Expr.eq_name_of_bare he
      exact .register (htext ▸ hx)

theorem mapM_operand {es : List Expr} {operands : List Operand}
    (h : List.Forall₂ Expr.StandsFor es operands) (hc : c.scope.aliases = .empty) :
    es.mapM c.operand = .ok operands := by
  induction h with
  | nil => rfl
  | cons h _ ih =>
      rw [List.mapM_cons, h.operand hc, ih]
      rfl

end Expr.StandsFor

theorem Expr.toDottedName?_bare :
    ∀ e : Expr, e.bare.toDottedName? = e.toDottedName?.map DottedName.bare
  | .name ident => rfl
  | .member value attr span => by
      rw [Expr.bare, Expr.toDottedName?, Expr.toDottedName?, toDottedName?_bare value]
      cases value.toDottedName? with
      | none => rfl
      | some front => simp [DottedName.snoc, DottedName.bare, Span.through, Ident.bare]
  | .number .. | .text .. | .tuple .. | .list .. | .dict .. | .call .. | .binary .. | .unary ..
  | .compare .. | .subscript .. => by simp [Expr.bare, Expr.toDottedName?]

theorem DottedName.texts_bare (name : DottedName) :
    name.bare.segments.map Ident.text = name.segments.map Ident.text := by
  simp [DottedName.bare, Ident.bare, Function.comp_def]

theorem splitMember_of_bare {e e' : Expr} {parts : ModulePath × String}
    (h : splitMember e = .ok parts) (he : e'.bare = e.bare) : splitMember e' = .ok parts := by
  have hnames := congrArg Expr.toDottedName? he
  rw [Expr.toDottedName?_bare, Expr.toDottedName?_bare] at hnames
  unfold splitMember at h ⊢
  cases hname : e.toDottedName? with
  | none => simp [hname] at h
  | some name =>
      rw [hname, Option.map_some, Option.map_eq_some_iff] at hnames
      obtain ⟨name', hname', hbare⟩ := hnames
      rw [hname] at h
      rw [hname', ← h]
      dsimp only
      rw [← name'.texts_bare, hbare, name.texts_bare]

end operands

section statements

/-- The expression calls the function by its full name, with these operands. -/
inductive Expr.Calls (key : FunctionKey) : Expr → List Operand → Prop where
  | call {value : Expr} {attr : Ident} {inner span : Span} {args : List Expr}
      {operands : List Operand}
      (hk : splitMember (.member value attr inner) = .ok (key.path, key.name))
      (ha : List.Forall₂ Expr.StandsFor args operands) :
      Calls key (.call (.member value attr inner) args [] span) operands

/-- The statement calls the function, and the results go to the registers. -/
inductive Stmt.Calls (key : FunctionKey) : Stmt → List Operand → List Register → Prop where
  | expr {e : Expr} {span : Span} {operands : List Operand} (he : e.Calls key operands) :
      Calls key (.expr e span) operands []
  | assign {ident : Ident} {x : Register} {e : Expr} {span : Span} {operands : List Operand}
      (hx : Register.ofName? ident.text = some x) (he : e.Calls key operands) :
      Calls key (.assign [.name ident] e span) operands [x]

variable {key : FunctionKey} {operands : List Operand} {registers : List Register}

theorem Expr.standsFor_of_bareItems {es es' : List Expr}
    (h : List.Forall₂ Expr.StandsFor es operands)
    (he : Expr.bareItems es' = Expr.bareItems es) : List.Forall₂ Expr.StandsFor es' operands := by
  induction h generalizing es' with
  | nil =>
      cases es' with
      | nil => exact .nil
      | cons _ _ => simp only [Expr.bareItems, reduceCtorEq] at he
  | cons h _ ih =>
      cases es' with
      | nil => simp only [Expr.bareItems, reduceCtorEq] at he
      | cons e es' =>
          simp only [Expr.bareItems, List.cons.injEq] at he
          exact .cons (h.of_bare he.1) (ih he.2)

theorem Expr.Calls.of_bare {e e' : Expr} (h : e.Calls key operands) (he : e'.bare = e.bare) :
    e'.Calls key operands := by
  cases h with
  | call hk ha =>
      cases e' with
      | call callee' args' keywords' span' =>
          simp only [Expr.bare, Expr.call.injEq] at he
          obtain ⟨hcallee, hargs, hkeywords, -⟩ := he
          cases keywords' with
          | cons _ _ => simp only [Expr.bareKeywords, reduceCtorEq] at hkeywords
          | nil =>
              cases callee' with
              | member value' attr' inner' =>
                  exact .call (splitMember_of_bare hk (by rw [hcallee, Expr.bare]))
                    (Expr.standsFor_of_bareItems ha hargs)
              | _ => simp only [Expr.bare, reduceCtorEq] at hcallee
      | _ => simp only [Expr.bare, reduceCtorEq] at he

theorem Stmt.Calls.of_bare {s s' : Stmt} (h : s.Calls key operands registers)
    (hs : s'.bare = s.bare) : s'.Calls key operands registers := by
  cases h with
  | expr he =>
      cases s' <;> simp only [Stmt.bare, reduceCtorEq, Stmt.expr.injEq] at hs
      exact .expr (he.of_bare hs.1)
  | assign hx he =>
      cases s' <;> simp only [Stmt.bare, reduceCtorEq, Stmt.assign.injEq] at hs
      obtain ⟨htargets, hvalue, -⟩ := hs
      rw [Expr.bareItems_eq_map, Expr.bareItems_eq_map, List.map_singleton,
        List.map_eq_singleton_iff] at htargets
      obtain ⟨target, rfl, htarget⟩ := htargets
      obtain ⟨ident', rfl, htext⟩ := Expr.eq_name_of_bare htarget
      exact .assign (htext ▸ hx) (he.of_bare hvalue)

section calls

variable {s : Stmt} (h : s.Calls key operands registers)
include h

theorem Stmt.Calls.importTexts_eq : s.importTexts = [] := by
  cases h <;> simp [Stmt.importTexts]

theorem Stmt.Calls.defined_eq : s.defined = [] := by
  cases h <;> simp [Stmt.defined]

end calls

/-- The statement that imports one module under its own name. -/
def Stmt.importing (path : List String) : Stmt :=
  .importNames [⟨⟨path.map (⟨·, default⟩), default⟩, none, default⟩] default

theorem Stmt.eq_of_bare_importing {s : Stmt} {path : List String}
    (h : s.bare = (importing path).bare) : ∃ name span, s = .importNames [name] span ∧
      name.newName? = none ∧ name.path.text = ".".intercalate path := by
  cases s <;> simp only [importing, Stmt.bare, reduceCtorEq, Stmt.importNames.injEq] at h
  obtain ⟨hnames, -⟩ := h
  rw [List.map_singleton, List.map_eq_singleton_iff] at hnames
  obtain ⟨name, rfl, hname⟩ := hnames
  simp only [ImportName.bare, ImportName.mk.injEq, Option.map_none, Option.map_eq_none_iff] at hname
  refine ⟨name, _, rfl, hname.2.1, ?_⟩
  rw [DottedName.text, ← name.path.texts_bare, hname.1, DottedName.texts_bare]
  simp [Function.comp_def]

theorem ReadAs.pair {source : String} {s t : Stmt} (h : ReadAs source [s, t]) :
    ∃ m s' t', parseModule source = .ok m ∧ m.body = [s', t'] ∧ s'.bare = s.bare ∧
      t'.bare = t.bare := by
  obtain ⟨m, hm, hbody⟩ := h
  match hstmts : m.body with
  | [] | [_] | _ :: _ :: _ :: _ => simp [hstmts, Stmt.bareBlock] at hbody
  | [s', t'] =>
      simp only [hstmts, Stmt.bareBlock, List.cons.injEq, and_true] at hbody
      exact ⟨m, s', t', hm, hstmts, hbody⟩

end statements

namespace Compilation

/-- The state behind the import of the module `dotted`, whose file holds `lib`. -/
def afterImport (env : Environment) (enter : Enter) (dotted file : String) (lib : Module)
    (c : Compilation) : Compilation :=
  (c.begun env dotted).leaveScope (enter lib.body ((c.begun env dotted).openModule dotted file))

/-- A call of the function is possible, and nothing is reported while its body is written. At the
end of the program stands `footer` then. -/
@[mk_iff]
structure Offers (c : Compilation) (enter : Enter) (key : FunctionKey) (label : String)
    (arity results : Nat) (footer : List Line) : Prop where
  function : (c.function? key).map (fun f => (f.label, f.arity)) = some (label, arity)
  returns : ((c.ensureEmitted enter key).function? key).map FunctionSymbol.returns? =
    some (some results)
  diagnostics : (c.ensureEmitted enter key).diagnostics.size = 0
  active : (c.ensureEmitted enter key).program.active = .body
  body : (c.ensureEmitted enter key).program.body.toList = []
  footer : (c.ensureEmitted enter key).program.footer.toList = footer

instance (c : Compilation) (enter : Enter) (key : FunctionKey) (label : String)
    (arity results : Nat) (footer : List Line) :
    Decidable (c.Offers enter key label arity results footer) :=
  decidable_of_iff' _ (offers_iff ..)

variable {env : Environment} {enter : Enter} {c c' : Compilation} {key : FunctionKey}
  {label : String} {arity results : Nat} {footer : List Line}

theorem Agrees.function?_eq (h : c.Agrees c') (key : FunctionKey) :
    c'.function? key = c.function? key := by
  unfold function? Store.functionIn?
  rw [← Store.contents_symbols, h.contents, Store.contents_symbols]

theorem Offers.of_sameWork (ho : c.Offers enter key label arity results footer)
    (h : c.SameWork c') : c'.Offers enter key label arity results footer := by
  have hwritten := h.ensureEmitted enter key
  constructor
  · rw [h.agrees.function?_eq, ho.function]
  · rw [hwritten.function?_eq, ho.returns]
  · rw [hwritten.diagnostics, ho.diagnostics]
  · rw [hwritten.program, ho.active]
  · rw [hwritten.program, ho.body]
  · rw [hwritten.program, ho.footer]

theorem afterImport_sameWork (dotted file : String) (lib : Module) (file? : Option String) :
    ((start none).afterImport env enter dotted file lib).SameWork
      ((start file?).afterImport env enter dotted file lib) := by
  have hbegun : ((start none).begun env dotted).SameWork ((start file?).begun env dotted) := by
    unfold begun
    cases env.registry.find? dotted with
    | none => exact ⟨rfl, rfl, rfl, rfl, rfl, rfl⟩
    | some e => exact ⟨rfl, rfl, rfl, rfl, rfl, rfl⟩
  have hopened := (hbegun.record (.load dotted)).enterScope_eq (.ofDotted dotted)
    (.ofFile (some file))
  unfold afterImport openModule leaveScope
  rw [hopened, begun_current, begun_current]
  exact ⟨rfl, rfl, rfl, rfl, rfl, rfl⟩

end Compilation

theorem Program.lines_writeAll {p : Program} (h : p.active = .body) (lines : List Line) :
    (p.writeAll lines).lines = p.body.toList ++ lines ++ p.footer.toList := by
  induction lines generalizing p with
  | nil => rw [Program.writeAll_nil, Program.lines, List.append_nil]
  | cons line lines ih =>
      rw [Program.writeAll_cons, ih (by rw [Program.active_write, h])]
      simp [Program.write, h]

namespace LowerM

variable {env : Environment} {enter : Enter} {c : Compilation} {key : FunctionKey} {label : String}
  {operands : List Operand} {registers : List Register} {footer : List Line}

theorem importNames_of_file {name : ImportName} {file : String} {lib : Module}
    (hnew : name.newName? = none) (hfresh : name.path.text ∉ c.imported)
    (hfault : c.installFault? env name.path.text = none)
    (hfile : env.sources.find? (.ofDotted name.path.text) = some (file, .ok lib))
    (hquiet : (c.afterImport env enter name.path.text file lib).errorCount ≤ c.errorCount) :
    importNames env enter [name] c = c.afterImport env enter name.path.text file lib := by
  have himport : importName env enter name c =
      .ok () (c.afterImport env enter name.path.text file lib) := by
    have hprovides : env.Provides name.path.text := .inr (by rw [hfile, Option.isSome_some])
    rw [importName_of_not_mem hnew hfresh, importFresh_eq _ _ _ _ _ hprovides, hfault]
    dsimp only
    rw [importFile_of_module _ _ _ _ _ _ hfile]
    exact if_neg (Nat.not_lt.mpr hquiet)
  rw [importNames, List.foldl_cons, List.foldl_nil, reporting, himport]

theorem callFunction_eq_ok {shown : String} {f : FunctionSymbol} {site : CallSite}
    {targets : List Expr} (hk : site.keywords = []) (hn : site.args.length = f.arity)
    (ha : site.args.mapM c.operand = .ok operands) (ht : targets.mapM c.target = .ok registers)
    (hr : ((c.ensureEmitted enter key).function? key).map FunctionSymbol.returns? =
      some (some registers.length)) :
    callFunction enter key shown f site targets c =
      .ok () (((c.ensureEmitted enter key).write fun p =>
        p.callSequence c.scope.function?.isSome f.label operands registers).record
          (.call key registers.length c.scope.function?.isSome)) := by
  have hask {α : Type} {g : Compilation → Except Failure α} {a : α} (h : g c = .ok a) :
      ask g c = .ok a c := by
    unfold ask
    rw [h]
  have hsettled : settleReturns key registers.length shown site.span (c.ensureEmitted enter key) =
      .ok () (c.ensureEmitted enter key) := by
    refine (bind_of_ok rfl).trans ?_
    rw [hr]
    exact congrFun (if_neg (not_not.mpr rfl)) _
  unfold callFunction
  rw [hk, if_neg (not_not.mpr hn)]
  refine (bind_of_ok (hask ha)).trans ((bind_of_ok (hask ht)).trans ?_)
  refine (bind_of_ok rfl).trans ((bind_of_ok hsettled).trans ?_)
  refine (bind_of_ok rfl).trans ?_
  rw [ensureEmitted_scope]
  rfl

section call

variable {value : Expr} {attr : Ident} {inner span : Span} {args targets : List Expr}

theorem call_of_offers (ho : c.Offers enter key label operands.length registers.length footer)
    (hc : c.scope.aliases = .empty)
    (hk : splitMember (.member value attr inner) = .ok (key.path, key.name))
    (ha : List.Forall₂ Expr.StandsFor args operands)
    (ht : targets.mapM c.target = .ok registers) :
    call env enter ⟨.member value attr inner, args, [], span⟩ targets c =
      .ok () (((c.ensureEmitted enter key).write fun p =>
        p.callSequence c.scope.function?.isSome label operands registers).record
          (.call key registers.length c.scope.function?.isSome)) := by
  obtain ⟨f, hf, hdata⟩ := Option.map_eq_some_iff.mp ho.function
  obtain ⟨rfl, harity⟩ := Prod.mk.inj hdata
  have hkey : c.callee (.member value attr inner) = .ok key := by
    simp only [Compilation.callee, hk]
    rfl
  have hcount : args.length = f.arity := ha.length_eq.trans harity.symm
  rw [call_eq_callFunction env enter targets rfl hkey hf]
  exact callFunction_eq_ok rfl hcount (Expr.StandsFor.mapM_operand ha hc) ht ho.returns

theorem stmt_of_offers (ho : c.Offers enter key label operands.length registers.length footer)
    (hc : c.scope.aliases = .empty) {s : Stmt} (hs : s.Calls key operands registers) :
    stmt env enter s c = .ok () (((c.ensureEmitted enter key).write fun p =>
      p.callSequence c.scope.function?.isSome label operands registers).record
        (.call key registers.length c.scope.function?.isSome)) := by
  cases hs with
  | expr he =>
      cases he with
      | call hk ha =>
          rw [stmt, exprStmt]
          exact call_of_offers ho hc hk ha rfl
  | @assign ident x _ _ _ hx he =>
      cases he with
      | call hk ha =>
          have htarget : [Expr.name ident].mapM c.target = .ok [x] := by
            simp [target, registerNamed?, hc, hx]
          rw [stmt, assign]
          exact call_of_offers ho hc hk ha htarget

end call

/-- The code of the call comes first, then the end of the program with what was needed for the
call. -/
theorem block_imported_call {i s : Stmt} {path : List String} {dotted file : String} {lib : Module}
    (hpath : ".".intercalate path = dotted)
    (hfile : env.sources.find? (.ofDotted dotted) = some (file, .ok lib))
    (hfault : (start none).installFault? env dotted = none)
    (hquiet : ((start none).afterImport env enter dotted file lib).errorCount = 0)
    (ho : ((start none).afterImport env enter dotted file lib).Offers enter key label
      operands.length registers.length footer)
    (hi : i.bare = (Stmt.importing path).bare) (hs : s.Calls key operands registers)
    (file? : Option String) :
    (block env enter [i, s] (.start file?)).program.lines =
        callLines false label operands registers ++ footer ∧
      (block env enter [i, s] (.start file?)).diagnostics = #[] := by
  obtain ⟨name, span, rfl, hnew, htext⟩ := Stmt.eq_of_bare_importing hi
  obtain rfl : dotted = name.path.text := (htext.trans hpath).symm
  have hsame := @afterImport_sameWork env enter name.path.text file lib file?
  have hcount := hsame.agrees.errorCount.trans hquiet
  have himport : reporting (stmt env enter (.importNames [name] span)) (.start file?) =
      (start file?).afterImport env enter name.path.text file lib := by
    rw [stmt]
    exact importNames_of_file hnew List.not_mem_nil hfault hfile (hcount ▸ Nat.zero_le _)
  have hoffers := ho.of_sameWork hsame
  have hscope : ((start file?).afterImport env enter name.path.text file lib).scope =
      .ofFile file? := begun_scope ..
  have hcall : stmt env enter s _ = _ := stmt_of_offers hoffers (by rw [hscope]; rfl) hs
  rw [block, block, block, himport, reporting, hcall, hscope]
  refine ⟨?_, Array.size_eq_zero_iff.mp hoffers.diagnostics⟩
  change (Program.callSequence _ false label operands registers).lines = _
  rw [Program.callSequence_eq, Program.lines_writeAll hoffers.active, hoffers.body, hoffers.footer,
    List.nil_append]

end LowerM

end P16
