import P16.Proofs.Actions
import P16.Proofs.HookEffects

/-!
# What can come of a statement

`Outcome env enter c s c'` lists the states `c'` in which the statement `s` can leave the
compilation `c`, whether it fails or not; `Brings` does the same for one name of an import. The
bodies that are reached on the way are lowered by `enter`, about which nothing is assumed. `Acts`
are the outcomes in which no other body is entered.

What is proved about all statements is proved from these, with a case for each thing that can
happen, and without a look at the code of lowering.
-/

namespace P16

/-- Induction over blocks, in which the body of a loop is smaller than a block that begins with the
loop. -/
@[elab_as_elim]
theorem Stmt.block_induction {motive : List Stmt → Prop} (nil : motive [])
    (cons : ∀ s rest, (∀ test body span, s = .whileLoop test body span → motive body) →
      motive rest → motive (s :: rest)) : ∀ stmts, motive stmts
  | [] => nil
  | s :: rest =>
      cons s rest (fun _ body _ _hs => block_induction nil cons body)
        (block_induction nil cons rest)
termination_by stmts => sizeOf stmts
decreasing_by
  · subst _hs
    simp only [List.cons.sizeOf_spec, whileLoop.sizeOf_spec]
    omega
  · simp only [List.cons.sizeOf_spec]
    omega

/-- The call that a statement makes, and the targets of its results. -/
def Stmt.call? : Stmt → Option (CallSite × List Expr)
  | .expr (.call callee args keywords span) _ => some (⟨callee, args, keywords, span⟩, [])
  | .assign [target] (.call callee args keywords span) _ =>
    some (⟨callee, args, keywords, span⟩, LowerM.callTargets target)
  | _ => none

/-- A statement of `code` makes the call. -/
def Calls (code : List Stmt) (site : CallSite) (targets : List Expr) : Prop :=
  ∃ s ∈ code, s.call? = some (site, targets)

/-- A statement of `code` imports the module. -/
def Imports (code : List Stmt) (dotted : String) : Prop :=
  ∃ names span, .importNames names span ∈ code ∧ ∃ name ∈ names, name.path.text = dotted

theorem Imports.single (name : ImportName) :
    Imports [.importNames [name] name.span] name.path.text :=
  ⟨[name], name.span, List.mem_singleton_self _, name, List.mem_singleton_self _, rfl⟩

namespace Compilation

/-- What a hook's action in the module `path` makes of the compilation. -/
def afterHook (path : ModulePath) (act : HookM Unit) (c : Compilation) : Compilation :=
  let t := act.finish ⟨c.program, c.store.enter path, c.notes⟩
  { c with program := t.program, store := t.store.restore c.store.current, notes := t.notes }

/-- The beginning of an import: the module is marked, and its extension is installed. -/
def begun (env : Environment) (dotted : String) (c : Compilation) : Compilation :=
  let c := { c with imported := dotted :: c.imported }
  match env.registry.find? dotted with
  | none => c
  | some e => (c.record (.install dotted)).afterHook (.ofDotted dotted) (e.install dotted)

/-- The beginning of a module's file, after the beginning of its import. -/
def openModule (dotted file : String) (c : Compilation) : Compilation :=
  (c.record (.load dotted)).enterScope (.ofDotted dotted) (.ofFile (some file))

/-- A line that a statement writes on its own. -/
inductive Straight (c : Compilation) : Line → Prop where
  | set {target value : Expr} {x : Register} {a : Operand} (hx : c.target target = .ok x)
      (ha : c.operand value = .ok a) : c.Straight (.set (.reg x) a)
  | augment {target value : Expr} {op : BinaryOp} {opcode : BasicOpcode} {x : Register}
      {a : Operand} (ho : LowerM.augmentedOpcode? op = some opcode)
      (hx : c.target target = .ok x) (ha : c.operand value = .ok a) :
      c.Straight (.instruction (.basic opcode (.reg x) a))
  | memset {location value : Expr} {t a : Operand} (ht : c.address location = .ok t)
      (ha : c.operand value = .ok a) : c.Straight (.set t a)
  | halt : c.Straight (.jump Program.haltLabel)
  | loopJump {labels : LoopLabels} (jump : LoopJump) (h : c.scope.loops.head? = some labels) :
      c.Straight (.jump (jump.label labels))

end Compilation

open Compilation

inductive Acts (env : Environment) (code : List Stmt) (c : Compilation) : Compilation → Prop where
  | report (failure : Failure) : Acts env code c (c.report failure)
  | line {line : Line} (h : c.Straight line) : Acts env code c (c.write fun p => p.write line)
  | number {site : CallSite} {names : List String} (hc : Calls code site [])
      (hb : LowerM.builtinCallee site.callee = .ok (some .defineEnumerate))
      (hn : LowerM.enumerated site.args = .ok names) :
      Acts env code c (c.updateStore (LowerM.defineNumbers names))
  | declare {d : FunctionDef} (hm : .define d.name d.params d.decorators d.body d.span ∈ code)
      (h : c.Declares d) : Acts env code c (c.declare d)
  | giveBack {c₁ : Compilation} {key : FunctionKey} {value? : Option Expr} {span : Span}
      {operands : List Operand} (hm : .giveBack value? span ∈ code)
      (hk : c.scope.function? = some key)
      (ho : (LowerM.returned value?).mapM c.operand = .ok operands)
      (hs : c.Settles key operands.length c₁) :
      Acts env code c ((c₁.write fun p => (p.pushAll operands).jumpBack).record
        (.giveBack key operands.length))
  | beginImport {dotted : String} (hi : Imports code dotted) (hd : dotted ∉ c.imported)
      (hs : (env.registry.find? dotted).isSome ∨ (env.sources.find? (.ofDotted dotted)).isSome) :
      Acts env code c (c.begun env dotted)
  | hook {key : FunctionKey} {ref : HookRef} {hook : Hook} {site : CallSite}
      {positional : List Value} {keywords : Table String Value} (hc : Calls code site [])
      (he : c.callee site.callee = .ok key)
      (hl : c.store.lookup? key.path key.name = some (.hook ref))
      (hh : env.registry.hook? ref = some hook) (hp : c.values site.args = .ok positional)
      (hk : c.keywordValues .empty site.keywords = .ok keywords) :
      Acts env code c (c.afterHook key.path (hook.run ⟨positional, keywords⟩))

inductive Outcome (env : Environment) (enter : Enter) (c : Compilation) :
    Stmt → Compilation → Prop where
  | nothing (s : Stmt) : Outcome env enter c s c
  /-- An act of the statement itself, which reports nothing. -/
  | act {s : Stmt} {c' : Compilation} (h : Acts env [s] c c')
      (hd : c'.diagnostics = c.diagnostics) : Outcome env enter c s c'
  | call {s : Stmt} {c₁ : Compilation} {key : FunctionKey} {f : FunctionSymbol} {site : CallSite}
      {targets : List Expr} {arguments : List Operand} {results : List Register}
      (hc : s.call? = some (site, targets)) (hk : c.callee site.callee = .ok key)
      (hf : c.function? key = some f) (hn : site.args.length = f.arity)
      (ha : site.args.mapM c.operand = .ok arguments) (hr : targets.mapM c.target = .ok results)
      (hs : (c.ensureEmitted enter key).Settles key results.length c₁) :
      Outcome env enter c s ((c₁.write fun p =>
        p.callSequence c₁.scope.function?.isSome f.label arguments results).record
          (.call key results.length c₁.scope.function?.isSome))
  /-- A call with a wrong number of results, which is found after the body has been written. -/
  | wrongCount {s : Stmt} {key : FunctionKey} {f : FunctionSymbol} {site : CallSite}
      {targets : List Expr} (hc : s.call? = some (site, targets))
      (hk : c.callee site.callee = .ok key) (hf : c.function? key = some f) :
      Outcome env enter c s (c.ensureEmitted enter key)
  /-- The definition of a function whose body is written at once. -/
  | exported {d : FunctionDef} (hd : c.Declares d) :
      Outcome env enter c (.define d.name d.params d.decorators d.body d.span)
        ((c.declare d).ensureEmitted enter ⟨c.store.current, d.name.text⟩)
  | loop {e : Expr} {body : List Stmt} {span : Span} {test : LoopTest}
      (ht : c.loopTest e = .ok test) :
      Outcome env enter c (.whileLoop e body span)
        ((LowerM.block env enter body (c.openLoop test)).closeLoop c.store.current c.nextLoop)
  | imports (names : List ImportName) (span : Span) :
      Outcome env enter c (.importNames names span) (LowerM.importNames env enter names c)

/-- Some module of the name exists: an extension, a source file or both. -/
def Environment.Provides (env : Environment) (dotted : String) : Prop :=
  (env.registry.find? dotted).isSome ∨ (env.sources.find? (.ofDotted dotted)).isSome

/-- What can come of one name of an import. -/
inductive Brings (env : Environment) (enter : Enter) (c : Compilation) (name : ImportName) :
    Compilation → Prop where
  | nothing (h : name.newName? ≠ none ∨ name.path.text ∈ c.imported ∨
      ¬ env.Provides name.path.text) : Brings env enter c name c
  | begun (hd : name.path.text ∉ c.imported) (hs : env.Provides name.path.text) :
      Brings env enter c name (c.begun env name.path.text)
  | loaded {file : String} {m : Module} (hd : name.path.text ∉ c.imported)
      (hs : env.sources.find? (.ofDotted name.path.text) = some (file, .ok m)) :
      Brings env enter c name ((c.begun env name.path.text).leaveScope
        (enter m.body ((c.begun env name.path.text).openModule name.path.text file)))

namespace LowerM

section calls

variable (env : Environment) (enter : Enter) (c : Compilation) {s : Stmt} {site : CallSite}
  {targets : List Expr}

theorem loopJump_outcome (s : Stmt) (jump : LoopJump) (span : Span) :
    (loopJump jump span).Meets c (Outcome env enter c s) fun _ => Outcome env enter c s := by
  refine (loopJump_meets c jump span).mono ?_ ?_
  · rintro _ rfl
    exact .nothing s
  · rintro _ _ ⟨labels, hl, rfl⟩
    exact .act (.line (.loopJump jump hl)) rfl

theorem runBuiltin_outcome (b : Builtin) (hc : s.call? = some (site, []))
    (hb : builtinCallee site.callee = .ok (some b)) :
    (runBuiltin b site).Meets c (Outcome env enter c s) fun _ => Outcome env enter c s := by
  have hcalls : Calls [s] site [] := ⟨s, List.mem_singleton_self s, hc⟩
  cases b with
  | halt => exact .update (.act (.line .halt) rfl)
  | continueLoop => exact loopJump_outcome env enter c s .continueLoop site.span
  | breakLoop => exact loopJump_outcome env enter c s .breakLoop site.span
  | memset =>
      refine (memset_meets c site).mono ?_ ?_
      · rintro _ rfl
        exact .nothing s
      · rintro _ _ (rfl | ⟨location, value, t, a, ht, ha, rfl⟩)
        · exact .nothing s
        · exact .act (.line (.memset ht ha)) rfl
  | defineEnumerate =>
      exact .ask_bind (fun names hn => .update (.act (.number hcalls hb hn) rfl)) (.nothing s)

theorem builtin_outcome (b : Builtin) (hc : s.call? = some (site, []))
    (hb : builtinCallee site.callee = .ok (some b)) :
    (builtin b site).Meets c (Outcome env enter c s) fun _ => Outcome env enter c s := by
  unfold builtin
  dsimp only
  split
  · exact .failed_bind (.nothing s)
  split
  · split
    · exact .failed_bind (.nothing s)
    · exact runBuiltin_outcome env enter c b hc hb
  · exact runBuiltin_outcome env enter c b hc hb

theorem runHook_meets (path : ModulePath) (act : HookM Unit) {fails : Compilation → Prop} :
    (runHook path act).Meets c fails fun _ c' => c' = c.afterHook path act := by
  unfold Meets runHook afterHook HookM.finish
  cases act ⟨c.program, c.store.enter path, c.notes⟩ <;> rfl

theorem callHook_outcome (key : FunctionKey) (shown : String) (ref : HookRef)
    (hc : s.call? = some (site, [])) (he : c.callee site.callee = .ok key)
    (hl : c.store.lookup? key.path key.name = some (.hook ref)) :
    (callHook env key shown ref site).Meets c (Outcome env enter c s)
      fun _ => Outcome env enter c s := by
  have hcalls : Calls [s] site [] := ⟨s, List.mem_singleton_self s, hc⟩
  unfold callHook
  refine .ask_bind (fun positional hp => ?_) (.nothing s)
  refine .ask_bind (fun keywords hk => ?_) (.nothing s)
  split
  · exact .failed (.nothing s)
  · rename_i hook hh
    refine (runHook_meets c key.path _).bind ?_
    rintro result _ rfl
    cases result with
    | ok _ => exact .pure (.act (.hook hcalls he hl hh hp hk) rfl)
    | error message => exact .failed (.act (.hook hcalls he hl hh hp hk) rfl)

theorem callFunction_outcome {key : FunctionKey} {f : FunctionSymbol} (shown : String)
    (hc : s.call? = some (site, targets)) (hk : c.callee site.callee = .ok key)
    (hf : c.function? key = some f) :
    (callFunction enter key shown f site targets).Meets c (Outcome env enter c s)
      fun _ => Outcome env enter c s := by
  refine (callFunction_meets c enter key shown f site targets).mono ?_ ?_
  · rintro _ (rfl | rfl)
    · exact .nothing s
    · exact .wrongCount hc hk hf
  · rintro _ _ ⟨arguments, results, c₁, hn, ha, hr, hs, rfl⟩
    exact .call hc hk hf hn ha hr hs

theorem call_outcome (hc : s.call? = some (site, targets)) :
    (call env enter site targets).Meets c (Outcome env enter c s)
      fun _ => Outcome env enter c s := by
  have hfails : ∀ c', c' = c → Outcome env enter c s c' := fun c' hc' => hc' ▸ .nothing s
  unfold call
  refine .ask_bind (fun callee hb => ?_) (.nothing s)
  cases callee with
  | some b =>
    refine ((noTargets_meets c b.name targets).mono hfails fun _ _ h => h).bind ?_
    rintro _ _ ⟨rfl, rfl⟩
    exact builtin_outcome env enter _ b hc hb
  | none =>
    refine .ask_bind (fun key hk => ?_) (.nothing s)
    refine .get_bind ?_
    dsimp only
    split
    · rename_i ref hl
      refine ((noTargets_meets c _ targets).mono hfails fun _ _ h => h).bind ?_
      rintro _ _ ⟨rfl, rfl⟩
      exact callHook_outcome env enter _ key _ ref hc hk hl
    · rename_i f hl
      have hf : c.function? key = some f := by
        unfold function?
        rwa [Store.functionIn?_eq_some]
      exact callFunction_outcome env enter c _ hc hk hf
    · exact .failed (.nothing s)
    · exact .failed (.nothing s)

end calls

section statements

variable (env : Environment) (enter : Enter) (c : Compilation)

theorem assign_outcome (targets : List Expr) (value : Expr) (span : Span) :
    (assign env enter targets value span).Meets c (Outcome env enter c (.assign targets value span))
      fun _ => Outcome env enter c (.assign targets value span) := by
  unfold assign
  split
  · rename_i target
    split
    · exact call_outcome env enter c rfl
    · refine (assignOperand_meets c target value).mono ?_ ?_
      · rintro _ rfl
        exact .nothing _
      · rintro _ _ ⟨x, a, hx, ha, rfl⟩
        exact .act (.line (.set hx ha)) rfl
  · exact .failed (.nothing _)

theorem exprStmt_outcome (e : Expr) (span : Span) :
    (exprStmt env enter e).Meets c (Outcome env enter c (.expr e span))
      fun _ => Outcome env enter c (.expr e span) := by
  unfold exprStmt
  split
  · exact call_outcome env enter c rfl
  · exact .pure (.nothing _)
  · exact .failed (.nothing _)

theorem define_outcome (d : FunctionDef) :
    (define enter d).Meets c
      (Outcome env enter c (.define d.name d.params d.decorators d.body d.span))
      fun _ => Outcome env enter c (.define d.name d.params d.decorators d.body d.span) := by
  refine (define_meets c enter d).mono ?_ ?_
  · rintro _ rfl
    exact .nothing _
  · rintro _ _ ⟨hd, rfl | rfl⟩
    · exact .act (.declare (List.mem_singleton_self _) hd) rfl
    · exact .exported hd

theorem stmt_outcome (s : Stmt) :
    (stmt env enter s).Meets c (Outcome env enter c s) fun _ => Outcome env enter c s := by
  cases s with
  | importNames names span =>
      rw [stmt]
      exact .update (.imports names span)
  | assign targets value span =>
      rw [stmt]
      exact assign_outcome env enter c targets value span
  | augAssign target op value span =>
      rw [stmt]
      refine (augAssign_meets c target op value span).mono ?_ ?_
      · rintro _ rfl
        exact .nothing _
      · rintro _ _ ⟨opcode, x, a, ho, hx, ha, rfl⟩
        exact .act (.line (.augment ho hx ha)) rfl
  | expr e span =>
      rw [stmt]
      exact exprStmt_outcome env enter c e span
  | define name params decorators body span =>
      rw [stmt]
      exact define_outcome env enter c ⟨name, params, decorators, body, span⟩
  | giveBack value? span =>
      rw [stmt]
      refine (giveBack_meets c value? span).mono ?_ ?_
      · rintro _ rfl
        exact .nothing _
      · rintro _ _ ⟨key, operands, c₁, hk, ho, hs, rfl⟩
        exact .act (.giveBack (List.mem_singleton_self _) hk ho hs) hs.diagnostics
  | whileLoop test body span =>
      rw [stmt]
      exact .ask_bind (fun test ht => .update (.loop ht)) (.nothing _)
  | breakLoop span =>
      rw [stmt]
      exact loopJump_outcome env enter c _ .breakLoop span
  | continueLoop span =>
      rw [stmt]
      exact loopJump_outcome env enter c _ .continueLoop span
  | pass span =>
      rw [stmt]
      exact .pure (.nothing _)
  | unsupported form span =>
      rw [stmt]
      exact .failed (.nothing _)

end statements

section imports

variable (env : Environment) (enter : Enter) (c : Compilation)

theorem installExtension_meets (path : ModulePath) (dotted : String) (e : Extension) (span : Span) :
    (installExtension path dotted e span).Meets c
      (· = (c.record (.install dotted)).afterHook path (e.install dotted))
      fun _ c' => c' = (c.record (.install dotted)).afterHook path (e.install dotted) := by
  unfold installExtension
  refine .update_bind ((runHook_meets _ path _).bind ?_)
  rintro result _ rfl
  cases result with
  | ok _ => exact .pure rfl
  | error message => exact .failed rfl

theorem lowerFile_brings {name : ImportName} {file : String} {loaded : Except LoadFault Module}
    (span : Span) (hd : name.path.text ∉ c.imported)
    (hs : env.sources.find? (.ofDotted name.path.text) = some (file, loaded)) :
    (lowerFile enter (.ofDotted name.path.text) name.path.text file loaded span).Meets
      (c.begun env name.path.text) (Brings env enter c name) fun _ => Brings env enter c name := by
  unfold lowerFile
  cases loaded with
  | error fault => exact .failed (.begun hd (.inr (by simp [hs])))
  | ok m => exact .update (.loaded hd hs)

theorem importFresh_brings {name : ImportName} (span : Span) (hd : name.path.text ∉ c.imported) :
    (importFresh env enter name.path.text span).Meets c (Brings env enter c name)
      fun _ => Brings env enter c name := by
  have hlast (n : Nat) {c₁ : Compilation} (h : Brings env enter c name c₁) :
      (do if n < (← get).errorCount then fail (.importFailed name.path.text) span :
        LowerM Unit).Meets c₁ (Brings env enter c name) fun _ => Brings env enter c name := by
    refine .get_bind ?_
    split
    · exact .failed h
    · exact .pure h
  unfold importFresh
  dsimp only
  split
  · rename_i hfound
    refine .failed_bind (.nothing (.inr (.inr ?_)))
    simpa [Environment.Provides] using hfound
  rename_i hfound
  refine .update_bind (.get_bind ?_)
  cases he : env.registry.find? name.path.text with
  | some e =>
      have hb : c.begun env name.path.text =
          (({ c with imported := name.path.text :: c.imported }).record
            (.install name.path.text)).afterHook (.ofDotted name.path.text)
              (e.install name.path.text) := by
        unfold begun
        rw [he]
      have hbegin : Brings env enter c name (c.begun env name.path.text) :=
        .begun hd (.inl (by simp [he]))
      refine ((installExtension_meets _ _ _ e span).mono (fun _ h => ?_) fun _ _ h => h).bind ?_
      · rw [h, ← hb]
        exact hbegin
      rintro _ _ rfl
      rw [← hb]
      cases hs : env.sources.find? (.ofDotted name.path.text) with
      | none => exact hlast _ hbegin
      | some source => exact (lowerFile_brings env enter c span hd hs).bind fun _ _ => hlast _
  | none =>
      have hb : c.begun env name.path.text =
          { c with imported := name.path.text :: c.imported } := by
        unfold begun
        rw [he]
      rw [← hb]
      cases hs : env.sources.find? (.ofDotted name.path.text) with
      | none => simp [he, hs] at hfound
      | some source => exact (lowerFile_brings env enter c span hd hs).bind fun _ _ => hlast _

theorem importName_brings (name : ImportName) :
    (importName env enter name).Meets c (Brings env enter c name)
      fun _ => Brings env enter c name := by
  unfold importName
  dsimp only
  split
  · rename_i newName hn
    exact .failed_bind (.nothing (.inl (by simp [hn])))
  refine .get_bind ?_
  split
  · rename_i hd
    exact .pure (.nothing (.inr (.inl hd)))
  · rename_i hd
    exact importFresh_brings env enter c name.span hd

end imports

end LowerM

end P16
