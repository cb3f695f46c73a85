import P16.Proofs.Lowers

/-!
# Bodies that are entered

`Enters env enter stmts c stmts' c'` says that lowering `stmts` in the state `c` comes to lower the
body `stmts'`, of a function or of a file, in the state `c'`. The blocks of loops are parts of
`stmts`. The bodies are lowered by `enter`, and what it makes of one of them decides in which state
later ones are reached.

These are all uses that lowering makes of `enter` (`block_congr`).
-/

namespace P16

open Compilation

inductive Enters (env : Environment) (enter : Enter) :
    List Stmt → Compilation → List Stmt → Compilation → Prop where
  | rest {s : Stmt} {rest stmts : List Stmt} {c c' : Compilation}
      (h : Enters env enter rest (LowerM.reporting (LowerM.stmt env enter s) c) stmts c') :
      Enters env enter (s :: rest) c stmts c'
  | loop {e : Expr} {span : Span} {test : LoopTest} {body rest stmts : List Stmt}
      {c c' : Compilation} (ht : c.loopTest e = .ok test)
      (h : Enters env enter body (c.openLoop test) stmts c') :
      Enters env enter (.whileLoop e body span :: rest) c stmts c'
  | call {s : Stmt} {rest : List Stmt} {c : Compilation} {site : CallSite} {targets : List Expr}
      {key : FunctionKey} {f : FunctionSymbol} (hc : s.call? = some (site, targets))
      (hk : c.callee site.callee = .ok key) (hf : c.function? key = some f)
      (he : f.emitted = false) :
      Enters env enter (s :: rest) c f.definition.body (c.openBody key f)
  | exported {d : FunctionDef} {rest : List Stmt} {c : Compilation} (hd : c.Declares d) :
      Enters env enter (.define d.name d.params d.decorators d.body d.span :: rest) c d.body
        ((c.declare d).openBody ⟨c.store.current, d.name.text⟩ (c.declared d))
  /-- The file of an imported module, after the names before it in the import. -/
  | file {before after : List ImportName} {name : ImportName} {span : Span} {rest : List Stmt}
      {c : Compilation} {file : String} {m : Module}
      (hd : name.path.text ∉ (LowerM.importNames env enter before c).imported)
      (hs : env.sources.find? (.ofDotted name.path.text) = some (file, .ok m)) :
      Enters env enter (.importNames (before ++ name :: after) span :: rest) c m.body
        (((LowerM.importNames env enter before c).begun env name.path.text).openModule
          name.path.text file)

theorem Compilation.function?_declare (c : Compilation) (d : FunctionDef) :
    (c.declare d).function? ⟨c.store.current, d.name.text⟩ = some (c.declared d) := by
  apply (Store.functionIn?_eq_some ..).mpr
  exact (c.store.lookup?_define ..).trans (if_pos ⟨rfl, rfl⟩)

namespace LowerM

section rules

variable {α β : Type} {c : Compilation}

theorem bind_congr {act : LowerM β} {f g : β → LowerM α}
    (h : ∀ b c', act c = .ok b c' → f b c' = g b c') : (act >>= f) c = (act >>= g) c := by
  simp only [Bind.bind, EStateM.bind]
  cases he : act c with
  | ok b c' => exact h b c' he
  | error failure c' => rfl

theorem bind_congr_left {act act' : LowerM β} (f : β → LowerM α) (h : act' c = act c) :
    (act' >>= f) c = (act >>= f) c := by
  simp only [Bind.bind, EStateM.bind]
  rw [h]

theorem ask_bind_congr {ask? : Compilation → Except Failure β} {f g : β → LowerM α}
    (h : ∀ b, ask? c = .ok b → f b c = g b c) : (ask ask? >>= f) c = (ask ask? >>= g) c := by
  refine bind_congr fun b c' hask => ?_
  unfold ask at hask
  cases he : ask? c with
  | ok a =>
      rw [he] at hask
      cases hask
      exact h b he
  | error failure =>
      rw [he] at hask
      cases hask

theorem reporting_congr {act act' : LowerM Unit} (h : act' c = act c) :
    reporting act' c = reporting act c := by
  unfold reporting
  rw [h]

end rules

variable {env : Environment} {enter enter' : Enter} {c : Compilation}

theorem ensureEmitted_congr {key : FunctionKey}
    (h : ∀ f, c.function? key = some f → f.emitted = false →
      enter' f.definition.body (c.openBody key f) = enter f.definition.body (c.openBody key f)) :
    c.ensureEmitted enter' key = c.ensureEmitted enter key := by
  unfold ensureEmitted
  cases hf : c.function? key with
  | none => rfl
  | some f =>
      dsimp only
      cases he : f.emitted with
      | true => rfl
      | false => rw [h f hf he]

theorem callFunction_congr {key : FunctionKey} (shown : String) (f : FunctionSymbol)
    (site : CallSite) (targets : List Expr)
    (h : c.ensureEmitted enter' key = c.ensureEmitted enter key) :
    callFunction enter' key shown f site targets c =
      callFunction enter key shown f site targets c := by
  unfold callFunction
  dsimp only
  by_cases hn : site.args.length ≠ f.arity
  · simp only [if_pos hn]
    cases site.keywords <;> rfl
  simp only [if_neg hn]
  cases site.keywords with
  | cons k rest => rfl
  | nil =>
  refine ask_bind_congr fun arguments _ => ask_bind_congr fun registers _ => ?_
  change (settleReturns key registers.length shown site.span >>= _) (c.ensureEmitted enter' key) =
    (settleReturns key registers.length shown site.span >>= _) (c.ensureEmitted enter key)
  rw [h]

theorem call_congr {site : CallSite} {targets : List Expr}
    (h : ∀ key, c.callee site.callee = .ok key →
      c.ensureEmitted enter' key = c.ensureEmitted enter key) :
    call env enter' site targets c = call env enter site targets c := by
  unfold call
  refine ask_bind_congr fun callee _ => ?_
  cases callee with
  | some b => rfl
  | none =>
      refine ask_bind_congr fun key hk => bind_congr fun _ _ hget => ?_
      cases hget
      dsimp only
      cases c.store.lookup? key.path key.name with
      | none => rfl
      | some symbol =>
          cases symbol with
          | function f => exact callFunction_congr _ f site targets (h key hk)
          | _ => rfl

theorem define_congr {d : FunctionDef}
    (h : c.Declares d →
      (c.declare d).ensureEmitted enter' ⟨c.store.current, d.name.text⟩ =
        (c.declare d).ensureEmitted enter ⟨c.store.current, d.name.text⟩) :
    define enter' d c = define enter d c := by
  unfold define
  refine bind_congr fun _ c' hcheck => ?_
  obtain ⟨rfl, hd⟩ := (checkDefinition_meets c d).ok hcheck
  refine ask_bind_congr fun exported _ => bind_congr fun _ _ hget => ?_
  cases hget
  refine bind_congr fun _ _ hdeclare => ?_
  cases hdeclare
  cases exported with
  | false => rfl
  | true => exact congrArg (EStateM.Result.ok ()) (h hd)

theorem lowerFile_congr {dotted file : String} {loaded : Except LoadFault Module} {span : Span}
    (h : ∀ m, loaded = .ok m → enter' m.body (c.openModule dotted file) =
      enter m.body (c.openModule dotted file)) :
    lowerFile enter' (.ofDotted dotted) dotted file loaded span c =
      lowerFile enter (.ofDotted dotted) dotted file loaded span c := by
  unfold lowerFile
  cases loaded with
  | error fault => rfl
  | ok m =>
      have hinner := h m rfl
      exact congrArg (fun inner => EStateM.Result.ok () (c.leaveScope inner)) hinner

theorem importFresh_congr {dotted : String} {span : Span}
    (h : ∀ file m, env.sources.find? (.ofDotted dotted) = some (file, .ok m) →
      enter' m.body ((c.begun env dotted).openModule dotted file) =
        enter m.body ((c.begun env dotted).openModule dotted file)) :
    importFresh env enter' dotted span c = importFresh env enter dotted span c := by
  unfold importFresh
  dsimp only
  split
  · rfl
  refine bind_congr fun _ _ hmark => ?_
  cases hmark
  refine bind_congr fun _ _ hget => ?_
  cases hget
  have hfile (rest : PUnit → LowerM Unit) {c₁ : Compilation} (hc : c₁ = c.begun env dotted)
      {file : String} {loaded : Except LoadFault Module}
      (hs : env.sources.find? (.ofDotted dotted) = some (file, loaded)) :
      (lowerFile enter' (.ofDotted dotted) dotted file loaded span >>= rest) c₁ =
        (lowerFile enter (.ofDotted dotted) dotted file loaded span >>= rest) c₁ := by
    subst hc
    apply bind_congr_left
    apply lowerFile_congr
    rintro m rfl
    exact h file m hs
  cases he : env.registry.find? dotted with
  | none =>
      have hb : { c with imported := dotted :: c.imported } = c.begun env dotted := by
        unfold begun
        rw [he]
      cases hs : env.sources.find? (.ofDotted dotted) with
      | none => rfl
      | some source => exact hfile _ hb hs
  | some e =>
      refine bind_congr fun _ c₁ hinstall => ?_
      have hb : c₁ = c.begun env dotted := by
        rw [(installExtension_meets _ _ dotted e span).ok hinstall]
        unfold begun
        rw [he]
      cases hs : env.sources.find? (.ofDotted dotted) with
      | none => rfl
      | some source => exact hfile _ hb hs

theorem importName_congr {name : ImportName}
    (h : name.path.text ∉ c.imported → ∀ file m,
      env.sources.find? (.ofDotted name.path.text) = some (file, .ok m) →
        enter' m.body ((c.begun env name.path.text).openModule name.path.text file) =
          enter m.body ((c.begun env name.path.text).openModule name.path.text file)) :
    importName env enter' name c = importName env enter name c := by
  unfold importName
  dsimp only
  cases name.newName? with
  | some newName => rfl
  | none =>
      refine bind_congr fun _ _ hget => ?_
      cases hget
      by_cases hd : name.path.text ∈ c.imported
      · simp only [if_pos hd]
      · simp only [if_neg hd]
        exact importFresh_congr (h hd)

theorem importNames_congr {names : List ImportName}
    (h : ∀ before name after, names = before ++ name :: after →
      name.path.text ∉ (importNames env enter before c).imported → ∀ file m,
        env.sources.find? (.ofDotted name.path.text) = some (file, .ok m) →
          let reached := ((importNames env enter before c).begun env name.path.text).openModule
            name.path.text file
          enter' m.body reached = enter m.body reached) :
    importNames env enter' names c = importNames env enter names c := by
  induction names generalizing c with
  | nil => rfl
  | cons name names ih =>
      have hfirst : reporting (importName env enter' name) c =
          reporting (importName env enter name) c :=
        reporting_congr (importName_congr (h [] name names rfl))
      change importNames env enter' names (reporting (importName env enter' name) c) =
        importNames env enter names (reporting (importName env enter name) c)
      rw [hfirst]
      apply ih
      rintro before other after rfl
      exact h (name :: before) other after rfl

theorem stmt_congr {s : Stmt} {rest : List Stmt}
    (h : ∀ stmts c', Enters env enter (s :: rest) c stmts c' → enter' stmts c' = enter stmts c')
    (hloop : ∀ test body span, s = .whileLoop test body span → ∀ c,
      (∀ stmts c', Enters env enter body c stmts c' → enter' stmts c' = enter stmts c') →
        block env enter' body c = block env enter body c) :
    stmt env enter' s c = stmt env enter s c := by
  have hcall {site : CallSite} {targets : List Expr} (hc : s.call? = some (site, targets)) :
      call env enter' site targets c = call env enter site targets c :=
    call_congr fun key hk => ensureEmitted_congr fun f hf he => h _ _ (.call hc hk hf he)
  cases s with
  | importNames names span =>
      rw [stmt, stmt]
      have hnames : importNames env enter' names c = importNames env enter names c := by
        apply importNames_congr
        rintro before name after rfl hd file m hs
        exact h _ _ (.file hd hs)
      exact congrArg (EStateM.Result.ok ()) hnames
  | assign targets value span =>
      rw [stmt, stmt]
      unfold assign
      split
      · split
        · exact hcall rfl
        · rfl
      · rfl
  | expr e span =>
      rw [stmt, stmt]
      cases e with
      | call callee args keywords callSpan => exact hcall rfl
      | _ => rfl
  | define name params decorators body span =>
      rw [stmt, stmt]
      refine define_congr fun hd => ensureEmitted_congr fun f hf he => ?_
      cases (function?_declare c _).symm.trans hf
      exact h _ _ (.exported hd)
  | whileLoop e body span =>
      rw [stmt, stmt]
      refine ask_bind_congr fun test ht => ?_
      have hbody := hloop e body span rfl (c.openLoop test) fun stmts c' hin => h _ _ (.loop ht hin)
      exact congrArg (fun inner => EStateM.Result.ok ()
        (inner.closeLoop c.store.current c.nextLoop)) hbody
  | _ =>
      rw [stmt, stmt]

/-- Lowering depends on `enter` only through the bodies that are entered. -/
theorem block_congr {stmts : List Stmt}
    (h : ∀ stmts' c', Enters env enter stmts c stmts' c' → enter' stmts' c' = enter stmts' c') :
    block env enter' stmts c = block env enter stmts c := by
  induction stmts using Stmt.block_induction generalizing c with
  | nil => rw [block, block]
  | cons s rest hloop ih =>
      have hfirst := reporting_congr (stmt_congr h fun _ _ _ hs _ => hloop _ _ _ hs)
      rw [block, block, hfirst]
      exact ih fun stmts' c' hin => h stmts' c' (.rest hin)

end LowerM

end P16
