import P16.Proofs.Termination

/-!
# Only files in reach matter

Lowering looks up extensions, and files of imported modules. Two environments that have the same
extensions, and the same files for the modules in reach, make the same of a module. In particular it
does not matter how a file is found, or which other files there are.
-/

namespace P16

/-- The two have the same extensions, and the same files for the modules that are named. -/
structure Environment.SameFor (named : String → Prop) (env env' : Environment) : Prop where
  registry : env'.registry = env.registry
  sources : ∀ dotted, named dotted →
    env'.sources.find? (.ofDotted dotted) = env.sources.find? (.ofDotted dotted)

theorem Environment.SameFor.mono {named named' : String → Prop} {env env' : Environment}
    (h : env.SameFor named env') (hsub : ∀ dotted, named' dotted → named dotted) :
    env.SameFor named' env' :=
  ⟨h.registry, fun dotted hd => h.sources dotted (hsub dotted hd)⟩

namespace LowerM

variable {env env' : Environment} {enter : Enter} {c : Compilation}

theorem importNames_of_sameFor {names : List ImportName}
    (h : env.SameFor (· ∈ names.map fun name => name.path.text) env') :
    importNames env' enter names c = importNames env enter names c := by
  apply List.foldl_ext
  intro c name hname
  apply reporting_congr
  have hfile := h.sources _ (List.mem_map_of_mem hname)
  simp only [importName, importFresh, h.registry, hfile]

theorem call_of_registry (h : env'.registry = env.registry) (site : CallSite)
    (targets : List Expr) : call env' enter site targets c = call env enter site targets c := by
  simp only [call, callHook, h]

theorem stmt_of_sameFor {s : Stmt} (h : env.SameFor (· ∈ s.importTexts) env')
    (hloop : ∀ test body span, s = .whileLoop test body span → ∀ c,
      block env' enter body c = block env enter body c) :
    stmt env' enter s c = stmt env enter s c := by
  have hcall := @call_of_registry env env' enter c h.registry
  cases s with
  | importNames names span =>
      rw [Stmt.importTexts] at h
      rw [stmt, stmt]
      exact congrArg (EStateM.Result.ok ()) (importNames_of_sameFor h)
  | assign targets value span =>
      rw [stmt, stmt]
      unfold assign
      split
      · split
        · exact hcall _ _
        · rfl
      · rfl
  | expr e span =>
      rw [stmt, stmt]
      cases e with
      | call callee args keywords callSpan => exact hcall _ _
      | _ => rfl
  | whileLoop e body span =>
      rw [stmt, stmt]
      refine ask_bind_congr fun test _ => ?_
      exact congrArg (fun inner => EStateM.Result.ok ()
        (inner.closeLoop c.store.current c.nextLoop)) (hloop e body span rfl (c.openLoop test))
  | _ => rw [stmt, stmt]

theorem block_of_sameFor {stmts : List Stmt}
    (h : env.SameFor (· ∈ Stmt.importTextsOf stmts) env') :
    block env' enter stmts c = block env enter stmts c := by
  induction stmts using Stmt.block_induction generalizing c with
  | nil => rw [block, block]
  | cons s rest hloop ih =>
      rw [Stmt.importTextsOf] at h
      have hfirst : env.SameFor (· ∈ s.importTexts) env' :=
        h.mono fun _ hd => List.mem_append_left _ hd
      have hrest : env.SameFor (· ∈ Stmt.importTextsOf rest) env' :=
        h.mono fun _ hd => List.mem_append_right _ hd
      rw [block, block, reporting_congr (stmt_of_sameFor hfirst ?_), ih hrest]
      rintro test body span rfl c
      rw [Stmt.importTexts] at hfirst
      exact hloop test body span rfl hfirst

/-- Bodies that are entered lead to modules in reach only. -/
theorem body_of_sameFor {r : Reach} (hr : r.Closed env) (h : env.SameFor (· ∈ r.modules) env')
    {stmts : List Stmt} (hc : r.Covers stmts c) (depth : Nat) :
    body env' depth stmts c = body env depth stmts c := by
  induction depth generalizing stmts c with
  | zero => rfl
  | succ depth ih =>
      rw [body, body, block_of_sameFor (h.mono hc.imports)]
      apply block_congr
      intro stmts' c' hin
      exact ih (hin.left_lt hr (body_lowers env depth) hc).1

end LowerM

end P16
