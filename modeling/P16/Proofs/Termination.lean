import P16.Proofs.DepthBound

/-!
# Lowering terminates

`LowerM.body` stops after a number of bodies inside each other, and gives up there. With enough of
them it never gives up, and more make no difference (`body_stable`). What comes out then is
`LowerM.run`. It needs no bound any more: it lowers a block with itself for the bodies that are
entered, and this recursion is well-founded.
-/

namespace P16

open Compilation

/-- Where all modules are marked, an import enters no file. -/
theorem Enters.not_imported {env : Environment} {enter : Enter} {names : List ImportName}
    {span : Span} {stmts : List Stmt} {c c' : Compilation}
    (h : Enters env enter [.importNames names span] c stmts c')
    (henter : ∀ stmts c, Lowers env stmts c (enter stmts c)) :
    ¬ ∀ name ∈ names, name.path.text ∈ c.imported := by
  intro hmarked
  cases h with
  | rest h => cases h
  | call hc _ _ _ => cases hc
  | @file before after name _ _ _ _ _ hd _ =>
      have hname := hmarked name (List.mem_append_right _ List.mem_cons_self)
      have hbefore : ∀ other ∈ before,
          Imports [.importNames (before ++ name :: after) span] other.path.text :=
        fun other hother => ⟨_, span, List.mem_cons_self, other, List.mem_append_left _ hother, rfl⟩
      exact hd ((LowerM.importNames_lowers henter c hbefore).imported_subset hname)

namespace LowerM

section stable

variable {env : Environment} {r : Reach} (hr : r.Closed env) {stmts : List Stmt} {c : Compilation}
include hr

/-- No more bodies are entered inside each other than are left in reach. -/
theorem body_stable (hc : r.Covers stmts c) {depth depth' : Nat} (hd : r.left c < depth)
    (hd' : r.left c < depth') : body env depth' stmts c = body env depth stmts c := by
  induction depth generalizing depth' stmts c with
  | zero => omega
  | succ depth ih =>
      cases depth' with
      | zero => omega
      | succ depth' =>
          rw [body, body]
          apply block_congr
          intro stmts' c' hin
          obtain ⟨hcovers, hlt⟩ := hin.left_lt hr (body_lowers env depth) hc
          exact ih hcovers (by omega) (by omega)

/-- Bodies inside each other always come to an end. -/
theorem acc_enters {enter : Enter} (henter : ∀ stmts c, Lowers env stmts c (enter stmts c))
    (hc : r.Covers stmts c) :
    Acc (fun inner outer : List Stmt × Compilation =>
      Enters env enter outer.1 outer.2 inner.1 inner.2) (stmts, c) := by
  induction hleft : r.left c using Nat.strong_induction_on generalizing stmts c with
  | _ left ih =>
      constructor
      intro inner hin
      obtain ⟨hcovers, hlt⟩ := hin.left_lt hr henter hc
      exact ih _ (hleft ▸ hlt) hcovers rfl

end stable

/-- Lowers a body with all bodies that are entered in it, where extensions declare the functions in
`pool` at most. -/
def run (env : Environment) (pool : List (FunctionKey × List Stmt)) : Enter := fun stmts c =>
  body env ((Reach.ofNames env pool stmts c).size + 1) stmts c

section run

variable {env : Environment} {pool : List (FunctionKey × List Stmt)}

theorem run_lowers (env : Environment) (pool : List (FunctionKey × List Stmt))
    (stmts : List Stmt) (c : Compilation) : Lowers env stmts c (run env pool stmts c) :=
  body_lowers ..

variable (hr : env.registry.DeclaresOnly pool)
include hr

theorem run_eq_body {r : Reach} (hclosed : r.Closed env) {stmts : List Stmt} {c : Compilation}
    (hc : r.Covers stmts c) {depth : Nat} (hd : r.left c < depth) :
    run env pool stmts c = body env depth stmts c := by
  have hown := (Reach.ofNames env pool stmts c).left_le_size c
  -- both reaches are large enough for the larger of the two depths
  have hdeep : body env (max depth ((Reach.ofNames env pool stmts c).size + 1)) stmts c =
      run env pool stmts c :=
    body_stable (Reach.closed_ofNames env pool stmts c hr) (Reach.covers_ofNames env pool stmts c)
      (by omega) (by omega)
  rw [← hdeep]
  exact body_stable hclosed hc hd (by omega)

theorem body_eq_run (stmts : List Stmt) (c : Compilation) {depth : Nat}
    (hd : (Reach.ofNames env pool stmts c).size < depth) :
    body env depth stmts c = run env pool stmts c := by
  have hleft := (Reach.ofNames env pool stmts c).left_le_size c
  exact (run_eq_body hr (Reach.closed_ofNames env pool stmts c hr)
    (Reach.covers_ofNames env pool stmts c) (by omega)).symm

theorem run_eq_block (stmts : List Stmt) (c : Compilation) :
    run env pool stmts c = block env (run env pool) stmts c := by
  have hclosed := Reach.closed_ofNames env pool stmts c hr
  have hcovers := Reach.covers_ofNames env pool stmts c
  have hleft := (Reach.ofNames env pool stmts c).left_le_size c
  rw [run, body]
  symm
  apply block_congr
  intro stmts' c' hin
  obtain ⟨hcovers', hlt⟩ := hin.left_lt hclosed (body_lowers env _) hcovers
  exact run_eq_body hr hclosed hcovers' (by omega)

theorem wellFounded_enters : WellFounded fun inner outer : List Stmt × Compilation =>
    Enters env (run env pool) outer.1 outer.2 inner.1 inner.2 :=
  ⟨fun (stmts, c) => acc_enters (Reach.closed_ofNames env pool stmts c hr) (run_lowers env pool)
    (Reach.covers_ofNames env pool stmts c)⟩

/-- The recursion has no other solution. -/
theorem eq_run {enter : Enter} (h : ∀ stmts c, enter stmts c = block env enter stmts c) :
    enter = run env pool := by
  have hsame (entry : List Stmt × Compilation) :
      enter entry.1 entry.2 = run env pool entry.1 entry.2 := by
    induction entry using (wellFounded_enters hr).induction with
    | _ entry ih =>
        rw [h, run_eq_block hr]
        exact block_congr fun stmts' c' hin => ih (stmts', c') hin
  funext stmts c
  exact hsame (stmts, c)

end run

end LowerM

section small

variable {env : Environment} {r : Reach}

theorem Reach.Closed.of_files (hr : env.registry.AddsNoFunction)
    (h : ∀ dotted ∈ r.modules, ∀ file m,
      env.sources.find? (.ofDotted dotted) = some (file, .ok m) →
        (∀ name ∈ Stmt.importTextsOf m.body, name ∈ r.modules) ∧
        ∀ name ∈ Stmt.definedIn m.body, ⟨.ofDotted dotted, name⟩ ∈ r.functions) :
    r.Closed env :=
  ⟨h, fun hh args t => (hr.declaresOnly.hooks hh args t).mono nofun,
    fun he hs t => (hr.declaresOnly.startUps he hs t).mono nofun⟩

theorem Reach.Covers.start {stmts : List Stmt} (file? : Option String)
    (hi : ∀ dotted ∈ Stmt.importTextsOf stmts, dotted ∈ r.modules)
    (hd : ∀ name ∈ Stmt.definedIn stmts, ⟨.root, name⟩ ∈ r.functions) :
    r.Covers stmts (.start file?) := by
  refine ⟨hi, fun _ => hd, ?_⟩
  rintro key body ⟨f, hf, -⟩
  cases (Store.lookup?_start key.path key.name).symm.trans hf

/-- A module is compiled in the same way with any depth beyond what is in reach. -/
theorem compileModules_eq_body (hr : env.registry.AddsNoFunction) (hclosed : r.Closed env)
    {file? : Option String} {m : Module} (hc : r.Covers m.body (.start file?)) {depth : Nat}
    (hd : r.size < depth) :
    compileModules env file? [m] = LowerM.body env depth m.body (.start file?) := by
  have hleft := r.left_le_size (.start file?)
  have hadd : (Compilation.start file?).addModule env m = LowerM.run env [] m.body (.start file?) :=
    LowerM.body_eq_run hr.declaresOnly m.body _ (Reach.size_ofNames_lt env m.body _)
  unfold compileModules
  rw [List.foldl_cons, List.foldl_nil, hadd]
  exact LowerM.run_eq_body hr.declaresOnly hclosed hc (by omega)

end small

/-- Compilation terminates, whatever the module and the files are, and however modules import each
other. Deep enough, `body` makes what `run` makes. Only `run` lowers a block with itself for the
bodies that are entered, and bodies inside each other come to an end. Extensions are meant to change
constants and settings alone: then `pool` is empty, and `addModule` goes deep enough.

An extension that makes a function wait again is left out. Such a function can call itself for ever
(`resetting_never_ends`). -/
theorem lowering_terminates (env : Environment) (pool : List (FunctionKey × List Stmt))
    (hr : env.registry.DeclaresOnly pool) :
    (∀ stmts c, ∃ enough, ∀ depth, enough ≤ depth →
      LowerM.body env depth stmts c = LowerM.run env pool stmts c) ∧
    (∀ enter : Enter, (∀ stmts c, enter stmts c = LowerM.block env enter stmts c) ↔
      enter = LowerM.run env pool) ∧
    (WellFounded fun inner outer : List Stmt × Compilation =>
      Enters env (LowerM.run env pool) outer.1 outer.2 inner.1 inner.2) ∧
    (pool = [] → ∀ (m : Module) (c : Compilation),
      c.addModule env m = LowerM.run env pool m.body c) := by
  refine ⟨fun stmts c => ?_, fun enter => ⟨LowerM.eq_run hr, ?_⟩, LowerM.wellFounded_enters hr, ?_⟩
  · exact ⟨_, fun depth hd => LowerM.body_eq_run hr stmts c hd⟩
  · rintro rfl stmts c
    exact LowerM.run_eq_block hr stmts c
  · rintro rfl m c
    exact LowerM.body_eq_run hr m.body c (Reach.size_ofNames_lt env m.body c)

def nameOf (name : String) : ImportName := ⟨⟨[⟨name, default⟩], default⟩, none, default⟩

def importOf (name : String) : Stmt := .importNames [nameOf name] default

/-- `while A == 0: import n` -/
def importInLoop : Stmt :=
  .whileLoop (.compare (.name ⟨"A", default⟩) [(.eq, .number 0 default)] default) [importOf "n"]
    default

/-- Two modules that import each other. -/
def circular : Environment :=
  ⟨⟨[.directory "."], ⟨[], [(["m.p16"], .ok ⟨[importInLoop], default⟩),
    (["n.p16"], .ok ⟨[importOf "m"], default⟩)], []⟩⟩, .empty⟩

/-- The file of `m` is entered, in it the file of `n`, and in that nothing more. -/
theorem lowering_terminates_circular :
    let run := LowerM.run circular []
    circular.registry.DeclaresOnly [] ∧
    (∃ c c', Enters circular run [importOf "m"] (.start none) [importInLoop] c ∧
      Enters circular run [importInLoop] c [importOf "m"] c' ∧
      ¬ ∃ stmts c'', Enters circular run [importOf "m"] c' stmts c'') ∧
    (WellFounded fun inner outer : List Stmt × Compilation =>
      Enters circular run outer.1 outer.2 inner.1 inner.2) ∧
    compileModule circular none ⟨[importOf "m"], default⟩ = run [importOf "m"] (.start none) := by
  intro run
  have hr : circular.registry.DeclaresOnly [] :=
    Registry.onlyBundled_empty.addsNoFunction.declaresOnly
  obtain ⟨-, -, hends, hadd⟩ := lowering_terminates circular [] hr
  have hm : circular.sources.find? (.ofDotted "m") =
      some ("./m.p16", .ok ⟨[importInLoop], default⟩) := by
    with_unfolding_all rfl
  have hn : circular.sources.find? (.ofDotted "n") =
      some ("./n.p16", .ok ⟨[importOf "m"], default⟩) := by
    with_unfolding_all rfl
  let c := ((Compilation.start none).begun circular "m").openModule "m" "./m.p16"
  let test : LoopTest := ⟨.ifn, .reg .A, .lit 0⟩
  let c' := ((c.openLoop test).begun circular "n").openModule "n" "./n.p16"
  have hfirst : Enters circular run [importOf "m"] (.start none) [importInLoop] c :=
    @Enters.file circular run [] [] (nameOf "m") default [] (.start none) "./m.p16"
      ⟨[importInLoop], default⟩ (by decide +kernel) hm
  have htest : c.loopTest (.compare (.name ⟨"A", default⟩) [(.eq, .number 0 default)] default) =
      .ok test := rfl
  have hinner : Enters circular run [importOf "n"] (c.openLoop test) [importOf "m"] c' :=
    @Enters.file circular run [] [] (nameOf "n") default [] (c.openLoop test) "./n.p16"
      ⟨[importOf "m"], default⟩ (by decide +kernel) hn
  have hmarked : "m" ∈ c'.imported := by decide +kernel
  have hlast : ¬ ∃ stmts c'', Enters circular run [importOf "m"] c' stmts c'' := by
    rintro ⟨stmts, c'', hin⟩
    apply hin.not_imported (LowerM.run_lowers circular [])
    intro name hname
    cases List.mem_singleton.mp hname
    exact hmarked
  exact ⟨hr, ⟨c, c', hfirst, .loop htest hinner, hlast⟩, hends, hadd rfl _ _⟩

/-- How much a compilation has done. -/
def Compilation.effort (c : Compilation) : Nat := c.events.length + c.diagnostics.size

theorem LowerM.effort_callFunction (enter : Enter) (key : FunctionKey) (shown : String)
    (callee : Expr) (c : Compilation) {f : FunctionSymbol} (span : Span) (hp : f.params = []) :
    (c.ensureEmitted enter key).effort <
      (reporting (callFunction enter key shown f ⟨callee, [], [], span⟩ []) c).effort := by
  have hrun : callFunction enter key shown f ⟨callee, [], [], span⟩ [] c =
      (settleReturns key 0 shown span >>= fun _ => do
        let nested := (← get).scope.function?.isSome
        modify fun c => (c.write fun p => p.callSequence nested f.label [] []).record
          (.call key 0 nested)) (c.ensureEmitted enter key) := by
    unfold callFunction
    simp only [FunctionSymbol.arity, hp]
    rfl
  have hsettle := settleReturns_meets (c.ensureEmitted enter key) key 0 shown span
  rw [reporting, hrun]
  simp only [Bind.bind, EStateM.bind]
  cases hs : settleReturns key 0 shown span (c.ensureEmitted enter key) with
  | ok _ c₁ =>
      have hsettled := hsettle.ok hs
      change _ < (c₁.events.length + 1) + c₁.diagnostics.size
      rw [hsettled.events, hsettled.diagnostics, effort]
      omega
  | error failure c₁ =>
      obtain rfl := hsettle.error hs
      change _ < (c.ensureEmitted enter key).events.length + (Array.push _ _).size
      rw [Array.size_push, effort]
      omega

section resetting

/-- Makes the function `f` of the root module wait again. -/
def reset (s : Store) : Store :=
  s.updateFunction .root "f" fun f => { f with emitted := false }

/-- An extension `ext` with a hook for that. -/
def resetting : Environment :=
  ⟨⟨[], .empty []⟩, Registry.empty.insert "ext"
    ⟨[⟨"reset", fun _ => HookM.updateStore reset⟩], [], [], none⟩⟩

/-- `ext.reset()` -/
def callReset : Stmt :=
  .expr (.call (.member (.name ⟨"ext", default⟩) ⟨"reset", default⟩ default) [] [] default) default

/-- `f()` -/
def callF : Stmt := .expr (.call (.name ⟨"f", default⟩) [] [] default) default

/-- `def f(): ext.reset(); f()`, and a call of it. -/
def selfResetting : Module :=
  ⟨[importOf "ext", .define ⟨"f", default⟩ [] [] [callReset, callF] default, callF], default⟩

/-- In the root module, the function and the hook can be called. -/
structure Resets (c : Compilation) : Prop where
  current : c.store.current = .root
  hook : c.store.lookup? ⟨["ext"]⟩ "reset" = some (.hook ⟨"ext", "reset"⟩)
  function : ∃ f, c.function? ⟨.root, "f"⟩ = some f ∧ f.definition.body = [callReset, callF] ∧
    f.params = [] ∧ f.path = .root

variable {c : Compilation}

/-- What `ext.reset()` makes of the compilation. -/
def afterReset (c : Compilation) : Compilation :=
  c.updateStore fun s => (reset (s.enter ⟨["ext"]⟩)).restore s.current

/-- The body of `f` is entered again behind `ext.reset()`. -/
def reentered (c : Compilation) (f : FunctionSymbol) : Compilation :=
  (afterReset c).openBody ⟨.root, "f"⟩ { f with emitted := false }

theorem reporting_callReset (enter : Enter)
    (h : c.store.lookup? ⟨["ext"]⟩ "reset" = some (.hook ⟨"ext", "reset"⟩)) :
    LowerM.reporting (LowerM.stmt resetting enter callReset) c = afterReset c := by
  have hcallee : c.callee (.member (.name ⟨"ext", default⟩) ⟨"reset", default⟩ default) =
      .ok ⟨⟨["ext"]⟩, "reset"⟩ := rfl
  have hget : (get : LowerM Compilation) c = .ok c c := rfl
  rw [LowerM.reporting, callReset, LowerM.stmt, LowerM.exprStmt, LowerM.call]
  simp only [LowerM.ask, Bind.bind, EStateM.bind, LowerM.builtinCallee, hcallee, hget, h]
  rfl

theorem Resets.callee_afterReset (h : Resets c) :
    (afterReset c).callee (.name ⟨"f", default⟩) = .ok ⟨.root, "f"⟩ := by
  have hcurrent : (afterReset c).store.current = .root := h.current
  rw [← hcurrent]
  rfl

section again

variable {f : FunctionSymbol} (hf : c.function? ⟨.root, "f"⟩ = some f)
include hf

theorem lookup?_afterReset (path : ModulePath) (name : String) :
    (afterReset c).store.lookup? path name =
      if ModulePath.root = path ∧ "f" = name then some (.function { f with emitted := false })
      else c.store.lookup? path name := by
  change (reset (c.store.enter ⟨["ext"]⟩)).lookup? path name = _
  have hsame : (c.store.enter ⟨["ext"]⟩).functionIn? .root "f" = some f := by
    rwa [Store.functionIn?_eq_some, Store.lookup?_enter, ← Store.functionIn?_eq_some]
  rw [reset, Store.lookup?_updateFunction, hsame, Store.lookup?_enter]

theorem function?_afterReset :
    (afterReset c).function? ⟨.root, "f"⟩ = some { f with emitted := false } := by
  rw [function?_eq_some]
  exact (lookup?_afterReset hf _ _).trans (if_pos ⟨rfl, rfl⟩)

theorem lookup?_reentered (path : ModulePath) (name : String) :
    (reentered c f).store.lookup? path name =
      if ModulePath.root = path ∧ "f" = name then some (.function { f with emitted := true })
      else c.store.lookup? path name := by
  change (((afterReset c).store.updateFunction .root "f" _).enter f.path).lookup? path name = _
  have hwaits : (afterReset c).store.functionIn? .root "f" = some { f with emitted := false } :=
    function?_afterReset hf
  rw [Store.lookup?_enter, Store.lookup?_updateFunction, hwaits]
  dsimp only
  split
  · rfl
  · next hne => rw [lookup?_afterReset hf, if_neg hne]

variable (h : Resets c) (hbody : f.definition.body = [callReset, callF]) (enter : Enter)
include h hbody

theorem enters_reentered : Enters resetting enter [callReset, callF] c [callReset, callF]
    (reentered c f) := by
  have hcall := @Enters.call resetting enter callF [] (afterReset c) _ _ _ _ rfl
    h.callee_afterReset (function?_afterReset hf) rfl
  apply Enters.rest
  rw [reporting_callReset enter h.hook]
  rwa [show ({ f with emitted := false } : FunctionSymbol).definition.body = _ from hbody] at hcall

theorem effort_reentered (hparams : f.params = []) :
    (enter [callReset, callF] (reentered c f)).effort <
      (LowerM.block resetting enter [callReset, callF] c).effort := by
  have hwaits := function?_afterReset hf
  have hcall : LowerM.stmt resetting enter callF (afterReset c) =
      LowerM.callFunction enter ⟨.root, "f"⟩ ((afterReset c).shownName ⟨.root, "f"⟩)
        { f with emitted := false } ⟨.name ⟨"f", default⟩, [], [], default⟩ [] (afterReset c) := by
    rw [callF, LowerM.stmt, LowerM.exprStmt]
    exact LowerM.call_eq_callFunction resetting enter [] rfl h.callee_afterReset hwaits
  have heffort := LowerM.effort_callFunction enter ⟨.root, "f"⟩
    ((afterReset c).shownName ⟨.root, "f"⟩) (.name ⟨"f", default⟩) (afterReset c) default
    (f := { f with emitted := false }) hparams
  rw [ensureEmitted, hwaits] at heffort
  change _ < (LowerM.reporting (LowerM.stmt resetting enter callF) _).effort
  rw [reporting_callReset enter h.hook, LowerM.reporting, hcall, ← hbody]
  exact heffort

end again

/-- The function calls itself in a state like the one before. -/
theorem Resets.exists_next (h : Resets c) :
    ∃ c', Resets c' ∧ ∀ enter, Enters resetting enter [callReset, callF] c [callReset, callF] c' ∧
      (enter [callReset, callF] c').effort <
        (LowerM.block resetting enter [callReset, callF] c).effort := by
  obtain ⟨f, hf, hbody, hparams, hpath⟩ := h.function
  refine ⟨reentered c f, ⟨hpath, ?_, { f with emitted := true }, ?_, hbody, hparams, hpath⟩,
    fun enter => ⟨enters_reentered hf h hbody enter, effort_reentered hf h hbody enter hparams⟩⟩
  · rw [lookup?_reentered hf, if_neg (by decide), h.hook]
  · rw [function?_eq_some]
    exact (lookup?_reentered hf _ _).trans (if_pos ⟨rfl, rfl⟩)

def resettingF : FunctionSymbol :=
  (Compilation.start none).declared ⟨⟨"f", default⟩, [], [], [callReset, callF], default⟩

/-- Where the call behind the definition is lowered. -/
def beforeCall (enter : Enter) : Compilation :=
  LowerM.reporting (LowerM.stmt resetting enter
      (.define ⟨"f", default⟩ [] [] [callReset, callF] default))
    (LowerM.reporting (LowerM.stmt resetting enter (importOf "ext")) (.start none))

/-- Bodies are entered inside each other without end, so the recursion has no solution. -/
theorem resetting_never_ends :
    (¬ ∃ enter : Enter, ∀ stmts c, enter stmts c = LowerM.block resetting enter stmts c) ∧
    ∀ enter : Enter, ¬ Acc (fun inner outer : List Stmt × Compilation =>
        Enters resetting enter outer.1 outer.2 inner.1 inner.2)
      (selfResetting.body, .start none) := by
  have hcall (enter : Enter) : Enters resetting enter [callF] (beforeCall enter)
      [callReset, callF] ((beforeCall enter).openBody ⟨.root, "f"⟩ resettingF) :=
    @Enters.call resetting enter callF [] _ _ _ ⟨.root, "f"⟩ resettingF rfl rfl rfl rfl
  have hentry (enter : Enter) : Enters resetting enter selfResetting.body (.start none)
      [callReset, callF] ((beforeCall enter).openBody ⟨.root, "f"⟩ resettingF) :=
    .rest (.rest (hcall enter))
  have hresets (enter : Enter) :
      Resets ((beforeCall enter).openBody ⟨.root, "f"⟩ resettingF) :=
    ⟨rfl, rfl, _, rfl, rfl, rfl, rfl⟩
  constructor
  · rintro ⟨enter, henter⟩
    -- each body does more than the one that is entered in it
    have hnever (n : Nat) (c : Compilation) (hc : Resets c)
        (hn : (enter [callReset, callF] c).effort = n) : False := by
      induction n using Nat.strong_induction_on generalizing c with
      | _ n ih =>
          obtain ⟨c', hc', hnext⟩ := hc.exists_next
          have hlt := (hnext enter).2
          rw [← henter, hn] at hlt
          exact ih _ hlt c' hc' rfl
    exact hnever _ _ (hresets enter) rfl
  · intro enter hacc
    have hnever (x : List Stmt × Compilation) (hx : Acc (fun inner outer =>
        Enters resetting enter outer.1 outer.2 inner.1 inner.2) x) (c : Compilation)
        (hc : Resets c) : x ≠ ([callReset, callF], c) := by
      induction hx generalizing c with
      | intro x _ ih =>
          rintro rfl
          obtain ⟨c', hc', hnext⟩ := hc.exists_next
          exact ih _ (hnext enter).1 c' hc' rfl
    let entered := (beforeCall enter).openBody ⟨.root, "f"⟩ resettingF
    have hinner := hacc.inv (y := ([callReset, callF], entered)) (hentry enter)
    exact hnever _ hinner entered (hresets enter) rfl

end resetting

end P16
