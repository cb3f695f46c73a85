import P16.Compile
import P16.Proofs.Outcomes

/-!
# What lowering can do

`Lowers env code c c'` lists all that can happen between two states of a compilation while
statements of `code` are lowered, with the bodies that are entered on the way. Everything that is
said about all compilations is proved from this, with a case for each thing that can happen.
-/

namespace P16

open Compilation

inductive Lowers (env : Environment) : List Stmt → Compilation → Compilation → Prop where
  | refl (code : List Stmt) (c : Compilation) : Lowers env code c c
  | trans {code : List Stmt} {c c₁ c₂ : Compilation} (h : Lowers env code c c₁)
      (g : Lowers env code c₁ c₂) : Lowers env code c c₂
  | act {code : List Stmt} {c c' : Compilation} (h : Acts env code c c') : Lowers env code c c'
  /-- The lines of a call. The body of the function has been written before. -/
  | call {code : List Stmt} {c c₁ c₂ : Compilation} {key : FunctionKey} {f : FunctionSymbol}
      {site : CallSite} {targets : List Expr} {arguments : List Operand} {results : List Register}
      (hc : Calls code site targets) (hk : c.callee site.callee = .ok key)
      (hf : c.function? key = some f) (hn : site.args.length = f.arity)
      (ha : site.args.mapM c.operand = .ok arguments) (hr : targets.mapM c.target = .ok results)
      (h : Lowers env code c c₁) (he : f.emitted = true ∨ .label key.path key.name ∈ c₁.events)
      (hs : c₁.Settles key results.length c₂) :
      Lowers env code c ((c₂.write fun p =>
        p.callSequence c₂.scope.function?.isSome f.label arguments results).record
          (.call key results.length c₂.scope.function?.isSome))
  | loop {code body : List Stmt} {c inner : Compilation} {e : Expr} {span : Span} {test : LoopTest}
      (hm : .whileLoop e body span ∈ code) (ht : c.loopTest e = .ok test)
      (h : Lowers env body (c.openLoop test) inner) :
      Lowers env code c (inner.closeLoop c.store.current c.nextLoop)
  | body {code : List Stmt} {c inner : Compilation} {key : FunctionKey} {f : FunctionSymbol}
      (hf : c.function? key = some f) (he : f.emitted = false)
      (h : Lowers env f.definition.body (c.openBody key f) inner) :
      Lowers env code c (closeBody key c inner)
  | loadModule {code : List Stmt} {c inner : Compilation} {dotted file : String} {m : Module}
      (hi : Imports code dotted) (hd : dotted ∉ c.imported)
      (hs : env.sources.find? (.ofDotted dotted) = some (file, .ok m))
      (h : Lowers env m.body ((c.begun env dotted).openModule dotted file) inner) :
      Lowers env code c ((c.begun env dotted).leaveScope inner)

theorem Lowers.of_eq {env : Environment} {code : List Stmt} {c c' : Compilation} (h : c' = c) :
    Lowers env code c c' :=
  h ▸ .refl code c'

section code

variable {env : Environment} {code code' : List Stmt} {c c' : Compilation}

theorem Calls.mono {site : CallSite} {targets : List Expr} (h : Calls code site targets)
    (hs : code ⊆ code') : Calls code' site targets := by
  obtain ⟨s, hmem, hsite⟩ := h
  exact ⟨s, hs hmem, hsite⟩

theorem Imports.mono {dotted : String} (h : Imports code dotted) (hs : code ⊆ code') :
    Imports code' dotted := by
  obtain ⟨names, span, hmem, hname⟩ := h
  exact ⟨names, span, hs hmem, hname⟩

theorem Acts.mono (h : Acts env code c c') (hs : code ⊆ code') : Acts env code' c c' := by
  cases h with
  | report failure => exact .report failure
  | line h => exact .line h
  | number hc hb hn => exact .number (hc.mono hs) hb hn
  | declare hm hd => exact .declare (hs hm) hd
  | giveBack hm hk ho hset => exact .giveBack (hs hm) hk ho hset
  | beginImport hi hd hfound => exact .beginImport (hi.mono hs) hd hfound
  | hook hc he hl hh hp hk => exact .hook (hc.mono hs) he hl hh hp hk

theorem Lowers.mono (h : Lowers env code c c') (hs : code ⊆ code') : Lowers env code' c c' := by
  induction h generalizing code' with
  | refl code c => exact .refl code' c
  | trans _ _ ih ih' => exact (ih hs).trans (ih' hs)
  | act h => exact .act (h.mono hs)
  | call hc hk hf hn ha hr _ he hset ih => exact .call (hc.mono hs) hk hf hn ha hr (ih hs) he hset
  | loop hm ht h _ => exact .loop (hs hm) ht h
  | body hf he h _ => exact .body hf he h
  | loadModule hi hd hfound h _ => exact .loadModule (hi.mono hs) hd hfound h

end code

theorem Compilation.begun_events (env : Environment) (dotted : String) (c : Compilation) :
    c.events <:+ (c.begun env dotted).events := by
  unfold begun
  dsimp only
  split
  · exact List.suffix_rfl
  · exact List.suffix_cons _ _

theorem Acts.events_suffix {env : Environment} {code : List Stmt} {c c' : Compilation}
    (h : Acts env code c c') : c.events <:+ c'.events := by
  cases h with
  | giveBack hm hk ho hs => cases hs <;> exact List.suffix_cons _ _
  | @beginImport dotted hi hd hs => exact c.begun_events env dotted
  | _ => exact List.suffix_rfl

theorem Lowers.events_suffix {env : Environment} {code : List Stmt} {c c' : Compilation}
    (h : Lowers env code c c') : c.events <:+ c'.events := by
  induction h with
  | refl code c => exact List.suffix_rfl
  | trans _ _ ih ih' => exact ih.trans ih'
  | act h => exact h.events_suffix
  | call hc hk hf hn ha hr h he hs ih => cases hs <;> exact ih.trans (List.suffix_cons _ _)
  | loop hm ht h ih => exact (List.suffix_append _ _).trans (ih.trans (List.suffix_cons _ _))
  | body hf he h ih => exact (List.suffix_cons _ _).trans ih
  | @loadModule _ c _ dotted _ _ hi hd hs h ih =>
      exact (c.begun_events env dotted).trans ((List.suffix_cons _ _).trans ih)

section place

theorem Compilation.begun_scope (env : Environment) (dotted : String) (c : Compilation) :
    (c.begun env dotted).scope = c.scope := by
  unfold begun
  dsimp only
  split <;> rfl

theorem Compilation.begun_current (env : Environment) (dotted : String) (c : Compilation) :
    (c.begun env dotted).store.current = c.store.current := by
  unfold begun
  dsimp only
  split <;> rfl

@[simp] theorem Compilation.diagnostics_begun (env : Environment) (dotted : String)
    (c : Compilation) : (c.begun env dotted).diagnostics = c.diagnostics := by
  unfold begun
  dsimp only
  split <;> rfl

theorem Compilation.Settles.current {c c' : Compilation} {key : FunctionKey} {count : Nat}
    (h : c.Settles key count c') : c'.store.current = c.store.current := by
  cases h with
  | agrees _ => rfl
  | fixes _ => exact Store.current_updateFunction ..

variable {env : Environment} {code : List Stmt} {c c' : Compilation}

theorem Acts.scope (h : Acts env code c c') : c'.scope = c.scope := by
  cases h with
  | giveBack hm hk ho hs => exact hs.scope
  | @beginImport dotted hi hd hs => exact c.begun_scope env dotted
  | _ => rfl

theorem Acts.current (h : Acts env code c c') : c'.store.current = c.store.current := by
  cases h with
  | number hc hb hn => exact current_defineNumbers _ _
  | giveBack hm hk ho hs => exact hs.current
  | @beginImport dotted hi hd hs => exact c.begun_current env dotted
  | _ => rfl

theorem Lowers.scope (h : Lowers env code c c') : c'.scope = c.scope := by
  induction h with
  | refl code c => rfl
  | trans _ _ ih ih' => exact ih'.trans ih
  | act h => exact h.scope
  | call hc hk hf hn ha hr _ he hs ih => exact hs.scope.trans ih
  | @loop _ _ c inner _ _ test hm ht _ ih =>
      change { inner.scope with loops := inner.scope.loops.tail } = c.scope
      rw [ih]
      rfl
  | body hf he _ _ => rfl
  | @loadModule _ c _ dotted _ _ hi hd hs _ _ => exact c.begun_scope env dotted

theorem Lowers.current (h : Lowers env code c c') : c'.store.current = c.store.current := by
  induction h with
  | refl code c => rfl
  | trans _ _ ih ih' => exact ih'.trans ih
  | act h => exact h.current
  | call hc hk hf hn ha hr _ he hs ih => exact hs.current.trans ih
  | loop hm ht _ ih => exact ih
  | body hf he _ _ => exact Store.current_updateFunction ..
  | @loadModule _ c _ dotted _ _ hi hd hs _ _ => exact c.begun_current env dotted

end place

theorem LowerM.reporting_lowers {env : Environment} {code : List Stmt} (c : Compilation)
    {act : LowerM Unit} (h : act.Meets c (Lowers env code c) fun _ => Lowers env code c) :
    Lowers env code c (reporting act c) :=
  h.reporting fun failure _ h => h.trans (.act (.report failure))

section enter

variable {env : Environment} {enter : Enter}
  (henter : ∀ stmts c, Lowers env stmts c (enter stmts c))
  {code : List Stmt} {c c' : Compilation}
include henter

theorem LowerM.ensureEmitted_lowers (c : Compilation) (key : FunctionKey) :
    Lowers env code c (c.ensureEmitted enter key) := by
  unfold ensureEmitted
  split
  · exact .refl _ c
  · rename_i f hf
    split
    · exact .refl _ c
    · rename_i he
      exact .body hf (by simpa using he) (henter _ _)

theorem LowerM.label_mem_ensureEmitted {key : FunctionKey} {f : FunctionSymbol}
    (hf : c.function? key = some f) :
    f.emitted = true ∨ .label key.path key.name ∈ (c.ensureEmitted enter key).events := by
  unfold ensureEmitted
  rw [hf]
  cases he : f.emitted with
  | true => exact .inl rfl
  | false =>
      have hsuffix := (henter f.definition.body (c.openBody key f)).events_suffix
      simp only [he, Bool.false_eq_true, if_false]
      exact .inr (hsuffix.subset List.mem_cons_self)

theorem Brings.lowers {name : ImportName} (h : Brings env enter c name c')
    (hi : Imports code name.path.text) : Lowers env code c c' := by
  cases h with
  | nothing _ => exact .refl _ c
  | begun hd hs => exact .act (.beginImport hi hd hs)
  | loaded hd hs => exact .loadModule hi hd hs (henter _ _)

theorem LowerM.importNames_lowers (c : Compilation) {names : List ImportName}
    (hi : ∀ name ∈ names, Imports code name.path.text) :
    Lowers env code c (importNames env enter names c) := by
  unfold importNames
  induction names generalizing c with
  | nil => exact .refl _ c
  | cons name names ih =>
      have hbrings := (importName_brings env enter c name).imp fun c' h =>
        h.lowers henter (hi name List.mem_cons_self)
      exact (reporting_lowers c hbrings).trans
        (ih _ fun name hname => hi name (List.mem_cons_of_mem _ hname))

theorem Outcome.lowers {s : Stmt} (h : Outcome env enter c s c') (hm : s ∈ code)
    (hloop : ∀ test body span, s = .whileLoop test body span →
      ∀ c, Lowers env body c (LowerM.block env enter body c)) : Lowers env code c c' := by
  cases h with
  | nothing => exact .refl _ c
  | act h _ => exact .act (h.mono (by simpa using hm))
  | call hc hk hf hn ha hr hs =>
      exact .call ⟨s, hm, hc⟩ hk hf hn ha hr (LowerM.ensureEmitted_lowers henter c _)
        (LowerM.label_mem_ensureEmitted henter hf) hs
  | wrongCount hc hk hf => exact LowerM.ensureEmitted_lowers henter c _
  | exported hd =>
      exact (Lowers.act (.declare hm hd)).trans (LowerM.ensureEmitted_lowers henter _ _)
  | loop ht => exact .loop hm ht (hloop _ _ _ rfl _)
  | imports names span =>
      exact LowerM.importNames_lowers henter c fun name hname =>
        ⟨names, span, hm, name, hname, rfl⟩

theorem LowerM.block_lowers (stmts : List Stmt) (c : Compilation) :
    Lowers env stmts c (block env enter stmts c) := by
  induction stmts using Stmt.block_induction generalizing c with
  | nil =>
      rw [block]
      exact .refl _ c
  | cons s rest hloop ih =>
      rw [block]
      have hm : s ∈ s :: rest := List.mem_cons_self
      have hfirst := (stmt_outcome env enter c s).imp fun _ h => h.lowers henter hm hloop
      exact (reporting_lowers c hfirst).trans ((ih _).mono (List.subset_cons_self s rest))

theorem LowerM.stmt_lowers {s : Stmt} (hm : s ∈ code) (c : Compilation) :
    (stmt env enter s).Meets c (Lowers env code c) fun _ => Lowers env code c :=
  (stmt_outcome env enter c s).imp fun _ h =>
    h.lowers henter hm fun _ body _ _ => block_lowers henter body

end enter

theorem LowerM.body_lowers (env : Environment) (depth : Nat) (stmts : List Stmt)
    (c : Compilation) : Lowers env stmts c (body env depth stmts c) := by
  induction depth generalizing stmts c with
  | zero => exact .refl _ c
  | succ depth ih => exact block_lowers ih stmts c

/-- Compiles modules one after another. -/
def compileModules (env : Environment) (file? : Option String) (modules : List Module) :
    Compilation :=
  modules.foldl (fun c m => c.addModule env m) (.start file?)

theorem compileModules_lowers (env : Environment) (file? : Option String) (modules : List Module) :
    Lowers env (modules.flatMap Module.body) (.start file?) (compileModules env file? modules) := by
  unfold compileModules
  generalize Compilation.start file? = c
  induction modules generalizing c with
  | nil => exact .refl _ c
  | cons m modules ih =>
      have hfirst := LowerM.body_lowers env (c.depthBound env m.body) m.body c
      exact (hfirst.mono (List.subset_append_left _ _)).trans
        ((ih _).mono (List.subset_append_right _ _))

end P16
