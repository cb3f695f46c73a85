import P16.Proofs.Restored

/-!
# Failing statements leave no trace

A statement looks at all its parts before it changes anything, so a statement that fails has changed
nothing. There are two exceptions. The number of results of a function may be known only after its
body has been written, so a call with a wrong number of targets leaves the body behind. And a hook
that fails leaves what it has done.
-/

namespace P16

open Compilation

/-- What a failing statement leaves behind. -/
inductive Leaves (enter : Enter) (s : Stmt) (c : Compilation) : Failure → Compilation → Prop where
  | nothing (failure : Failure) : Leaves enter s c failure c
  | body {site : CallSite} {targets : List Expr} {key : FunctionKey} {f : FunctionSymbol}
      {results : List Register} {expected : Nat} (hs : s.call? = some (site, targets))
      (hk : c.callee site.callee = .ok key) (hf : c.function? key = some f)
      (hr : targets.mapM c.target = .ok results)
      (hc : ((c.ensureEmitted enter key).function? key).map FunctionSymbol.returns? =
        some (some expected)) (hne : expected ≠ results.length) :
      Leaves enter s c
        ⟨.arityMismatch (c.shownName key) "return values" expected results.length, site.span⟩
        (c.ensureEmitted enter key)
  | hook (name message : String) (span : Span) (c' : Compilation) :
      Leaves enter s c ⟨.hookFailed name message, span⟩ c'

namespace LowerM

variable {α β : Type}

/-- `act` fails on `c` only with such a failure and such a state left. -/
def Fails (act : LowerM α) (c : Compilation) (P : Failure → Compilation → Prop) : Prop :=
  ∀ failure c', act c = .error failure c' → P failure c'

section rules

variable {c : Compilation} {P : Failure → Compilation → Prop}

theorem Fails.of_meets {act : LowerM α} {post : α → Compilation → Prop}
    (h : act.Meets c (· = c) post) (hP : ∀ failure, P failure c) : act.Fails c P := by
  intro failure c' he
  rw [h.error he]
  exact hP failure

theorem Fails.pure (a : α) : (pure a : LowerM α).Fails c P := by
  rintro _ _ ⟨⟩

theorem Fails.update (f : Compilation → Compilation) : (modify f : LowerM PUnit).Fails c P := by
  rintro _ _ ⟨⟩

theorem Fails.failed {cause : Cause} {span : Span} (h : P ⟨cause, span⟩ c) :
    (fail cause span : LowerM α).Fails c P := by
  rintro _ _ ⟨⟩
  exact h

theorem Fails.failed_bind {cause : Cause} {span : Span} {g : β → LowerM α} (h : P ⟨cause, span⟩ c) :
    ((fail cause span : LowerM β) >>= g).Fails c P := by
  rintro _ _ ⟨⟩
  exact h

theorem Fails.bind {act : LowerM β} {f : β → LowerM α} (h : act.Fails c P)
    (hf : ∀ b c₁, act c = .ok b c₁ → (f b).Fails c₁ P) : (act >>= f).Fails c P := by
  intro failure c' he
  simp only [Bind.bind, EStateM.bind] at he
  cases hact : act c with
  | ok b c₁ =>
      rw [hact] at he
      exact hf b c₁ hact failure c' he
  | error failure₁ c₁ =>
      rw [hact] at he
      cases he
      exact h _ _ hact

theorem Fails.ask_bind {f : Compilation → Except Failure β} {g : β → LowerM α}
    (h : ∀ b, f c = .ok b → (g b).Fails c P) (hP : ∀ failure, P failure c) :
    (ask f >>= g).Fails c P := by
  refine Fails.bind (fun failure c' he => ?_) fun b c₁ he => ?_
  · cases hf : f c with
    | ok b => simp [ask, hf] at he
    | error failure' =>
        obtain ⟨rfl, rfl⟩ : failure' = failure ∧ c = c' := by simpa [ask, hf] using he
        exact hP failure'
  · cases hf : f c with
    | error failure => simp [ask, hf] at he
    | ok b' =>
        obtain ⟨rfl, rfl⟩ : b' = b ∧ c = c₁ := by simpa [ask, hf] using he
        exact h b' hf

theorem Fails.check_bind {Q : Prop} {act : LowerM Unit} {g : Unit → LowerM α}
    (hact : act.Meets c (· = c) fun _ c' => c' = c ∧ Q) (hP : ∀ failure, P failure c)
    (h : (g ()).Fails c P) : (act >>= g).Fails c P := by
  refine Fails.bind (.of_meets hact hP) fun _ c₁ hok => ?_
  rw [(hact.ok hok).1]
  exact h

theorem Fails.get_bind {g : Compilation → LowerM α} (h : (g c).Fails c P) :
    ((get : LowerM Compilation) >>= g).Fails c P := h

theorem Fails.update_bind {f : Compilation → Compilation} {g : PUnit → LowerM α}
    (h : (g ⟨⟩).Fails (f c) P) : ((modify f : LowerM PUnit) >>= g).Fails c P := h

end rules

section specifications

variable (c : Compilation)

theorem settleReturns_fails (key : FunctionKey) (count : Nat) (shown : String) (span : Span) :
    (settleReturns key count shown span).Fails c fun failure c' => c' = c ∧ ∃ expected,
      (c.function? key).map FunctionSymbol.returns? = some (some expected) ∧ expected ≠ count ∧
        failure = ⟨.arityMismatch shown "return values" expected count, span⟩ := by
  unfold settleReturns
  refine .get_bind ?_
  split
  · exact .pure _
  · exact .update _
  · rename_i expected hfixed
    by_cases hcount : expected = count
    · simp only [hcount, ne_eq, not_true_eq_false, if_false]
      exact .pure _
    · simp only [hcount, ne_eq, not_false_eq_true, if_true]
      exact .failed ⟨rfl, expected, hfixed, hcount, rfl⟩

variable {enter : Enter} {s : Stmt} {site : CallSite} {targets : List Expr}

theorem runBuiltin_fails (b : Builtin) :
    (runBuiltin b site).Fails c fun _ c' => c' = c := by
  cases b with
  | halt => exact .update _
  | continueLoop => exact .of_meets (loopJump_meets c .continueLoop site.span) fun _ => rfl
  | breakLoop => exact .of_meets (loopJump_meets c .breakLoop site.span) fun _ => rfl
  | memset => exact .of_meets (memset_meets c site) fun _ => rfl
  | defineEnumerate => exact .ask_bind (fun names _ => .update _) fun _ => rfl

theorem builtin_fails (b : Builtin) : (builtin b site).Fails c fun _ c' => c' = c := by
  unfold builtin
  dsimp only
  split
  · exact .failed_bind rfl
  split
  · split
    · exact .failed_bind rfl
    · exact runBuiltin_fails c b
  · exact runBuiltin_fails c b

theorem callHook_fails (env : Environment) (key : FunctionKey) (shown : String) (ref : HookRef) :
    (callHook env key shown ref site).Fails c (Leaves enter s c) := by
  unfold callHook
  refine .ask_bind (fun positional _ => ?_) .nothing
  refine .ask_bind (fun keywords _ => ?_) .nothing
  split
  · exact .failed (.nothing _)
  · rename_i hook _
    apply Fails.bind
    · intro failure c' he
      have hruns :
          (runHook key.path (hook.run ⟨positional, keywords⟩)).Meets c (fun _ => False) _ :=
        runHook_meets c key.path _
      exact (hruns.error he).elim
    · intro result c₁ _
      cases result with
      | ok _ => exact .pure _
      | error message => exact .failed (.hook _ _ _ _)

theorem callFunction_fails {key : FunctionKey} {f : FunctionSymbol}
    (hs : s.call? = some (site, targets)) (hk : c.callee site.callee = .ok key)
    (hf : c.function? key = some f) :
    (callFunction enter key (c.shownName key) f site targets).Fails c (Leaves enter s c) := by
  unfold callFunction
  dsimp only
  split
  · exact .failed_bind (.nothing _)
  split
  · exact .failed_bind (.nothing _)
  refine .ask_bind (fun arguments _ => ?_) .nothing
  refine .ask_bind (fun results hr => ?_) .nothing
  refine .update_bind (.bind ?_ fun _ _ _ => .get_bind (.update _))
  intro failure c' he
  obtain ⟨rfl, expected, hc, hne, rfl⟩ := settleReturns_fails _ key _ _ _ failure c' he
  exact .body hs hk hf hr hc hne

theorem call_fails (env : Environment) (hs : s.call? = some (site, targets)) :
    (call env enter site targets).Fails c (Leaves enter s c) := by
  unfold call
  refine .ask_bind (fun callee _ => ?_) .nothing
  cases callee with
  | some b =>
      refine .check_bind (noTargets_meets c b.name targets) .nothing fun failure c' he => ?_
      rw [builtin_fails c b failure c' he]
      exact .nothing failure
  | none =>
      refine .ask_bind (fun key hk => .get_bind ?_) .nothing
      dsimp only
      split
      · rename_i ref hl
        exact .check_bind (noTargets_meets c _ targets) .nothing (callHook_fails c env key _ ref)
      · rename_i f hl
        have hf : c.function? key = some f := (c.store.functionIn?_eq_some _ _).mpr hl
        exact callFunction_fails c hs hk hf
      · exact .failed (.nothing _)
      · exact .failed (.nothing _)

/-- One case for each form of statement. Only calls can leave anything. -/
theorem stmt_fails (env : Environment) (s : Stmt) :
    (stmt env enter s).Fails c (Leaves enter s c) := by
  cases s with
  | importNames names span =>
      rw [stmt]
      exact .update _
  | assign targets value span =>
      rw [stmt]
      unfold assign
      split
      · rename_i target
        split
        · exact call_fails c env rfl
        · exact .of_meets (assignOperand_meets c target value) .nothing
      · exact .failed (.nothing _)
  | augAssign target op value span =>
      rw [stmt]
      exact .of_meets (augAssign_meets c target op value span) .nothing
  | expr e span =>
      rw [stmt]
      unfold exprStmt
      split
      · exact call_fails c env rfl
      · exact .pure _
      · exact .failed (.nothing _)
  | define name params decorators body span =>
      rw [stmt]
      exact .of_meets (define_meets c enter _) .nothing
  | giveBack value? span =>
      rw [stmt]
      exact .of_meets (giveBack_meets c value? span) .nothing
  | whileLoop test body span =>
      rw [stmt]
      exact .ask_bind (fun test _ => .update _) .nothing
  | breakLoop span =>
      rw [stmt]
      exact .of_meets (loopJump_meets c .breakLoop span) .nothing
  | continueLoop span =>
      rw [stmt]
      exact .of_meets (loopJump_meets c .continueLoop span) .nothing
  | pass span =>
      rw [stmt]
      exact .pure _
  | unsupported form span =>
      rw [stmt]
      exact .failed (.nothing _)

end specifications

end LowerM

/-- Extensions leave the segment active that they find, close the blocks they open, and write
nothing to the body while the footer is active. -/
def Registry.WritesInPlace (r : Registry) : Prop :=
  r.Each fun t t' => t'.program.active = t.program.active ∧
    t'.program.openBlocks = t.program.openBlocks ∧
    (t.program.active = .footer → t'.program.body = t.program.body)

theorem Registry.WritesInPlace.keepsPlace {r : Registry} (hr : r.WritesInPlace) : r.KeepsPlace where
  hooks hh args t := (hr.hooks hh args t).imp_right And.left
  startUps he hs t := (hr.startUps he hs t).imp_right And.left

theorem Registry.OnlyBundled.writesInPlace {r : Registry} (hr : r.OnlyBundled) : r.WritesInPlace :=
  hr.each fun _ _ _ h => ⟨h.program.active, h.program.openBlocks, h.program.body⟩

namespace Compilation

variable (c : Compilation) (key : FunctionKey) (f : FunctionSymbol)

theorem openBody_active : (c.openBody key f).program.active = .footer := by
  rw [openBody_program, Program.active_writeAll]
  rfl

theorem openBody_body : (c.openBody key f).program.body = c.program.body := by
  rw [openBody_program]
  exact Program.body_writeAll _ _ rfl

theorem closeBody_body {inner : Compilation} (h : inner.program.active = .footer) :
    (closeBody key c inner).program.body = inner.program.body := by
  rw [closeBody_program, Program.body_leaveFooter, Program.body_writeAll _ _ h]

end Compilation

section ownCode

variable {env : Environment} (hr : env.registry.WritesInPlace) {code : List Stmt}
  {c c' : Compilation}
include hr

theorem Compilation.begun_body (dotted : String) (c : Compilation)
    (ha : c.program.active = .footer) : (c.begun env dotted).program.body = c.program.body := by
  unfold Compilation.begun
  dsimp only
  split
  · rfl
  · rename_i e he
    have hinstall := Registry.Each.install hr he
      (fun _ _ _ h g => ⟨g.1.trans h.1, g.2.1.trans h.2.1,
        fun hf => (g.2.2 (h.1.trans hf)).trans (h.2.2 hf)⟩) fun _ => ⟨rfl, rfl, fun _ => rfl⟩
    exact (hinstall ⟨c.program, c.store.enter (.ofDotted dotted), c.notes⟩).2.2 ha

theorem Acts.body_eq (h : Acts env code c c') (ha : c.program.active = .footer) :
    c'.program.body = c.program.body := by
  cases h with
  | report failure => rfl
  | line _ => exact c.program.body_write _ ha
  | number hc hb hn => rfl
  | declare hm hd => rfl
  | @giveBack c₁ _ _ _ operands hm hk ho hs =>
      change ((c₁.program.pushAll operands).jumpBack).body = _
      rw [Program.giveBack_eq, hs.program, Program.body_writeAll _ _ ha]
  | @beginImport dotted hi hd hs => exact begun_body hr dotted c ha
  | @hook key _ _ _ _ _ hc he hl hh hp hk =>
      exact (hr.hooks hh _ ⟨c.program, c.store.enter key.path, c.notes⟩).2.2 ha

theorem Lowers.body_eq (h : Lowers env code c c') (ha : c.program.active = .footer) :
    c'.program.body = c.program.body := by
  induction h with
  | refl code c => rfl
  | trans h _ ih ih' => rw [ih' ((h.restored hr.keepsPlace).active.trans ha), ih ha]
  | act h => exact h.body_eq hr ha
  | @call _ c c₁ c₂ _ f _ _ arguments results hc hk hf hn hargs hres h he hs ih =>
      have hactive : c₁.program.active = .footer := (h.restored hr.keepsPlace).active.trans ha
      change (c₂.program.callSequence _ f.label arguments results).body = _
      rw [Program.callSequence_eq, hs.program, Program.body_writeAll _ _ hactive, ih ha]
  | @loop _ _ c inner _ _ test hm ht h ih =>
      have hopened : (c.openLoop test).program.active = .footer := (openLoop_active c test).trans ha
      have hinner : inner.program.active = .footer :=
        (h.restored hr.keepsPlace).active.trans hopened
      rw [closeLoop_program, Program.body_writeAll _ _ hinner, ih hopened, openLoop_program]
      exact Program.body_writeAll _ _ ha
  | @body _ c inner key f hf he h ih =>
      have hopened := openBody_active c key f
      have hinner := (h.restored hr.keepsPlace).active.trans hopened
      rw [closeBody_body c key hinner, ih hopened, openBody_body]
  | @loadModule _ c _ dotted _ _ hi hd hs h ih =>
      have hbegun := (Restored.begun hr.keepsPlace dotted c).active.trans ha
      exact (ih hbegun).trans (begun_body hr dotted c ha)

/-- The body of a function goes to a block of its own, so the code around it gains no line. That
code is in the body of the program or in the block that is open. -/
theorem closeBody_written {inner : Compilation} {key : FunctionKey} {f : FunctionSymbol}
    (h : Lowers env code (c.openBody key f) inner)
    (hopen : c.program.active = .footer → 0 < c.program.openBlocks) :
    (closeBody key c inner).program.written = c.program.written := by
  have hopened := openBody_active c key f
  have hrestored := h.restored hr.keepsPlace
  have hactive : (closeBody key c inner).program.active = c.program.active :=
    (Restored.body hrestored).active
  unfold Program.written
  rw [hactive]
  cases ha : c.program.active with
  | body =>
      have hinner := hrestored.active.trans hopened
      simp only [closeBody_body c key hinner, h.body_eq hr hopened, openBody_body]
  | footer =>
      have hblocks : 1 < (inner.program.writeAll [.jumpBack]).openBlocks := by
        have hcount := hopen ha
        rw [Program.openBlocks_writeAll, hrestored.openBlocks, openBody_program,
          Program.openBlocks_writeAll]
        change 1 < c.program.openBlocks + 1
        omega
      simp only [closeBody_program, Program.footer_leaveFooter _ _ hblocks]
      rfl

theorem ensureEmitted_written {enter : Enter}
    (henter : ∀ stmts c, Lowers env stmts c (enter stmts c))
    (key : FunctionKey) (hopen : c.program.active = .footer → 0 < c.program.openBlocks) :
    (c.ensureEmitted enter key).program.written = c.program.written := by
  unfold ensureEmitted
  split
  · rfl
  · split
    · rfl
    · exact closeBody_written hr (henter _ _) hopen

end ownCode

/-- A statement that fails, unless it is a hook that fails, leaves everything as it was. The one
exception is a call of a function with a wrong number of targets, which leaves the body of the
function written and nothing else: no line is added to the code in which the call stands. -/
theorem failed_stmt_leaves_no_trace (env : Environment) (depth : Nat) (s : Stmt)
    (c c' : Compilation) (failure : Failure)
    (h : LowerM.stmt env (LowerM.body env depth) s c = .error failure c')
    (hcause : ∀ name message, failure.cause ≠ .hookFailed name message) :
    c' = c ∨
      (∃ site targets key f results expected, s.call? = some (site, targets) ∧
        c.callee site.callee = .ok key ∧ c.function? key = some f ∧
        targets.mapM c.target = .ok results ∧ expected ≠ results.length ∧
        failure = ⟨.arityMismatch (c.shownName key) "return values" expected results.length,
          site.span⟩ ∧
        c' = c.ensureEmitted (LowerM.body env depth) key ∧
        (c'.function? key).map FunctionSymbol.returns? = some (some expected)) ∧
      (env.registry.WritesInPlace → (c.program.active = .footer → 0 < c.program.openBlocks) →
        c'.program.written = c.program.written) := by
  cases LowerM.stmt_fails c env s failure c' h with
  | nothing => exact .inl rfl
  | body hs hk hf hr hc hne =>
      refine .inr ⟨⟨_, _, _, _, _, _, hs, hk, hf, hr, hne, rfl, rfl, hc⟩, fun hregistry hopen => ?_⟩
      exact ensureEmitted_written hregistry (LowerM.body_lowers env depth) _ hopen
  | hook name message => exact absurd rfl (hcause name message)

/-- The body of a function is being written, and `stumbling` is defined. -/
def besideStumblingInBody : Compilation :=
  besideStumbling.openBody ⟨.root, "h"⟩
    (besideStumbling.declared ⟨⟨"h", default⟩, [], [], [], default⟩)

/-- The call of `f` has a target too many: the body of `f` is left, and no line is added to the body
in which the call stands. -/
theorem failed_stmt_leaves_no_trace_besideStumblingInBody :
    let env := Environment.bundled [] (.empty [])
    let c := besideStumblingInBody
    env.registry.WritesInPlace ∧ c.program.active = .footer ∧ 0 < c.program.openBlocks ∧
    ∃ failure c', LowerM.stmt env (LowerM.body env 1) assignsF c = .error failure c' ∧
      failure.cause = .arityMismatch "f" "return values" 0 1 ∧ c'.program.setAside.size = 76 ∧
      (∃ key, c' = c.ensureEmitted (LowerM.body env 1) key) ∧
      c'.program.written = c.program.written := by
  intro env c
  have hr : env.registry.WritesInPlace := Registry.onlyBundled_bundled.writesInPlace
  have hfails : (LowerM.stmt env (LowerM.body env 1) assignsF).failsWith c (fun failure c' =>
      failure.cause = .arityMismatch "f" "return values" 0 1 ∧
        c'.program.setAside.size = 76) = true := by
    decide +kernel
  obtain ⟨failure, c', he, hcheck⟩ := LowerM.exists_of_failsWith hfails
  obtain ⟨hcause, hsize⟩ := of_decide_eq_true hcheck
  refine ⟨hr, rfl, by decide, failure, c', he, hcause, hsize, ?_⟩
  have hleft := failed_stmt_leaves_no_trace env 1 assignsF c c' failure he (by simp [hcause])
  rcases hleft with rfl | ⟨⟨_, _, key, _, _, _, _, _, _, _, _, _, hkey, _⟩, hwritten⟩
  · cases hsize
  · exact ⟨⟨key, hkey⟩, hwritten hr fun _ => by decide⟩

end P16
