import Mathlib.Tactic.Common
import P16.Lowering.Stmt
import P16.Proofs.Lines

/-!
# What the lowering actions do

`LowerM.Meets act c fails post` says what holds after `act` has been run on `c`: `post` if it
succeeds, `fails` if it fails. One specification for each action follows. Most actions leave the
compilation alone when they fail.
-/

namespace P16

namespace Compilation

/-- Every call of a function and every `return` in it has to agree on `count` results. -/
def Settled (c : Compilation) (key : FunctionKey) (count : Nat) : Prop :=
  ∀ f, c.function? key = some f → f.returns? = some count

/-- The number of results of a function is `count`, or it is fixed to be that. -/
inductive Settles (c : Compilation) (key : FunctionKey) (count : Nat) : Compilation → Prop where
  | agrees (h : c.Settled key count) : Settles c key count c
  | fixes (h : (c.function? key).map FunctionSymbol.returns? = some none) :
      Settles c key count (c.updateFunction key fun f => { f with returns? := some count })

section Settles

variable {c c' : Compilation} {key : FunctionKey} {count : Nat}

theorem Settles.program (h : c.Settles key count c') : c'.program = c.program := by
  cases h <;> rfl

theorem Settles.scope (h : c.Settles key count c') : c'.scope = c.scope := by
  cases h <;> rfl

theorem Settles.events (h : c.Settles key count c') : c'.events = c.events := by
  cases h <;> rfl

theorem Settles.diagnostics (h : c.Settles key count c') : c'.diagnostics = c.diagnostics := by
  cases h <;> rfl

end Settles

theorem ensureEmitted_scope (c : Compilation) (enter : Enter) (key : FunctionKey) :
    (c.ensureEmitted enter key).scope = c.scope := by
  unfold ensureEmitted
  split
  · rfl
  · split <;> rfl

/-- A function may be defined here. -/
structure Declares (c : Compilation) (d : FunctionDef) : Prop where
  outside : c.scope.function? = none
  unreserved : d.name.text.startsWith Builtin.reserved = false
  few : d.params.length ≤ Register.arguments.length
  distinct : firstRepeated? [] d.params = none
  free : c.store.lookup? c.store.current d.name.text = none

/-- The function that a definition adds to the current module. -/
def declared (c : Compilation) (d : FunctionDef) : FunctionSymbol :=
  { label := c.store.current.mangle d.name.text
    params := d.params.map Ident.text
    returns? := none
    definition := d
    path := c.store.current
    file? := c.scope.file?
    emitted := false }

def declare (c : Compilation) (d : FunctionDef) : Compilation :=
  c.updateStore fun s => s.define d.name.text (.function (c.declared d))

end Compilation

/-- The label to which a jump of a loop leads. -/
def LoopJump.label (labels : LoopLabels) : LoopJump → String
  | breakLoop => labels.stop
  | continueLoop => labels.start

namespace LowerM

variable {α β : Type}

def Meets (act : LowerM α) (c : Compilation) (fails : Compilation → Prop)
    (post : α → Compilation → Prop) : Prop :=
  match act c with
  | .ok a c' => post a c'
  | .error _ c' => fails c'

section rules

variable {c : Compilation} {fails : Compilation → Prop} {post : α → Compilation → Prop}

theorem Meets.ok {act : LowerM α} {a : α} {c' : Compilation} (h : act.Meets c fails post)
    (he : act c = .ok a c') : post a c' := by
  unfold Meets at h
  rwa [he] at h

theorem Meets.error {act : LowerM α} {failure : Failure} {c' : Compilation}
    (h : act.Meets c fails post) (he : act c = .error failure c') : fails c' := by
  unfold Meets at h
  rwa [he] at h

theorem Meets.mono {act : LowerM α} {fails' : Compilation → Prop}
    {post' : α → Compilation → Prop} (h : act.Meets c fails post)
    (hf : ∀ c', fails c' → fails' c') (hp : ∀ a c', post a c' → post' a c') :
    act.Meets c fails' post' := by
  unfold Meets at h ⊢
  cases he : act c with
  | ok a c' =>
      rw [he] at h
      exact hp a c' h
  | error failure c' =>
      rw [he] at h
      exact hf c' h

theorem Meets.imp {act : LowerM α} {P Q : Compilation → Prop} (h : act.Meets c P fun _ => P)
    (hi : ∀ c', P c' → Q c') : act.Meets c Q fun _ => Q :=
  h.mono hi fun _ => hi

theorem Meets.reporting {act : LowerM Unit} {P : Compilation → Prop}
    (h : act.Meets c P fun _ => P) (hr : ∀ failure c', P c' → P (c'.report failure)) :
    P (reporting act c) := by
  unfold LowerM.reporting
  cases he : act c with
  | ok _ c' => exact h.ok he
  | error failure c' => exact hr failure c' (h.error he)

theorem Meets.pure {a : α} (h : post a c) : (pure a : LowerM α).Meets c fails post := h

theorem Meets.failed {cause : Cause} {span : Span} (h : fails c) :
    (fail cause span : LowerM α).Meets c fails post := h

theorem Meets.update {f : Compilation → Compilation} {post : PUnit → Compilation → Prop}
    (h : post ⟨⟩ (f c)) : (modify f : LowerM PUnit).Meets c fails post := h

theorem Meets.bind {mid : β → Compilation → Prop} {act : LowerM β} {f : β → LowerM α}
    (h : act.Meets c fails mid) (hf : ∀ b c', mid b c' → (f b).Meets c' fails post) :
    (act >>= f).Meets c fails post := by
  unfold Meets at h ⊢
  simp only [Bind.bind, EStateM.bind]
  cases he : act c with
  | ok b c' =>
      rw [he] at h
      exact hf b c' h
  | error failure c' =>
      rw [he] at h
      exact h

theorem Meets.ask_bind {f : Compilation → Except Failure β} {g : β → LowerM α}
    (h : ∀ b, f c = .ok b → (g b).Meets c fails post) (hf : fails c) :
    (ask f >>= g).Meets c fails post := by
  have hask : (ask f).Meets c fails fun b c' => f c = .ok b ∧ c' = c := by
    unfold Meets ask
    cases he : f c with
    | ok b => exact ⟨rfl, rfl⟩
    | error failure => exact hf
  refine hask.bind ?_
  rintro b _ ⟨hb, rfl⟩
  exact h b hb

theorem Meets.get_bind {g : Compilation → LowerM α} (h : (g c).Meets c fails post) :
    ((get : LowerM Compilation) >>= g).Meets c fails post := h

theorem Meets.update_bind {f : Compilation → Compilation} {g : PUnit → LowerM α}
    (h : (g ⟨⟩).Meets (f c) fails post) :
    ((modify f : LowerM PUnit) >>= g).Meets c fails post := h

theorem Meets.failed_bind {cause : Cause} {span : Span} {g : β → LowerM α} (h : fails c) :
    ((fail cause span : LowerM β) >>= g).Meets c fails post := h

end rules

section specifications

variable (c : Compilation)

theorem loopJump_meets (jump : LoopJump) (span : Span) :
    (loopJump jump span).Meets c (· = c) fun _ c' => ∃ labels,
      c.scope.loops.head? = some labels ∧ c' = c.write fun p => p.jump (jump.label labels) := by
  unfold loopJump
  refine .get_bind ?_
  split
  · exact .failed rfl
  · rename_i labels loops hloops
    cases jump <;> exact .update ⟨labels, by rw [hloops]; rfl, rfl⟩

theorem assignOperand_meets (target value : Expr) :
    (assignOperand target value).Meets c (· = c) fun _ c' => ∃ x a,
      c.target target = .ok x ∧ c.operand value = .ok a ∧
        c' = c.write fun p => p.set (.reg x) a := by
  unfold assignOperand
  split
  · exact .failed rfl
  · exact .failed rfl
  · refine .ask_bind (fun x hx => ?_) rfl
    refine .ask_bind (fun a ha => ?_) rfl
    exact .update ⟨x, a, hx, ha, rfl⟩

theorem augAssign_meets (target : Expr) (op : BinaryOp) (value : Expr) (span : Span) :
    (augAssign target op value span).Meets c (· = c) fun _ c' => ∃ opcode x a,
      augmentedOpcode? op = some opcode ∧ c.target target = .ok x ∧ c.operand value = .ok a ∧
        c' = c.write fun p => p.basic opcode (.reg x) a := by
  unfold augAssign
  split
  · exact .failed rfl
  · rename_i opcode hop
    refine .ask_bind (fun x hx => ?_) rfl
    refine .ask_bind (fun a ha => ?_) rfl
    exact .update ⟨opcode, x, a, hop, hx, ha, rfl⟩

theorem memset_meets (site : CallSite) :
    (memset site).Meets c (· = c) fun _ c' => c' = c ∨ ∃ location value t a,
      c.address location = .ok t ∧ c.operand value = .ok a ∧
        c' = c.write fun p => p.set t a := by
  unfold memset
  split
  · rename_i location value _
    refine .ask_bind (fun t ht => ?_) rfl
    refine .ask_bind (fun a ha => ?_) rfl
    exact .update (.inr ⟨location, value, t, a, ht, ha, rfl⟩)
  · exact .pure (.inl rfl)

theorem noTargets_meets (name : String) (targets : List Expr) :
    (noTargets name targets).Meets c (· = c) fun _ c' => c' = c ∧ targets = [] := by
  unfold noTargets
  split
  · exact .pure ⟨rfl, rfl⟩
  · exact .failed rfl

theorem settleReturns_meets (key : FunctionKey) (count : Nat) (shown : String) (span : Span) :
    (settleReturns key count shown span).Meets c (· = c) fun _ => c.Settles key count := by
  unfold settleReturns
  refine .get_bind ?_
  split
  · rename_i hnone
    refine .pure (.agrees fun f hf => ?_)
    simp [hf] at hnone
  · rename_i hopen
    exact .update (.fixes hopen)
  · rename_i expected hfixed
    split
    · exact .failed rfl
    · rename_i heq
      refine .pure (.agrees fun f hf => ?_)
      simpa [hf, not_not.mp heq] using hfixed

theorem giveBack_meets (value? : Option Expr) (span : Span) :
    (giveBack value? span).Meets c (· = c) fun _ c' => ∃ key operands c₁,
      c.scope.function? = some key ∧ (returned value?).mapM c.operand = .ok operands ∧
        c.Settles key operands.length c₁ ∧
        c' = (c₁.write fun p => (p.pushAll operands).jumpBack).record
          (.giveBack key operands.length) := by
  unfold giveBack
  refine .get_bind ?_
  split
  · exact .failed rfl
  · rename_i key hkey
    refine .ask_bind (fun operands ho => ?_) rfl
    refine (settleReturns_meets c key operands.length key.name span).bind fun _ c₁ hs => ?_
    exact .update ⟨key, operands, c₁, hkey, ho, hs, rfl⟩

theorem checkDefinition_meets (d : FunctionDef) :
    (checkDefinition d).Meets c (· = c) fun _ c' => c' = c ∧ c.Declares d := by
  unfold checkDefinition
  refine .get_bind ?_
  dsimp only
  split
  · exact .failed_bind rfl
  rename_i houtside
  split
  · exact .failed_bind rfl
  rename_i hreserved
  split
  · exact .failed_bind rfl
  rename_i hfew
  split
  · exact .failed_bind rfl
  rename_i hdistinct
  split
  · exact .failed rfl
  rename_i hfree
  refine .pure ⟨rfl, ?_⟩
  constructor
  · simpa using houtside
  · simpa using hreserved
  · omega
  · exact Option.eq_none_iff_forall_ne_some.mpr hdistinct
  · exact Option.eq_none_iff_forall_ne_some.mpr hfree

theorem define_meets (enter : Enter) (d : FunctionDef) :
    (define enter d).Meets c (· = c) fun _ c' => c.Declares d ∧
      (c' = c.declare d ∨
        c' = (c.declare d).ensureEmitted enter ⟨c.store.current, d.name.text⟩) := by
  unfold define
  refine (checkDefinition_meets c d).bind ?_
  rintro _ _ ⟨rfl, hd⟩
  refine .ask_bind (fun exported _ => ?_) rfl
  refine .get_bind (.update_bind ?_)
  split
  · exact .update ⟨hd, .inr rfl⟩
  · exact .pure ⟨hd, .inl rfl⟩

/-- The error of a wrong number of results is found after the body has been written. -/
theorem callFunction_meets (enter : Enter) (key : FunctionKey) (shown : String)
    (f : FunctionSymbol) (site : CallSite) (targets : List Expr) :
    (callFunction enter key shown f site targets).Meets c
      (fun c' => c' = c ∨ c' = c.ensureEmitted enter key)
      fun _ c' => ∃ arguments registers c₁,
        site.args.length = f.arity ∧ site.args.mapM c.operand = .ok arguments ∧
        targets.mapM c.target = .ok registers ∧
        (c.ensureEmitted enter key).Settles key registers.length c₁ ∧
        c' = (c₁.write fun p =>
          p.callSequence c₁.scope.function?.isSome f.label arguments registers).record
            (.call key registers.length c₁.scope.function?.isSome) := by
  unfold callFunction
  dsimp only
  split
  · exact .failed_bind (.inl rfl)
  split
  · exact .failed_bind (.inl rfl)
  rename_i hlength
  refine .ask_bind (fun arguments ha => ?_) (.inl rfl)
  refine .ask_bind (fun registers hr => ?_) (.inl rfl)
  refine .update_bind ?_
  refine ((settleReturns_meets _ key registers.length shown site.span).mono
    (fun _ h => .inr h) fun _ _ h => h).bind fun _ c₁ hs => ?_
  exact .get_bind (.update
    ⟨arguments, registers, c₁, not_not.mp hlength, ha, hr, hs, rfl⟩)

end specifications

theorem call_eq_callFunction (env : Environment) (enter : Enter) {site : CallSite}
    (targets : List Expr) {c : Compilation} {key : FunctionKey} {f : FunctionSymbol}
    (hb : builtinCallee site.callee = .ok none) (hk : c.callee site.callee = .ok key)
    (hf : c.function? key = some f) :
    call env enter site targets c = callFunction enter key (c.shownName key) f site targets c := by
  have hl : c.store.lookup? key.path key.name = some (.function f) := by
    obtain ⟨symbol, hsymbol, hfunction⟩ := Option.bind_eq_some_iff.mp hf
    cases symbol <;> cases hfunction
    exact hsymbol
  have hget : (get : LowerM Compilation) c = .ok c c := rfl
  unfold call
  simp only [ask, Bind.bind, EStateM.bind, hb, hk, hget, hl]

end LowerM

end P16
