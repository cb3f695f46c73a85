import P16.Proofs.NumberLiterals
import P16.Proofs.RootUntouched

/-!
# Writing a word of memory

The hook `set` of the extension `mem` is given values, and the built-in that writes a word of memory
is given operands. An expression has an operand exactly if its value is one, so both write the same
line, although the hook runs in another module.
-/

namespace P16

theorem bind_eq_ok_iff {ε α β : Type} {x : Except ε α} {f : α → Except ε β} {b : β} :
    x >>= f = .ok b ↔ ∃ a, x = .ok a ∧ f a = .ok b :=
  ⟨exists_of_bind_eq_ok, fun ⟨_, hx, hf⟩ => hx ▸ hf⟩

theorem literalOperand_eq_ok_iff_number {n : Int} {e : Expr} {a : Operand} :
    literalOperand n e = .ok a ↔ (Value.number n).operand? = some a := by
  rw [literalOperand_eq_ok_iff, Value.operand?, Option.map_eq_some_iff]
  exact exists_congr fun w => ⟨fun ⟨ha, hw⟩ => ⟨hw, ha.symm⟩, fun ⟨hw, ha⟩ => ⟨ha.symm, hw⟩⟩

theorem constantOperand_eq_ok_iff {v : Value} {e : Expr} {a : Operand} :
    constantOperand v e = .ok a ↔ v.operand? = some a := by
  unfold constantOperand
  cases v.operand? <;> simp

namespace Compilation

variable {c : Compilation}

/-- The operand of an expression is its value, where that is an operand. -/
theorem operand_eq_ok_iff {e : Expr} {a : Operand} :
    c.operand e = .ok a ↔ ∃ v, c.value e = .ok v ∧ v.operand? = some a := by
  cases e with
  | number n span => simp [operand, value, literalOperand_eq_ok_iff_number]
  | unary op inner span =>
      cases op with
      | neg =>
          cases inner with
          | number n span => simp [operand, value, literalOperand_eq_ok_iff_number]
          | _ => simp [operand, value]
      | _ => simp [operand, value]
  | name ident =>
      cases hx : c.registerNamed? ident.text with
      | some x => simp [operand, value, hx, Value.operand?]
      | none => simp only [operand, value, hx, bind_eq_ok_iff, constantOperand_eq_ok_iff]
  | member inner attr span =>
      simp only [operand, value, bind_eq_ok_iff, constantOperand_eq_ok_iff]
  | text s span => simp [operand, value, Value.operand?]
  | tuple items span | list items span | dict entries span =>
      -- such a value is never an operand
      refine iff_of_false (by simp [operand]) ?_
      rintro ⟨v, hv, ha⟩
      obtain ⟨items, -, hv⟩ := exists_of_bind_eq_ok hv
      cases hv
      cases ha
  | _ => simp [operand, value]

theorem values_pair_eq_ok_iff {e e' : Expr} {values : List Value} :
    c.values [e, e'] = .ok values ↔
      ∃ v v', c.value e = .ok v ∧ c.value e' = .ok v' ∧ values = [v, v'] := by
  simp only [Compilation.values, bind_eq_ok_iff]
  constructor
  · rintro ⟨v, hv, _, ⟨v', hv', _, ⟨⟩, ⟨⟩⟩, ⟨⟩⟩
    exact ⟨v, v', hv, hv', rfl⟩
  · rintro ⟨v, v', hv, hv', rfl⟩
    exact ⟨v, hv, _, ⟨v', hv', _, rfl, rfl⟩, rfl⟩

theorem address_of_not_binary {e : Expr}
    (he : ∀ op left right span, e ≠ .binary op left right span) :
    c.address e = do return .mem (← c.operand e) := by
  cases e with
  | binary op left right span => exact absurd rfl (he op left right span)
  | _ => rfl

end Compilation

section runs

variable {α β : Type}

theorem HookM.check_bind_eq_ok_iff {x : Except String α} {f : α → HookM β} {t t' : Target}
    {b : β} :
    ((MonadExcept.ofExcept x : HookM α) >>= f) t = .ok b t' ↔
      ∃ a, x = .ok a ∧ f a t = .ok b t' := by
  cases x with
  | error message => exact iff_of_false (by rintro ⟨⟩) (by simp)
  | ok a =>
      change f a t = .ok b t' ↔ _
      simp

theorem LowerM.ask_bind_eq_ok_iff {f : Compilation → Except Failure α} {g : α → LowerM β}
    {c c' : Compilation} {b : β} :
    (ask f >>= g) c = .ok b c' ↔ ∃ a, f c = .ok a ∧ g a c = .ok b c' := by
  simp only [ask, Bind.bind, EStateM.bind]
  cases f c <;> simp

end runs

theorem CallArguments.operand_eq_ok_iff {args : CallArguments} {place : Nat} {name : String}
    {v : Value} {a : Operand} (hv : args.find? place name = some v) :
    args.operand place name = .ok a ↔ v.operand? = some a := by
  unfold operand get
  rw [hv]
  change v.expectOperand name = .ok a ↔ _
  unfold Value.expectOperand
  cases v.operand? <;> simp

theorem Memory.set_eq_ok_iff {v v' : Value} {keywords : Table String Value} {t t' : Target} :
    Memory.set ⟨[v, v'], keywords⟩ t = .ok () t' ↔ ∃ location value, v.operand? = some location ∧
      v'.operand? = some value ∧
      t' = { t with program := t.program.set (.mem location) value } := by
  constructor
  · intro h
    obtain ⟨-, -, h⟩ := HookM.check_bind_eq_ok_iff.mp h
    obtain ⟨location, hlocation, h⟩ := HookM.check_bind_eq_ok_iff.mp h
    obtain ⟨value, hvalue, h⟩ := HookM.check_bind_eq_ok_iff.mp h
    cases h
    exact ⟨location, value, (CallArguments.operand_eq_ok_iff rfl).mp hlocation,
      (CallArguments.operand_eq_ok_iff rfl).mp hvalue, rfl⟩
  · rintro ⟨location, value, hlocation, hvalue, rfl⟩
    refine HookM.check_bind_eq_ok_iff.mpr ⟨(), rfl, ?_⟩
    refine HookM.check_bind_eq_ok_iff.mpr
      ⟨location, (CallArguments.operand_eq_ok_iff rfl).mpr hlocation, ?_⟩
    exact HookM.check_bind_eq_ok_iff.mpr
      ⟨value, (CallArguments.operand_eq_ok_iff rfl).mpr hvalue, rfl⟩

theorem Store.enter_of_lookup? {s : Store} {path : ModulePath} {name : String} {symbol : Symbol}
    (h : s.lookup? path name = some symbol) : s.enter path = s.restore path := by
  obtain ⟨names, hnames, -⟩ := Option.bind_eq_some_iff.mp h
  have hhas : s.has path = true := by simp [has, Table.contains, hnames]
  simp [enter, restore, hhas]

/-- The statement calls the dotted name of these segments, with arguments by position only. -/
def Stmt.CallsName (s : Stmt) (segments : List String) (args : List Expr) : Prop :=
  ∃ callee name inner outer, s = .expr (.call callee args [] inner) outer ∧
    callee.toDottedName? = some name ∧ name.segments.map Ident.text = segments

namespace LowerM

variable (env : Environment) (enter : Enter) {c c' : Compilation} {s s' : Stmt} {l v : Expr}

section hooks

variable {key : FunctionKey} {shown : String} {ref : HookRef} {hook : Hook}

theorem call_eq_callHook {site : CallSite} (hb : builtinCallee site.callee = .ok none)
    (hk : c.callee site.callee = .ok key)
    (hl : c.store.lookup? key.path key.name = some (.hook ref)) :
    call env enter site [] c = callHook env key (c.shownName key) ref site c := by
  have hget : (get : LowerM Compilation) c = .ok c c := rfl
  unfold call
  simp only [ask, Bind.bind, EStateM.bind, hb, hk, hget, hl]
  rfl

/-- A hook that is called runs in its own module, and the module of the caller is current again
afterwards. -/
theorem callHook_eq_ok_iff {env : Environment} {site : CallSite}
    (hhook : env.registry.hook? ref = some hook)
    (hl : c.store.lookup? key.path key.name = some (.hook ref)) :
    callHook env key shown ref site c = .ok () c' ↔ ∃ positional keywords t,
      c.values site.args = .ok positional ∧
      c.keywordValues .empty site.keywords = .ok keywords ∧
      hook.run ⟨positional, keywords⟩ ⟨c.program, c.store.restore key.path, c.notes⟩ = .ok () t ∧
      c' = { c with
        program := t.program, store := t.store.restore c.store.current, notes := t.notes } := by
  simp only [callHook, ask_bind_eq_ok_iff, hhook]
  constructor
  · rintro ⟨positional, hpositional, keywords, hkeywords, h⟩
    cases hrun : hook.run ⟨positional, keywords⟩
        ⟨c.program, c.store.restore key.path, c.notes⟩ with
    | ok _ t =>
        simp only [runHook, Bind.bind, EStateM.bind, Store.enter_of_lookup? hl, hrun] at h
        cases h
        exact ⟨positional, keywords, t, hpositional, hkeywords, hrun, rfl⟩
    | error message t =>
        simp only [runHook, Bind.bind, EStateM.bind, Store.enter_of_lookup? hl, hrun] at h
        cases h
  · rintro ⟨positional, keywords, t, hpositional, hkeywords, hrun, rfl⟩
    refine ⟨positional, hpositional, keywords, hkeywords, ?_⟩
    simp only [runHook, Bind.bind, EStateM.bind, Store.enter_of_lookup? hl, hrun]
    rfl

end hooks

theorem stmt_eq_callHook {path : List String} {name : String} {args : List Expr} {ref : HookRef}
    (hs : s.CallsName (path ++ [name]) args) (hpath : path ≠ [])
    (hl : c.store.lookup? ⟨path⟩ name = some (.hook ref)) :
    ∃ shown callee span, stmt env enter s c =
      callHook env ⟨⟨path⟩, name⟩ shown ref ⟨callee, args, [], span⟩ c := by
  obtain ⟨callee, dotted, inner, outer, rfl, hdotted, hsegments⟩ := hs
  rw [stmt, exprStmt]
  cases callee with
  | name ident =>
      cases hdotted
      simp [DottedName.ofIdent, hpath, List.singleton_eq_append_iff] at hsegments
  | member value attr span =>
      have hkey : c.callee (.member value attr span) = .ok ⟨⟨path⟩, name⟩ := by
        simp only [Compilation.callee, splitMember, hdotted, hsegments, List.dropLast_concat,
          List.getLastD_concat]
        rfl
      exact ⟨_, _, inner, call_eq_callHook env enter rfl hkey hl⟩
  | _ => cases hdotted

theorem stmt_eq_memset (hs : s.CallsName [Builtin.memset.name] [l, v]) :
    ∃ callee span, stmt env enter s c = memset ⟨callee, [l, v], [], span⟩ c := by
  obtain ⟨callee, dotted, inner, outer, rfl, hdotted, hsegments⟩ := hs
  rw [stmt, exprStmt]
  cases callee with
  | name ident =>
      cases hdotted
      obtain ⟨text, span⟩ := ident
      cases hsegments
      exact ⟨.name ⟨Builtin.memset.name, span⟩, inner,
        (call_eq_builtin env enter _ (builtinCallee_name .memset span) c).trans rfl⟩
  | member value attr span =>
      obtain ⟨front, hfront, rfl⟩ := Option.map_eq_some_iff.mp hdotted
      have := Expr.segments_ne_nil_of_toDottedName? hfront
      simp [DottedName.snoc, this, List.append_eq_singleton_iff] at hsegments
  | _ => cases hdotted

theorem memset_eq_ok_iff {callee : Expr} {keywords : List (Keyword Expr)} {span : Span} :
    memset ⟨callee, [l, v], keywords, span⟩ c = .ok () c' ↔ ∃ target source,
      c.address l = .ok target ∧ c.operand v = .ok source ∧
      c' = c.write fun p => p.set target source := by
  simp only [memset, ask_bind_eq_ok_iff]
  constructor
  · rintro ⟨target, htarget, source, hsource, ⟨⟩⟩
    exact ⟨target, source, htarget, hsource, rfl⟩
  · rintro ⟨target, source, htarget, hsource, rfl⟩
    exact ⟨target, htarget, source, hsource, rfl⟩

theorem stmt_set_eq_ok_iff {env : Environment} {ref : HookRef}
    (hset : c.store.lookup? ⟨["mem"]⟩ "set" = some (.hook ref))
    (hhook : env.registry.hook? ref = some ⟨"set", Memory.set⟩)
    (hs : s.CallsName ["mem", "set"] [l, v]) :
    stmt env enter s c = .ok () c' ↔ ∃ x y, c.operand l = .ok x ∧ c.operand v = .ok y ∧
      c' = c.write fun p => p.write (.set (.mem x) y) := by
  obtain ⟨shown, callee, span, heq⟩ :=
    stmt_eq_callHook env enter hs (List.cons_ne_nil "mem" []) hset
  rw [heq, callHook_eq_ok_iff hhook hset]
  constructor
  · rintro ⟨positional, keywords, t, hpositional, ⟨⟩, hrun, rfl⟩
    obtain ⟨w, w', hw, hw', rfl⟩ := Compilation.values_pair_eq_ok_iff.mp hpositional
    obtain ⟨x, y, hx, hy, rfl⟩ := Memory.set_eq_ok_iff.mp hrun
    exact ⟨x, y, Compilation.operand_eq_ok_iff.mpr ⟨w, hw, hx⟩,
      Compilation.operand_eq_ok_iff.mpr ⟨w', hw', hy⟩, rfl⟩
  · rintro ⟨x, y, hx, hy, rfl⟩
    obtain ⟨w, hw, hx⟩ := Compilation.operand_eq_ok_iff.mp hx
    obtain ⟨w', hw', hy⟩ := Compilation.operand_eq_ok_iff.mp hy
    exact ⟨[w, w'], .empty, _, Compilation.values_pair_eq_ok_iff.mpr ⟨w, w', hw, hw', rfl⟩, rfl,
      Memory.set_eq_ok_iff.mpr ⟨x, y, hx, hy, rfl⟩, rfl⟩

theorem stmt_memset_eq_ok_iff (hl : ∀ op left right span, l ≠ .binary op left right span)
    (hs : s.CallsName [Builtin.memset.name] [l, v]) :
    stmt env enter s c = .ok () c' ↔ ∃ x y, c.operand l = .ok x ∧ c.operand v = .ok y ∧
      c' = c.write fun p => p.write (.set (.mem x) y) := by
  obtain ⟨callee, span, heq⟩ := stmt_eq_memset env enter hs
  rw [heq, memset_eq_ok_iff, Compilation.address_of_not_binary hl]
  constructor
  · rintro ⟨target, y, htarget, hy, rfl⟩
    obtain ⟨x, hx, ⟨⟩⟩ := exists_of_bind_eq_ok htarget
    exact ⟨x, y, hx, hy, rfl⟩
  · rintro ⟨x, y, hx, hy, rfl⟩
    exact ⟨.mem x, y, bind_eq_ok_iff.mpr ⟨x, hx, rfl⟩, hy, rfl⟩

/-- Where `mem.set` stands for the hook of the extension `mem`, and the location is not written as
an operation on two others, it is the same to call it or the built-in: either succeeds exactly if
location and value have operands, and then writes the same line and changes nothing else. An operand
of any expression is the operand that its value is. -/
theorem set_same_as_memset {env : Environment} {ref : HookRef}
    (hset : c.store.lookup? ⟨["mem"]⟩ "set" = some (.hook ref))
    (hhook : env.registry.hook? ref = some ⟨"set", Memory.set⟩)
    (hl : ∀ op left right span, l ≠ .binary op left right span)
    (hs : s.CallsName ["mem", "set"] [l, v]) (hs' : s'.CallsName [Builtin.memset.name] [l, v]) :
    (∀ c', stmt env enter s c = .ok () c' ↔ stmt env enter s' c = .ok () c') ∧
      (∀ c', stmt env enter s c = .ok () c' ↔ ∃ x y, c.operand l = .ok x ∧ c.operand v = .ok y ∧
        c' = c.write fun p => p.write (.set (.mem x) y)) ∧
      (∀ c', stmt env enter s c = .ok () c' → ∃ x y, c.operand l = .ok x ∧ c.operand v = .ok y ∧
        c'.program.written = c.program.written ++ [.set (.mem x) y]) ∧
      ∀ e x, c.operand e = .ok x ↔ ∃ w, c.value e = .ok w ∧ w.operand? = some x := by
  refine ⟨fun c' => ?_, fun c' => stmt_set_eq_ok_iff enter hset hhook hs, fun c' hok => ?_,
    fun e x => Compilation.operand_eq_ok_iff⟩
  · rw [stmt_set_eq_ok_iff enter hset hhook hs, stmt_memset_eq_ok_iff env enter hl hs']
  · obtain ⟨x, y, hx, hy, rfl⟩ := (stmt_set_eq_ok_iff enter hset hhook hs).mp hok
    exact ⟨x, y, hx, hy, c.program.written_write _⟩

/-- With `mem` installed, both write a negative number to the word that a parameter points to. -/
theorem set_same_as_memset_parameter :
    let env : Environment := ⟨⟨[], .empty []⟩, .bundled⟩
    let start := Compilation.start none
    let c : Compilation :=
      { start with
        store := (Memory.extension.define "mem" (start.store.enter ⟨["mem"]⟩)).restore .root
        scope := ⟨none, [], .ofList [("place", .B)], none⟩ }
    let args : List Expr := [.name ⟨"place", default⟩, .unary .neg (.number 2 default) default]
    let set : Expr := .member (.name ⟨"mem", default⟩) ⟨"set", default⟩ default
    let memset : Expr := .name ⟨"builtin_memset", default⟩
    ∃ c', stmt env (fun _ c => c) (.expr (.call set args [] default) default) c = .ok () c' ∧
      stmt env (fun _ c => c) (.expr (.call memset args [] default) default) c = .ok () c' ∧
      c' = c.write fun p => p.write (.set (.mem (.reg .B)) (.lit 0xfffe)) := by
  intro env start c args set memset
  obtain ⟨hsame, hset, -⟩ := set_same_as_memset (fun _ c => c)
    (show c.store.lookup? ⟨["mem"]⟩ "set" = some (.hook ⟨"mem", "set"⟩) by rfl)
    (show env.registry.hook? ⟨"mem", "set"⟩ = some ⟨"set", Memory.set⟩ by rfl)
    (by rintro _ _ _ _ ⟨⟩)
    (show Stmt.CallsName (.expr (.call set args [] default) default) ["mem", "set"] _ from
      ⟨_, _, _, _, rfl, rfl, rfl⟩)
    (show Stmt.CallsName (.expr (.call memset args [] default) default) [Builtin.memset.name] _ from
      ⟨_, _, _, _, rfl, rfl, rfl⟩)
  have hrun := (hset (c.write fun p => p.write (.set (.mem (.reg .B)) (.lit 0xfffe)))).mpr
    ⟨.reg .B, .lit 0xfffe, rfl, rfl, rfl⟩
  exact ⟨_, hrun, (hsame _).mp hrun, rfl⟩

end LowerM

end P16
