import P16.Proofs.Course

/-!
# Functions are kept until they are overwritten

A function that has been defined stays what it is: only the number of its results becomes known, and
its body is written. It is lost when its name is given to something else, which numbering names and
extensions do without a look at what the name stands for.

`Step.change` says once what a step can do to the symbol of a name.
-/

namespace P16

open Compilation

/-- Every name stands for what it did, or for something that is not a function. -/
def Store.AddsNoFunction (s s' : Store) : Prop :=
  ∀ path name, s'.lookup? path name = s.lookup? path name ∨
    ∃ symbol, s'.lookup? path name = some symbol ∧ symbol.function? = none

theorem Store.AddsNoFunction.trans {s₁ s₂ s₃ : Store} (h : s₁.AddsNoFunction s₂)
    (g : s₂.AddsNoFunction s₃) : s₁.AddsNoFunction s₃ := by
  intro path name
  rcases g path name with hsame | hnew
  · rw [hsame]
    exact h path name
  · exact .inr hnew

theorem Extension.define_addsNoFunction (e : Extension) (name : String) (s : Store) :
    s.AddsNoFunction (e.define name s) := by
  intro path key
  rcases e.lookup?_define name s path key with hsame | ⟨symbol, hl, hd⟩
  · exact .inl hsame
  · refine .inr ⟨symbol, hl, ?_⟩
    cases hd <;> rfl

/-- Extensions put constants and hooks into the store, and no functions. -/
def Registry.AddsNoFunction (r : Registry) : Prop :=
  r.Each fun t t' => t.store.AddsNoFunction t'.store

theorem Registry.OnlyBundled.addsNoFunction {r : Registry} (hr : r.OnlyBundled) :
    r.AddsNoFunction := by
  apply hr.each
  intro given t t' h path name
  rcases h.symbols path name with hsame | ⟨symbol, hl, hp⟩
  · exact .inl hsame
  · refine .inr ⟨symbol, hl, ?_⟩
    cases hp <;> rfl

namespace Compilation

def symbol? (c : Compilation) (key : FunctionKey) : Option Symbol :=
  c.store.lookup? key.path key.name

variable {c c' : Compilation} {key : FunctionKey}

theorem function?_eq_some {f : FunctionSymbol} :
    c.function? key = some f ↔ c.symbol? key = some (.function f) :=
  c.store.functionIn?_eq_some key.path key.name

theorem function?_eq_none_of_symbol? {symbol : Symbol} (h : c.symbol? key = some symbol)
    (hs : symbol.function? = none) : c.function? key = none := by
  change (c.symbol? key).bind _ = none
  rw [h]
  exact hs

theorem symbol?_updateFunction (c : Compilation) (other key : FunctionKey)
    (g : FunctionSymbol → FunctionSymbol) :
    (c.updateFunction other g).symbol? key = c.symbol? key ∨
      other = key ∧ ∃ f, c.symbol? key = some (.function f) ∧
        (c.updateFunction other g).symbol? key = some (.function (g f)) := by
  rcases c.store.lookup?_updateFunction_cases other.path key.path other.name key.name g with
    hsame | ⟨⟨hpath, hname⟩, f, hf, hg⟩
  · exact .inl hsame
  · refine .inr ⟨?_, f, hf, hg⟩
    cases other
    cases key
    cases hpath
    cases hname
    rfl

theorem Settles.symbol? {other : FunctionKey} {n : Nat} (h : c.Settles other n c')
    (key : FunctionKey) :
    c'.symbol? key = c.symbol? key ∨ other = key ∧ ∃ f, c.symbol? key = some (.function f) ∧
      f.returns? = none ∧ c'.symbol? key = some (.function { f with returns? := some n }) := by
  cases h with
  | agrees _ => exact .inl rfl
  | fixes hopen =>
      rcases c.symbol?_updateFunction other key fun f => { f with returns? := some n } with
        hsame | ⟨rfl, f, hf, hg⟩
      · exact .inl hsame
      · rw [function?_eq_some.mpr hf] at hopen
        exact .inr ⟨rfl, f, hf, Option.some.inj hopen, hg⟩

theorem symbol?_afterHook {act : HookM Unit}
    (h : ∀ t : Target, t.store.AddsNoFunction (act.finish t).store) (path : ModulePath)
    (c : Compilation) (key : FunctionKey) :
    (c.afterHook path act).symbol? key = c.symbol? key ∨
      ∃ symbol, (c.afterHook path act).symbol? key = some symbol ∧ symbol.function? = none := by
  have hstore := h ⟨c.program, c.store.enter path, c.notes⟩ key.path key.name
  dsimp only at hstore
  rw [Store.lookup?_enter] at hstore
  exact hstore

theorem symbol?_begun {env : Environment} (hr : env.registry.AddsNoFunction) (dotted : String)
    (c : Compilation) (key : FunctionKey) :
    (c.begun env dotted).symbol? key = c.symbol? key ∨
      (∃ e, env.registry.find? dotted = some e) ∧
        ∃ symbol, (c.begun env dotted).symbol? key = some symbol ∧ symbol.function? = none := by
  unfold begun
  dsimp only
  cases he : env.registry.find? dotted with
  | none => exact .inl rfl
  | some e =>
      have hinstall := Registry.Each.install hr he (fun _ _ _ => Store.AddsNoFunction.trans)
        fun t => e.define_addsNoFunction dotted t.store
      rcases symbol?_afterHook hinstall (.ofDotted dotted)
        (({ c with imported := dotted :: c.imported }).record (.install dotted)) key with
        hsame | hnew
      · exact .inl hsame
      · exact .inr ⟨⟨e, rfl⟩, hnew⟩

end Compilation

/-- The name of a function is given to something else: by a numbering in its module that names it,
or by an extension. -/
inductive Overwrites (env : Environment) (code : List Stmt) (key : FunctionKey) (c : Compilation) :
    Compilation → Prop where
  | number {site : CallSite} {names : List String} (hc : Calls code site [])
      (hb : LowerM.builtinCallee site.callee = .ok (some .defineEnumerate))
      (hn : LowerM.enumerated site.args = .ok names) (hp : c.store.current = key.path)
      (hk : key.name ∈ names) :
      Overwrites env code key c (c.updateStore (LowerM.defineNumbers names))
  | hook {path : ModulePath} {ref : HookRef} {hook : Hook} {args : CallArguments}
      (hh : env.registry.hook? ref = some hook)
      (hl : (c.afterHook path (hook.run args)).function? key = none) :
      Overwrites env code key c (c.afterHook path (hook.run args))
  | install {dotted : String} {e : Extension} (he : env.registry.find? dotted = some e)
      (hl : (c.begun env dotted).function? key = none) :
      Overwrites env code key c (c.begun env dotted)

theorem Overwrites.function?_eq_none {env : Environment} {code : List Stmt} {key : FunctionKey}
    {c c' : Compilation} (h : Overwrites env code key c c') : c'.function? key = none := by
  cases h with
  | @number _ names hc hb hn hp hk =>
      rcases lookup?_defineNumbers names c.store key.path key.name with ⟨hnot, -⟩ | ⟨-, n, hl⟩
      · exact absurd ⟨hp, hk⟩ hnot
      · exact function?_eq_none_of_symbol? hl rfl
  | hook hh hl => exact hl
  | install he hl => exact hl

/-- How the number of results of a function becomes known. -/
inductive Fixes (entry : List Stmt) (m m' : Moment) (key : FunctionKey) : Nat → Prop where
  | giveBack {value? : Option Expr} {span : Span} {n : Nat}
      (hm : .giveBack value? span ∈ m.code entry) (hk : m.now.scope.function? = some key) :
      Fixes entry m m' key n
  | call {f : FunctionSymbol} {arguments : List Operand} {results : List Register} {nested : Bool}
      (hp : m.pending = .call key f arguments results :: m'.pending)
      (he : f.emitted = true ∨ .label key.path key.name ∈ m.now.events)
      (hc : .call key results.length nested ∈ m'.now.events) :
      Fixes entry m m' key results.length
  | endBody {f : FunctionSymbol} {before : Compilation}
      (hp : m.pending = .body key f before :: m'.pending) : Fixes entry m m' key 0

/-- What a step can do to the symbol of a name. -/
inductive Change (env : Environment) (entry : List Stmt) (m m' : Moment) (key : FunctionKey) :
    Option Symbol → Option Symbol → Prop where
  | same (symbol? : Option Symbol) : Change env entry m m' key symbol? symbol?
  | provided {old? : Option Symbol} {symbol : Symbol} (h : symbol.function? = none)
      (ho : Overwrites env (m.code entry) key m.now m'.now) :
      Change env entry m m' key old? (some symbol)
  | declared {d : FunctionDef} (hd : m.now.Declares d)
      (hk : key = ⟨m.now.store.current, d.name.text⟩)
      (hm : .define d.name d.params d.decorators d.body d.span ∈ m.code entry) :
      Change env entry m m' key none (some (.function (m.now.declared d)))
  | begun {f : FunctionSymbol} (hp : m'.pending = .body key f m.now :: m.pending) :
      Change env entry m m' key (some (.function f)) (some (.function { f with emitted := true }))
  | fixed {f : FunctionSymbol} {n : Nat} (hn : f.returns? = none) (h : Fixes entry m m' key n) :
      Change env entry m m' key (some (.function f))
        (some (.function { f with returns? := some n }))

section change

variable {env : Environment} {entry : List Stmt} {m m' : Moment} {key : FunctionKey}

theorem Change.of_eq {old? new? : Option Symbol} (h : new? = old?) :
    Change env entry m m' key old? new? :=
  h ▸ .same new?

theorem Change.of_settles {c : Compilation} {other : FunctionKey} {n : Nat}
    (hs : m.now.Settles other n c) (he : m'.now.symbol? key = c.symbol? key)
    (hf : other = key → Fixes entry m m' key n) :
    Change env entry m m' key (m.now.symbol? key) (m'.now.symbol? key) := by
  rw [he]
  rcases hs.symbol? key with hsame | ⟨hk, f, hold, hopen, hnew⟩
  · exact .of_eq hsame
  · rw [hold, hnew]
    exact .fixed hopen (hf hk)

theorem Acts.change (hr : env.registry.AddsNoFunction) {m : Moment} {c : Compilation}
    (h : Acts env (m.code entry) m.now c) (key : FunctionKey) :
    Change env entry m ⟨c, m.pending⟩ key (m.now.symbol? key) (c.symbol? key) := by
  cases h with
  | report failure => exact .same _
  | line h => exact .same _
  | @number site names hc hb hn =>
      rcases lookup?_defineNumbers names m.now.store key.path key.name with
        ⟨-, hsame⟩ | ⟨⟨hp, hk⟩, n, hnew⟩
      · exact .of_eq hsame
      · rw [show symbol? (m.now.updateStore (LowerM.defineNumbers names)) key = _ from hnew]
        exact .provided rfl (.number hc hb hn hp hk)
  | @declare d hm hd =>
      have hlookup := m.now.store.lookup?_define key.path d.name.text key.name
        (.function (m.now.declared d))
      by_cases hk : m.now.store.current = key.path ∧ d.name.text = key.name
      · rw [if_pos hk] at hlookup
        have hkey : key = ⟨m.now.store.current, d.name.text⟩ := by
          rw [hk.1, hk.2]
        rw [show symbol? (m.now.declare d) key = _ from hlookup, hkey,
          show symbol? m.now ⟨_, d.name.text⟩ = none from hd.free]
        exact .declared hd rfl hm
      · rw [if_neg hk] at hlookup
        exact .of_eq hlookup
  | @giveBack c₁ other value? span operands hm hk ho hs =>
      apply Change.of_settles (c := c₁) hs rfl
      rintro rfl
      exact .giveBack hm hk
  | @beginImport dotted hi hd hs =>
      rcases m.now.symbol?_begun hr dotted key with hsame | ⟨⟨e, he⟩, symbol, hnew, hfun⟩
      · exact .of_eq hsame
      · have hlost := function?_eq_none_of_symbol? hnew hfun
        rw [hnew]
        exact .provided hfun (.install he hlost)
  | @hook other ref hook site positional keywords hc he hl hh hp hk =>
      rcases symbol?_afterHook (hr.hooks hh ⟨positional, keywords⟩) other.path m.now key with
        hsame | ⟨symbol, hnew, hfun⟩
      · exact .of_eq hsame
      · have hlost := function?_eq_none_of_symbol? hnew hfun
        rw [hnew]
        exact .provided hfun (.hook hh hlost)

theorem Step.change (hr : env.registry.AddsNoFunction) (h : Step env entry m m')
    (key : FunctionKey) :
    Change env entry m m' key (m.now.symbol? key) (m'.now.symbol? key) := by
  cases h with
  | act ha => exact ha.change hr key
  | beginCall hc hk hf hn ha hres => exact .same _
  | @endCall c c' other f arguments results rest he hs =>
      apply Change.of_settles (m := ⟨c, _⟩) (c := c') hs rfl
      rintro rfl
      exact .call rfl he List.mem_cons_self
  | beginLoop hm ht => exact .same _
  | endLoop => exact .same _
  | @beginBody _ other f hf he =>
      have hopened : (m.now.openBody other f).symbol? key =
          (m.now.updateFunction other fun f => { f with emitted := true }).symbol? key :=
        Store.lookup?_enter ..
      rw [hopened]
      rcases m.now.symbol?_updateFunction other key fun f => { f with emitted := true } with
        hsame | ⟨rfl, g, hold, hnew⟩
      · exact .of_eq hsame
      · rw [hold, hnew]
        cases (function?_eq_some.mp hf).symm.trans hold
        exact .begun rfl
  | @endBody c before other f rest =>
      have hleft : ((leaveScope before c).write fun p =>
          p.jumpBack.leaveFooter before.program.enterFooter.1).symbol? key = c.symbol? key :=
        Store.lookup?_enter ..
      rcases ((leaveScope before c).write fun p =>
          p.jumpBack.leaveFooter before.program.enterFooter.1).symbol?_updateFunction other key
          fun f => { f with returns? := f.returns? <|> some 0 } with hsame | ⟨rfl, g, hold, hnew⟩
      · exact .of_eq (hsame.trans hleft)
      · dsimp only
        rw [← hleft, hold, show symbol? (closeBody other before c) other = _ from hnew]
        cases hg : g.returns? with
        | some n =>
            apply Change.of_eq
            cases g
            cases hg
            rfl
        | none => exact .fixed hg (.endBody rfl)
  | beginFile hi hd hs => exact .of_eq (Store.lookup?_enter ..)
  | endFile => exact .of_eq (Store.lookup?_enter ..)

theorem Step.change_from (hr : env.registry.AddsNoFunction) (h : Step env entry m m')
    {symbol : Symbol} (hs : m.now.symbol? key = some symbol) :
    ∃ new?, m'.now.symbol? key = new? ∧ Change env entry m m' key (some symbol) new? := by
  have hchange := h.change hr key
  rw [hs] at hchange
  exact ⟨_, rfl, hchange⟩

theorem Step.change_to (hr : env.registry.AddsNoFunction) (h : Step env entry m m')
    {f : FunctionSymbol} (hf : m'.now.function? key = some f) :
    ∃ old?, m.now.symbol? key = old? ∧ Change env entry m m' key old? (some (.function f)) := by
  have hchange := h.change hr key
  rw [function?_eq_some.mp hf] at hchange
  exact ⟨_, rfl, hchange⟩

end change

/-- `f'` is the same function as `f`, about which more may be known. -/
structure FunctionSymbol.Evolves (f f' : FunctionSymbol) : Prop where
  label : f'.label = f.label
  params : f'.params = f.params
  definition : f'.definition = f.definition
  path : f'.path = f.path
  file? : f'.file? = f.file?
  returns? : ∀ n, f.returns? = some n → f'.returns? = some n
  emitted : f.emitted = true → f'.emitted = true

theorem FunctionSymbol.Evolves.refl (f : FunctionSymbol) : f.Evolves f :=
  ⟨rfl, rfl, rfl, rfl, rfl, fun _ h => h, fun h => h⟩

theorem FunctionSymbol.Evolves.trans {f₁ f₂ f₃ : FunctionSymbol} (h : f₁.Evolves f₂)
    (g : f₂.Evolves f₃) : f₁.Evolves f₃ where
  label := g.label.trans h.label
  params := g.params.trans h.params
  definition := g.definition.trans h.definition
  path := g.path.trans h.path
  file? := g.file?.trans h.file?
  returns? n hn := g.returns? n (h.returns? n hn)
  emitted he := g.emitted (h.emitted he)

theorem FunctionSymbol.evolves_emitted (f : FunctionSymbol) :
    f.Evolves { f with emitted := true } :=
  ⟨rfl, rfl, rfl, rfl, rfl, fun _ h => h, fun _ => rfl⟩

theorem FunctionSymbol.evolves_fixed {f : FunctionSymbol} (h : f.returns? = none) (n : Nat) :
    f.Evolves { f with returns? := some n } := by
  refine ⟨rfl, rfl, rfl, rfl, rfl, fun k hk => ?_, fun he => he⟩
  cases h.symm.trans hk

/-- What the symbol of a name can become later. -/
inductive Symbol.Becomes : Symbol → Symbol → Prop where
  | evolves {f f' : FunctionSymbol} (h : f.Evolves f') : Becomes (.function f) (.function f')
  | replaced {symbol symbol' : Symbol} (h : symbol'.function? = none) : Becomes symbol symbol'

theorem Symbol.Becomes.refl (symbol : Symbol) : symbol.Becomes symbol := by
  cases symbol with
  | function f => exact .evolves (.refl f)
  | _ => exact .replaced rfl

theorem Symbol.Becomes.trans {s₁ s₂ s₃ : Symbol} (h : s₁.Becomes s₂) (g : s₂.Becomes s₃) :
    s₁.Becomes s₃ := by
  cases g with
  | replaced hnone => exact .replaced hnone
  | evolves hg =>
      cases h with
      | evolves hf => exact .evolves (hf.trans hg)
      | replaced hnone => cases hnone

theorem Symbol.Becomes.exists_evolves {symbol : Symbol} {f' : FunctionSymbol}
    (h : symbol.Becomes (.function f')) : ∃ f, symbol = .function f ∧ f.Evolves f' := by
  cases h with
  | @evolves f _ he => exact ⟨f, rfl, he⟩
  | replaced hnone => cases hnone

/-- Names in use stay in use, and functions among them are the same functions or are lost. -/
def Compilation.Keeps (c c' : Compilation) : Prop :=
  ∀ key symbol, c.symbol? key = some symbol →
    ∃ symbol', c'.symbol? key = some symbol' ∧ symbol.Becomes symbol'

theorem Compilation.Keeps.refl (c : Compilation) : c.Keeps c :=
  fun _ symbol hs => ⟨symbol, hs, .refl symbol⟩

theorem Compilation.Keeps.trans {c₁ c₂ c₃ : Compilation} (h : c₁.Keeps c₂) (g : c₂.Keeps c₃) :
    c₁.Keeps c₃ := by
  intro key symbol hs
  obtain ⟨symbol₂, hs₂, h₂⟩ := h key symbol hs
  obtain ⟨symbol₃, hs₃, h₃⟩ := g key symbol₂ hs₂
  exact ⟨symbol₃, hs₃, h₂.trans h₃⟩

/-- A name in use that stands for a function has always stood for it. -/
theorem Compilation.Keeps.exists_evolves {c c' : Compilation} (h : c.Keeps c') {key : FunctionKey}
    {symbol : Symbol} {f' : FunctionSymbol} (hs : c.symbol? key = some symbol)
    (hf' : c'.function? key = some f') : ∃ f, symbol = .function f ∧ f.Evolves f' := by
  obtain ⟨symbol', hs', hb⟩ := h key symbol hs
  cases hs'.symm.trans (function?_eq_some.mp hf')
  exact hb.exists_evolves

theorem Compilation.Keeps.evolves {c c' : Compilation} (h : c.Keeps c') {key : FunctionKey}
    {f f' : FunctionSymbol} (hf : c.function? key = some f) (hf' : c'.function? key = some f') :
    f.Evolves f' := by
  obtain ⟨_, ⟨⟩, he⟩ := h.exists_evolves (function?_eq_some.mp hf) hf'
  exact he

section kept

variable {env : Environment} {entry : List Stmt} {m m' : Moment} {key : FunctionKey}
  {f f' : FunctionSymbol}

theorem Step.evolves_or_overwrites (hr : env.registry.AddsNoFunction) (h : Step env entry m m')
    (hf : m.now.function? key = some f) :
    (∃ f', m'.now.function? key = some f' ∧ f.Evolves f') ∨
      Overwrites env (m.code entry) key m.now m'.now := by
  obtain ⟨new?, hnew, hchange⟩ := h.change_from hr (function?_eq_some.mp hf)
  cases hchange with
  | same => exact .inl ⟨f, function?_eq_some.mpr hnew, .refl f⟩
  | provided hnone ho => exact .inr ho
  | begun hp => exact .inl ⟨_, function?_eq_some.mpr hnew, f.evolves_emitted⟩
  | fixed hn hfix =>
      exact .inl ⟨_, function?_eq_some.mpr hnew, FunctionSymbol.evolves_fixed hn _⟩

theorem Step.keeps (hr : env.registry.AddsNoFunction) (h : Step env entry m m') :
    m.now.Keeps m'.now := by
  intro key symbol hs
  obtain ⟨new?, hnew, hchange⟩ := h.change_from hr hs
  cases hchange with
  | same => exact ⟨symbol, hnew, .refl symbol⟩
  | provided hnone ho => exact ⟨_, hnew, .replaced hnone⟩
  | @begun f hp => exact ⟨_, hnew, .evolves f.evolves_emitted⟩
  | fixed hn hfix => exact ⟨_, hnew, .evolves (FunctionSymbol.evolves_fixed hn _)⟩

theorem Course.keeps (hr : env.registry.AddsNoFunction) {first : Moment} {moments : List Moment}
    (h : Course env entry first moments) :
    moments.Pairwise fun later earlier => earlier.now.Keeps later.now :=
  h.pairwise (fun _ _ hs => hs.keeps hr) fun _ _ _ => Keeps.trans

theorem Course.keeps_first (hr : env.registry.AddsNoFunction) {first : Moment}
    {moments : List Moment} (h : Course env entry first moments) :
    ∀ m ∈ moments, first.now.Keeps m.now :=
  h.forall_mem (.refl _) fun _ _ hk hs => hk.trans (hs.keeps hr)

/-- Along a course a function is kept exactly if no step of the course overwrites it. -/
theorem Course.evolves_iff (hr : env.registry.AddsNoFunction) {last : Moment}
    {passed : List Moment} (h : Course env entry m (last :: passed))
    (hf : m.now.function? key = some f) :
    (∃ f', last.now.function? key = some f' ∧ f.Evolves f') ↔
      (last :: passed).IsChain fun later earlier =>
        ¬ Overwrites env (earlier.code entry) key earlier.now later.now := by
  generalize hmoments : last :: passed = moments at h
  induction h generalizing last passed with
  | start =>
      cases hmoments
      exact ⟨fun _ => .singleton _, fun _ => ⟨f, hf, .refl f⟩⟩
  | @next m₁ m' past hcourse hs ih =>
      cases hmoments
      rw [List.isChain_cons_cons, ← ih rfl]
      constructor
      · rintro ⟨f', hf', -⟩
        have hpast : m.now.Keeps m₁.now := hcourse.keeps_first hr m₁ List.mem_cons_self
        -- Something else in place of the function would still be there.
        obtain ⟨symbol, hsymbol, -⟩ := hpast key _ (function?_eq_some.mp hf)
        obtain ⟨f₁, rfl, -⟩ := (hs.keeps hr).exists_evolves hsymbol hf'
        have hf₁ : m₁.now.function? key = some f₁ := function?_eq_some.mpr hsymbol
        refine ⟨fun ho => ?_, f₁, hf₁, hpast.evolves hf hf₁⟩
        cases hf'.symm.trans ho.function?_eq_none
      · rintro ⟨hnot, f₁, hf₁, he₁⟩
        rcases hs.evolves_or_overwrites hr hf₁ with ⟨f', hf', he⟩ | ho
        · exact ⟨f', hf', he₁.trans he⟩
        · exact absurd ho hnot

end kept

theorem LowerM.builtinCallee_name (b : Builtin) (span : Span) :
    builtinCallee (.name ⟨b.name, span⟩) = .ok (some b) := by
  have hreserved : b.name.startsWith Builtin.reserved = true := by
    rw [String.startsWith_string_iff]
    cases b <;> decide
  unfold builtinCallee
  dsimp only
  rw [if_pos hreserved]
  cases b <;> rfl

theorem LowerM.call_eq_builtin (env : Environment) (enter : Enter) (site : CallSite) {b : Builtin}
    (h : builtinCallee site.callee = .ok (some b)) (c : Compilation) :
    call env enter site [] c = builtin b site c := by
  unfold call
  simp only [ask, Bind.bind, EStateM.bind, h]
  rfl

/-- A statement leaves a function what it is, apart from what becomes known about it, exactly if
nothing that happens while the statement is lowered overwrites the function. -/
theorem lowered_keeps_function_iff (env : Environment) (hr : env.registry.AddsNoFunction)
    (entry : List Stmt) (m : Moment) {s : Stmt} (hs : s ∈ m.code entry) (depth : Nat) :
    ∃ passed, Course env entry m (m.lowered env depth s :: passed) ∧
      ∀ key f, m.now.function? key = some f →
        ((∃ f', (m.lowered env depth s).now.function? key = some f' ∧ f.Evolves f') ↔
          (m.lowered env depth s :: passed).IsChain fun later earlier =>
            ¬ Overwrites env (earlier.code entry) key earlier.now later.now) := by
  obtain ⟨passed, hcourse⟩ := m.passes_lowered env depth hs
  exact ⟨passed, hcourse, fun key f hf => hcourse.evolves_iff hr hf⟩

/-- After `def f(): pass`. -/
def loneFunction : Moment :=
  (Moment.start none).lowered .bare 0 (.define ⟨"f", default⟩ [] [] [.pass default] default)

/-- `builtin_define_enumerate(f)` -/
def numbersFunction : Stmt :=
  .expr (.call (.name ⟨Builtin.defineEnumerate.name, default⟩) [.name ⟨"f", default⟩] [] default)
    default

theorem lowered_numbersFunction :
    (loneFunction.lowered .bare 0 numbersFunction).now =
      loneFunction.now.updateStore (LowerM.defineNumbers ["f"]) := by
  have hcall := LowerM.call_eq_builtin .bare (LowerM.body .bare 0)
    ⟨_, [.name ⟨"f", default⟩], [], default⟩
    (LowerM.builtinCallee_name .defineEnumerate default) loneFunction.now
  change LowerM.reporting (LowerM.stmt _ _ numbersFunction) loneFunction.now = _
  unfold LowerM.reporting numbersFunction
  rw [LowerM.stmt, LowerM.exprStmt, hcall]
  rfl

/-- Numbering the name of a function loses the function without an error. -/
theorem numbering_loses_function :
    (loneFunction.now.function? ⟨.root, "f"⟩).isSome ∧
      (loneFunction.lowered .bare 0 numbersFunction).now.diagnostics = #[] ∧
      (loneFunction.lowered .bare 0 numbersFunction).now.function? ⟨.root, "f"⟩ = none := by
  rw [lowered_numbersFunction]
  exact ⟨rfl, rfl, rfl⟩

/-- A step of the lowering overwrites the function. -/
theorem lowered_keeps_function_iff_numbered :
    Environment.bare.registry.AddsNoFunction ∧
      numbersFunction ∈ loneFunction.code [numbersFunction] ∧ ∃ passed,
      Course .bare [numbersFunction] loneFunction
        (loneFunction.lowered .bare 0 numbersFunction :: passed) ∧
      ¬ (loneFunction.lowered .bare 0 numbersFunction :: passed).IsChain fun later earlier =>
        ¬ Overwrites .bare (earlier.code [numbersFunction]) ⟨.root, "f"⟩ earlier.now later.now := by
  have hr : Environment.bare.registry.AddsNoFunction := Registry.onlyBundled_empty.addsNoFunction
  have hs : numbersFunction ∈ loneFunction.code [numbersFunction] := List.mem_singleton_self _
  obtain ⟨passed, hcourse, hiff⟩ := lowered_keeps_function_iff .bare hr _ loneFunction hs 0
  refine ⟨hr, hs, passed, hcourse, fun hchain => ?_⟩
  obtain ⟨f', hf', -⟩ := (hiff ⟨.root, "f"⟩ _ rfl).mpr hchain
  rw [lowered_numbersFunction] at hf'
  cases hf'

end P16
