import Mathlib.Data.List.Pairwise
import P16.Proofs.Lowers

/-!
# The course of a compilation

`Lowers` relates the states before and after something is lowered. Here are the states in between. A
`Moment` is a state together with what is under way in it, a `Step` is one thing that happens, and a
`Course` is a list of moments, the latest first, each of which comes from the one before by a step.

All that lowering does is a course (`Lowers.passes`), so what is true of all courses is true of all
states through which a compilation goes.
-/

namespace P16

open Compilation

/-- Something that has begun and will be ended. -/
inductive Pending where
  | loop (path : ModulePath) (n : Nat) (code : List Stmt)
  /-- A call whose arguments and targets are known. The body of the function comes before its
  lines. -/
  | call (key : FunctionKey) (f : FunctionSymbol) (arguments : List Operand)
      (results : List Register)
  /-- The body of a function, and the state before it. -/
  | body (key : FunctionKey) (f : FunctionSymbol) (before : Compilation)
  /-- A module's file, and the state before it. -/
  | file (before : Compilation) (m : Module)

namespace Pending

/-- The statements among which the current one is, where `entry` are those of the beginning. -/
def code (entry : List Stmt) : List Pending → List Stmt
  | [] => entry
  | loop _ _ code :: _ => code
  | call .. :: rest => Pending.code entry rest
  | body _ f _ :: _ => f.definition.body
  | file _ m :: _ => m.body

def owner? : List Pending → Option (FunctionKey × FunctionSymbol)
  | [] => none
  | loop .. :: rest => owner? rest
  | call .. :: rest => owner? rest
  | body key f _ :: _ => some (key, f)
  | file .. :: _ => none

/-- The state before the beginning, for what has a scope of its own. -/
def before? : Pending → Option Compilation
  | body _ _ before => some before
  | file before _ => some before
  | _ => none

/-- The function that is called or whose body is being written. -/
def function? : Pending → Option (FunctionKey × FunctionSymbol)
  | call key f _ _ => some (key, f)
  | body key f _ => some (key, f)
  | _ => none

theorem exists_of_owner? {pending : List Pending} {key : FunctionKey} {f : FunctionSymbol}
    (h : owner? pending = some (key, f)) : ∃ before, body key f before ∈ pending := by
  induction pending with
  | nil => cases h
  | cons p rest ih =>
      cases p with
      | body other g before =>
          cases h
          exact ⟨before, List.mem_cons_self⟩
      | file before m => cases h
      | _ =>
          obtain ⟨before, hmem⟩ := ih h
          exact ⟨before, List.mem_cons_of_mem _ hmem⟩

end Pending

structure Moment where
  now : Compilation
  /-- The innermost first. -/
  pending : List Pending

namespace Moment

def start (file? : Option String) : Moment := ⟨.start file?, []⟩

def code (entry : List Stmt) (m : Moment) : List Stmt := Pending.code entry m.pending

/-- The body of the function is being written. -/
def Writes (m : Moment) (key : FunctionKey) : Prop :=
  ∃ f before, Pending.body key f before ∈ m.pending

end Moment

/-- One thing that happens while `entry` is lowered. -/
inductive Step (env : Environment) (entry : List Stmt) : Moment → Moment → Prop where
  | act {m : Moment} {c : Compilation} (h : Acts env (m.code entry) m.now c) :
      Step env entry m ⟨c, m.pending⟩
  | beginCall {m : Moment} {key : FunctionKey} {f : FunctionSymbol} {site : CallSite}
      {targets : List Expr} {arguments : List Operand} {results : List Register}
      (hc : Calls (m.code entry) site targets) (hk : m.now.callee site.callee = .ok key)
      (hf : m.now.function? key = some f)
      (hn : site.args.length = f.arity) (ha : site.args.mapM m.now.operand = .ok arguments)
      (hr : targets.mapM m.now.target = .ok results) :
      Step env entry m ⟨m.now, .call key f arguments results :: m.pending⟩
  | endCall {c c' : Compilation} {key : FunctionKey} {f : FunctionSymbol}
      {arguments : List Operand} {results : List Register} {rest : List Pending}
      (he : f.emitted = true ∨ .label key.path key.name ∈ c.events)
      (hs : c.Settles key results.length c') :
      Step env entry ⟨c, .call key f arguments results :: rest⟩
        ⟨(c'.write fun p =>
            p.callSequence c'.scope.function?.isSome f.label arguments results).record
          (.call key results.length c'.scope.function?.isSome), rest⟩
  | beginLoop {m : Moment} {e : Expr} {body : List Stmt} {span : Span} {test : LoopTest}
      (hm : .whileLoop e body span ∈ m.code entry) (ht : m.now.loopTest e = .ok test) :
      Step env entry m ⟨m.now.openLoop test,
        .loop m.now.store.current m.now.nextLoop body :: m.pending⟩
  | endLoop {c : Compilation} {path : ModulePath} {n : Nat} {body : List Stmt}
      {rest : List Pending} :
      Step env entry ⟨c, .loop path n body :: rest⟩ ⟨c.closeLoop path n, rest⟩
  | beginBody {m : Moment} {key : FunctionKey} {f : FunctionSymbol}
      (hf : m.now.function? key = some f) (he : f.emitted = false) :
      Step env entry m ⟨m.now.openBody key f, .body key f m.now :: m.pending⟩
  | endBody {c before : Compilation} {key : FunctionKey} {f : FunctionSymbol}
      {rest : List Pending} :
      Step env entry ⟨c, .body key f before :: rest⟩ ⟨closeBody key before c, rest⟩
  | beginFile {m : Moment} {dotted file : String} {loaded : Module}
      (hi : Imports (m.code entry) dotted) (hd : m.now.imported.head? = some dotted)
      (hs : env.sources.find? (.ofDotted dotted) = some (file, .ok loaded)) :
      Step env entry m ⟨m.now.openModule dotted file, .file m.now loaded :: m.pending⟩
  | endFile {c before : Compilation} {loaded : Module} {rest : List Pending} :
      Step env entry ⟨c, .file before loaded :: rest⟩ ⟨before.leaveScope c, rest⟩

/-- The moments from `first` on, the latest first. -/
inductive Course (env : Environment) (entry : List Stmt) (first : Moment) : List Moment → Prop where
  | start : Course env entry first [first]
  | next {m m' : Moment} {past : List Moment} (h : Course env entry first (m :: past))
      (hs : Step env entry m m') : Course env entry first (m' :: m :: past)

/-- A course leads from the first moment to the second. -/
def Passes (env : Environment) (entry : List Stmt) (m m' : Moment) : Prop :=
  ∃ passed, Course env entry m (m' :: passed)

section course

variable {env : Environment} {entry : List Stmt} {first m m' m₁ : Moment} {moments : List Moment}

/-- What holds of the first moment and is kept by every step holds of all moments. -/
theorem Course.forall_mem {P : Moment → Prop} (h : Course env entry first moments)
    (hfirst : P first) (hstep : ∀ m m', P m → Step env entry m m' → P m') :
    ∀ m ∈ moments, P m := by
  induction h with
  | start =>
      intro m hm
      cases List.mem_singleton.mp hm
      exact hfirst
  | next _ hs ih =>
      intro m hm
      rcases List.mem_cons.mp hm with rfl | hm
      · exact hstep _ _ (ih _ List.mem_cons_self) hs
      · exact ih m hm

theorem Course.of_suffix {past : List Moment} (h : Course env entry first moments)
    (hp : m :: past <:+ moments) : Course env entry first (m :: past) := by
  induction h with
  | start =>
      rcases List.suffix_cons_iff.mp hp with heq | hp
      · cases heq
        exact .start
      · cases List.suffix_nil.mp hp
  | next hcourse hs ih =>
      rcases List.suffix_cons_iff.mp hp with heq | hp
      · cases heq
        exact .next hcourse hs
      · exact ih hp

theorem Course.pairwise {R : Moment → Moment → Prop} (h : Course env entry first moments)
    (hstep : ∀ m m', Step env entry m m' → R m m')
    (htrans : ∀ m₁ m₂ m₃, R m₁ m₂ → R m₂ m₃ → R m₁ m₃) :
    moments.Pairwise fun later earlier => R earlier later := by
  induction h with
  | start => exact List.pairwise_singleton _ _
  | next _ hs ih =>
      have hlast := hstep _ _ hs
      apply List.pairwise_cons.mpr
      refine ⟨fun earlier hm => ?_, ih⟩
      rcases List.mem_cons.mp hm with rfl | hm
      · exact hlast
      · exact htrans _ _ _ ((List.pairwise_cons.mp ih).1 earlier hm) hlast

theorem Step.events_suffix (h : Step env entry m m') : m.now.events <:+ m'.now.events := by
  cases h with
  | act ha => exact ha.events_suffix
  | beginCall hc hk hf hn ha hr => exact List.suffix_rfl
  | endCall he hs =>
      change _ <:+ _ :: _
      rw [← hs.events]
      exact List.suffix_cons _ _
  | beginLoop hm ht => exact List.suffix_append _ _
  | endLoop => exact List.suffix_cons _ _
  | beginBody hf he => exact List.suffix_cons _ _
  | endBody => exact List.suffix_rfl
  | beginFile hi hd hs => exact List.suffix_cons _ _
  | endFile => exact List.suffix_rfl

theorem Course.events_suffix (h : Course env entry first moments) :
    moments.Pairwise fun later earlier => earlier.now.events <:+ later.now.events :=
  h.pairwise (fun _ _ hs => hs.events_suffix) fun _ _ _ => List.IsSuffix.trans

theorem Passes.refl (m : Moment) : Passes env entry m m := ⟨[], .start⟩

theorem Passes.tail (h : Passes env entry m m₁) (hs : Step env entry m₁ m') :
    Passes env entry m m' := by
  obtain ⟨passed, hcourse⟩ := h
  exact ⟨m₁ :: passed, .next hcourse hs⟩

theorem Passes.trans (h : Passes env entry m m₁) (g : Passes env entry m₁ m') :
    Passes env entry m m' := by
  obtain ⟨passed, hcourse⟩ := g
  generalize hmoments : m' :: passed = moments at hcourse
  induction hcourse generalizing m' passed with
  | start =>
      cases hmoments
      exact h
  | next _ hs ih =>
      cases hmoments
      exact (ih _ rfl).tail hs

theorem Lowers.passes {code : List Stmt} {c c' : Compilation} (h : Lowers env code c c')
    {pending : List Pending} (hc : code ⊆ Pending.code entry pending) :
    Passes env entry ⟨c, pending⟩ ⟨c', pending⟩ := by
  induction h generalizing pending with
  | refl code c => exact .refl _
  | trans _ _ ih ih' => exact (ih hc).trans (ih' hc)
  | act h =>
      have hact := h.mono hc
      exact (Passes.refl _).tail (.act hact)
  | @call _ c c₁ c₂ key f site targets arguments results hcall hk hf hn ha hr _ he hs ih =>
      have hbegin : Passes env entry ⟨c, pending⟩ ⟨c, .call key f arguments results :: pending⟩ :=
        (Passes.refl _).tail (.beginCall (hcall.mono hc) hk hf hn ha hr)
      exact (hbegin.trans (ih hc)).tail (.endCall he hs)
  | @loop _ body c inner e span test hm ht _ ih =>
      have hbegin : Passes env entry ⟨c, pending⟩
          ⟨c.openLoop test, .loop c.store.current c.nextLoop body :: pending⟩ :=
        (Passes.refl _).tail (.beginLoop (hc hm) ht)
      exact (hbegin.trans (ih (List.Subset.refl _))).tail .endLoop
  | @body _ c inner key f hf he _ ih =>
      have hbegin : Passes env entry ⟨c, pending⟩ ⟨c.openBody key f, .body key f c :: pending⟩ :=
        (Passes.refl _).tail (.beginBody hf he)
      exact (hbegin.trans (ih (List.Subset.refl _))).tail .endBody
  | @loadModule _ c inner dotted file loaded hi hd hs _ ih =>
      have hbegin : Passes env entry ⟨c, pending⟩ ⟨c.begun env dotted, pending⟩ :=
        (Passes.refl _).tail (.act (.beginImport (hi.mono hc) hd (.inr (by simp [hs]))))
      have hmarked : (c.begun env dotted).imported.head? = some dotted := by
        unfold Compilation.begun
        dsimp only
        split <;> rfl
      have hopen := hbegin.tail (.beginFile (hi.mono hc) hmarked hs)
      exact (hopen.trans (ih (List.Subset.refl _))).tail .endFile

def Moment.lowered (env : Environment) (depth : Nat) (s : Stmt) (m : Moment) : Moment :=
  ⟨LowerM.reporting (LowerM.stmt env (LowerM.body env depth) s) m.now, m.pending⟩

theorem Moment.passes_lowered (env : Environment) {entry : List Stmt} (depth : Nat) {s : Stmt}
    {m : Moment} (hs : s ∈ m.code entry) : Passes env entry m (m.lowered env depth s) := by
  have hlowers := LowerM.reporting_lowers m.now
    (LowerM.stmt_lowers (LowerM.body_lowers env depth) hs m.now)
  exact hlowers.passes (List.Subset.refl _)

theorem compileModules_passes (env : Environment) (file? : Option String) (modules : List Module) :
    Passes env (modules.flatMap Module.body) (.start file?)
      ⟨compileModules env file? modules, []⟩ :=
  (compileModules_lowers env file? modules).passes (List.Subset.refl _)

end course

/-- Neither files nor extensions. -/
def Environment.bare : Environment := ⟨⟨[], .empty []⟩, .empty⟩

/-- A property of the state and of what is pending that every step keeps, if it also held before
what is pending began. -/
structure Framed (env : Environment) (P : Compilation → List Pending → Prop) : Prop where
  act {code : List Stmt} {c c' : Compilation} {pending : List Pending} :
    Acts env code c c' → P c pending → P c' pending
  beginCall {c : Compilation} {pending : List Pending} (key : FunctionKey) (f : FunctionSymbol)
    (arguments : List Operand) (results : List Register) :
    P c pending → P c (.call key f arguments results :: pending)
  endCall {c c' : Compilation} {key : FunctionKey} {f : FunctionSymbol} {arguments : List Operand}
    {results : List Register} {rest : List Pending} : c.Settles key results.length c' →
    P c (.call key f arguments results :: rest) →
    P ((c'.write fun p => p.callSequence c'.scope.function?.isSome f.label arguments results).record
      (.call key results.length c'.scope.function?.isSome)) rest
  beginLoop {c : Compilation} {pending : List Pending} (test : LoopTest) (body : List Stmt) :
    P c pending → P (c.openLoop test) (.loop c.store.current c.nextLoop body :: pending)
  endLoop {c : Compilation} {path : ModulePath} {n : Nat} {body : List Stmt}
    {rest : List Pending} : P c (.loop path n body :: rest) → P (c.closeLoop path n) rest
  beginBody {c : Compilation} {pending : List Pending} (key : FunctionKey) (f : FunctionSymbol) :
    P c pending → P (c.openBody key f) (.body key f c :: pending)
  endBody {c before : Compilation} {rest : List Pending} (key : FunctionKey) :
    P before rest → P (closeBody key before c) rest
  beginFile {c : Compilation} {pending : List Pending} (dotted file : String) (loaded : Module) :
    P c pending → P (c.openModule dotted file) (.file c loaded :: pending)
  endFile {c before : Compilation} {loaded : Module} {rest : List Pending} :
    P before rest → P c (.file before loaded :: rest) → P (before.leaveScope c) rest

/-- `P` holds now, and it held before what is pending began. -/
structure Moment.Always (P : Compilation → List Pending → Prop) (m : Moment) : Prop where
  now : P m.now m.pending
  before : ∀ p rest c, p :: rest <:+ m.pending → p.before? = some c → P c rest

section framed

variable {env : Environment} {entry : List Stmt} {P : Compilation → List Pending → Prop}
  {c c' : Compilation} {pending rest : List Pending} {p : Pending} {m m' : Moment}

theorem Moment.Always.push (h : Moment.Always P ⟨c, pending⟩) (hnow : P c' (p :: pending))
    (hp : ∀ before, p.before? = some before → P before pending) :
    Moment.Always P ⟨c', p :: pending⟩ := by
  refine ⟨hnow, fun q rest before hs hq => ?_⟩
  rcases List.suffix_cons_iff.mp hs with heq | hs
  · cases heq
    exact hp before hq
  · exact h.before q rest before hs hq

theorem Moment.Always.pop (h : Moment.Always P ⟨c, p :: rest⟩) (hnow : P c' rest) :
    Moment.Always P ⟨c', rest⟩ :=
  ⟨hnow, fun q rest' before hs => h.before q rest' before (hs.trans (List.suffix_cons _ _))⟩

theorem Moment.Always.last (h : Moment.Always P ⟨c, p :: rest⟩) {before : Compilation}
    (hp : p.before? = some before) : P before rest :=
  h.before p rest before List.suffix_rfl hp

theorem Framed.step (hP : Framed env P) (hs : Step env entry m m') (h : m.Always P) :
    m'.Always P := by
  cases hs with
  | act ha => exact ⟨hP.act ha h.now, h.before⟩
  | beginCall hc hk hf hn ha hr => exact h.push (hP.beginCall _ _ _ _ h.now) nofun
  | endCall he hs => exact h.pop (hP.endCall hs h.now)
  | beginLoop hm ht => exact h.push (hP.beginLoop _ _ h.now) nofun
  | endLoop => exact h.pop (hP.endLoop h.now)
  | beginBody hf he =>
      apply h.push (hP.beginBody _ _ h.now)
      rintro before ⟨⟩
      exact h.now
  | endBody => exact h.pop (hP.endBody _ (h.last rfl))
  | beginFile hi hd hs =>
      apply h.push (hP.beginFile _ _ _ h.now)
      rintro before ⟨⟩
      exact h.now
  | endFile => exact h.pop (hP.endFile (h.last rfl) h.now)

theorem Framed.of_course (hP : Framed env P) {file? : Option String} {moments : List Moment}
    (h : Course env entry (.start file?) moments) (hstart : P (.start file?) []) :
    ∀ m ∈ moments, P m.now m.pending := by
  have hfirst : (Moment.start file?).Always P :=
    ⟨hstart, fun p rest c hs => by simp [Moment.start] at hs⟩
  intro m hm
  have halways := h.forall_mem hfirst (fun m m' hm hs => hP.step hs hm) m hm
  exact halways.now

end framed

theorem framed_scope (env : Environment) :
    Framed env fun c pending => c.scope.function? = (Pending.owner? pending).map Prod.fst where
  act ha h := by rw [ha.scope, h]
  beginCall _ _ _ _ h := h
  endCall hs h := (congrArg Scope.function? hs.scope).trans h
  beginLoop _ _ h := h
  endLoop h := h
  beginBody _ _ _ := rfl
  endBody _ h := h
  beginFile _ _ _ _ := rfl
  endFile h _ := h

theorem Course.scope_eq {env : Environment} {entry : List Stmt} {file? : Option String}
    {moments : List Moment} (h : Course env entry (.start file?) moments) {m : Moment}
    (hm : m ∈ moments) :
    m.now.scope.function? = (Pending.owner? m.pending).map Prod.fst :=
  (framed_scope env).of_course h rfl m hm

end P16
