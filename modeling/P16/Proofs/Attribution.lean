import P16.Proofs.FailurePlaces
import P16.Proofs.KeptFunctions
import P16.Proofs.Termination

/-!
# Diagnostics name the file they are about

A diagnostic names the file whose tree holds the statement that failed. This is the file that is
being lowered, but statements are not lowered where they stand: the body of a function waits for a
call, which may come from another file, and files are entered in the middle of others.

`Moment.Placed` says that at every moment the current statements stand in the file that the scope
names, and that the body of every function stands in the file which the function remembers. `Traces`
leads each new diagnostic back to the moment and to the statement that raised it.
-/

namespace P16

open Compilation

namespace Stmt

def inner : Stmt → List Stmt
  | define _ _ _ body _ => body
  | whileLoop _ body _ => body
  | _ => []

/-- The statement stands in the tree, at any depth. -/
inductive Within (tree : List Stmt) : Stmt → Prop where
  | top {s : Stmt} (h : s ∈ tree) : Within tree s
  | inner {s t : Stmt} (h : Within tree s) (ht : t ∈ s.inner) : Within tree t

end Stmt

/-- The sources of a run, by name and tree: the modules of the entry file, and the files from which
modules have been loaded. -/
inductive IsSource (env : Environment) (file? : Option String) (modules : List Module)
    (events : List Event) : Option String → List Stmt → Prop where
  | entry {m : Module} (hm : m ∈ modules) : IsSource env file? modules events file? m.body
  | loaded {dotted file : String} {m : Module} (hl : .load dotted ∈ events)
      (hs : env.sources.find? (.ofDotted dotted) = some (file, .ok m)) :
      IsSource env file? modules events (some file) m.body

section placed

variable (sources : Option String → List Stmt → Prop)

/-- All statements of `code` stand in sources of that name. -/
def StandIn (name : Option String) (code : List Stmt) : Prop :=
  ∀ s ∈ code, ∃ tree, sources name tree ∧ Stmt.Within tree s

/-- The statements of all that is pending stand in the sources in which they are lowered, where
`name` is the file that is being lowered now. -/
def Pending.Placed (entry : List Stmt) : Option String → List Pending → Prop
  | name, [] => StandIn sources name entry
  | name, loop _ _ code :: rest => StandIn sources name code ∧ Placed entry name rest
  | name, call .. :: rest => Placed entry name rest
  | name, body _ f before :: rest =>
    StandIn sources name f.definition.body ∧ Placed entry before.scope.file? rest
  | name, file before m :: rest =>
    StandIn sources name m.body ∧ Placed entry before.scope.file? rest

structure Moment.Placed (entry : List Stmt) (m : Moment) : Prop where
  functions : ∀ key f, m.now.function? key = some f →
    StandIn sources f.file? f.definition.body
  pending : Pending.Placed sources entry m.now.scope.file? m.pending

variable {sources} {name : Option String} {stmts entry : List Stmt} {s : Stmt}

theorem StandIn.of_tree {tree : List Stmt} (h : sources name tree) : StandIn sources name tree :=
  fun _ hs => ⟨tree, h, .top hs⟩

theorem StandIn.inner (h : StandIn sources name stmts) (hs : s ∈ stmts) :
    StandIn sources name s.inner := by
  intro t ht
  obtain ⟨tree, htree, hwithin⟩ := h s hs
  exact ⟨tree, htree, .inner hwithin ht⟩

theorem Pending.Placed.code {pending : List Pending}
    (h : Pending.Placed sources entry name pending) :
    StandIn sources name (Pending.code entry pending) := by
  induction pending generalizing name with
  | nil => exact h
  | cons p rest ih =>
      cases p with
      | call key f arguments results => exact ih h
      | _ => exact h.1

theorem Moment.Placed.code {m : Moment} (h : m.Placed sources entry) :
    StandIn sources m.now.scope.file? (m.code entry) :=
  h.pending.code

section step

variable {env : Environment} {m m' : Moment}

theorem Step.placed (hr : env.registry.AddsNoFunction) (h : Step env entry m m')
    (hloaded : ∀ dotted file loaded, .load dotted ∈ m'.now.events →
      env.sources.find? (.ofDotted dotted) = some (file, .ok loaded) →
        sources (some file) loaded.body)
    (hm : m.Placed sources entry) : m'.Placed sources entry := by
  constructor
  case functions =>
      intro key f hf
      obtain ⟨old?, hold, hchange⟩ := h.change_to hr hf
      cases hchange with
      | same => exact hm.functions key f (function?_eq_some.mpr hold)
      | provided hnone _ => cases hnone
      | declared _ _ hmem => exact hm.code.inner hmem
      | @begun g _ => exact hm.functions key g (function?_eq_some.mpr hold)
      | @fixed g _ _ _ => exact hm.functions key g (function?_eq_some.mpr hold)
  case pending =>
      have hpending := hm.pending
      cases h with
      | act ha =>
          rw [← ha.scope] at hpending
          exact hpending
      | beginCall _ _ _ _ _ _ => exact hpending
      | endCall _ hs =>
          rw [← hs.scope] at hpending
          exact hpending
      | beginLoop hmem _ => exact ⟨hm.code.inner hmem, hpending⟩
      | endLoop => exact hpending.2
      | beginBody hf _ => exact ⟨hm.functions _ _ hf, hpending⟩
      | endBody => exact hpending.2
      | beginFile _ _ hs => exact ⟨.of_tree (hloaded _ _ _ List.mem_cons_self hs), hpending⟩
      | endFile => exact hpending.2

end step

end placed

section raised

/-- Lowering the statement, or one name of an import, fails in the state `c`, and the diagnostic
tells of it. -/
inductive Raises (env : Environment) (c : Compilation) : Stmt → Diagnostic → Prop where
  | stmt {s : Stmt} {failure : Failure} {depth : Nat} {c' : Compilation}
      (h : LowerM.stmt env (LowerM.body env depth) s c = .error failure c') :
      Raises env c s ⟨failure, c.scope.file?⟩
  | importName {names : List ImportName} {span : Span} {name : ImportName} {failure : Failure}
      {depth : Nat} {c' : Compilation} (hn : name ∈ names)
      (h : LowerM.importName env (LowerM.body env depth) name c = .error failure c') :
      Raises env c (.importNames names span) ⟨failure, c.scope.file?⟩

/-- What leads from `m` to `m'` raises all diagnostics that are new at `m'`. -/
structure Traces (env : Environment) (entry : List Stmt) (m m' : Moment) : Prop where
  passes : Passes env entry m m'
  raised : ∀ d ∈ m'.now.diagnostics, d ∈ m.now.diagnostics ∨ ∃ mid s, Passes env entry m mid ∧
    Passes env entry mid m' ∧ s ∈ mid.code entry ∧ Raises env mid.now s d

variable {env : Environment} {entry : List Stmt} {m m₁ m' : Moment} {c c' : Compilation}
  {pending : List Pending} {s : Stmt}

theorem Raises.file?_eq {d : Diagnostic} (h : Raises env c s d) : d.file? = c.scope.file? := by
  cases h <;> rfl

theorem Raises.covers {d : Diagnostic} (h : Raises env c s d) :
    (Node.stmt s).Covers d.failure.span := by
  cases h with
  | stmt h => exact LowerM.stmt_failsAt env _ s c _ _ h
  | @importName names span name failure depth c' hn h =>
      have hspan : failure.span = name.span := LowerM.importName_failsAt env _ name c _ _ h
      rw [hspan]
      exact .of_part (List.mem_map_of_mem hn) .self

theorem Traces.refl (m : Moment) : Traces env entry m m :=
  ⟨.refl m, fun _ hd => .inl hd⟩

theorem Traces.trans (h : Traces env entry m m₁) (g : Traces env entry m₁ m') :
    Traces env entry m m' := by
  refine ⟨h.passes.trans g.passes, fun d hd => ?_⟩
  rcases g.raised d hd with hold | ⟨mid, s, hbefore, hafter, hs⟩
  · rcases h.raised d hold with hold | ⟨mid, s, hbefore, hafter, hs⟩
    · exact .inl hold
    · exact .inr ⟨mid, s, hbefore, hafter.trans g.passes, hs⟩
  · exact .inr ⟨mid, s, h.passes.trans hbefore, hafter, hs⟩

theorem Traces.of_step (h : Step env entry m m') (hd : m'.now.diagnostics = m.now.diagnostics) :
    Traces env entry m m' :=
  ⟨(Passes.refl m).tail h, fun _ hmem => .inl (hd ▸ hmem)⟩

theorem Traces.reporting {act : LowerM Unit} (hs : s ∈ Pending.code entry pending)
    (hact : act.Meets c
      (fun c' => c'.scope = c.scope ∧ Traces env entry ⟨c, pending⟩ ⟨c', pending⟩)
      fun _ c' => c'.scope = c.scope ∧ Traces env entry ⟨c, pending⟩ ⟨c', pending⟩)
    (hraises : ∀ failure c', act c = .error failure c' →
      Raises env c s ⟨failure, c.scope.file?⟩) :
    Traces env entry ⟨c, pending⟩ ⟨LowerM.reporting act c, pending⟩ := by
  unfold LowerM.reporting
  cases he : act c with
  | ok _ c' => exact (hact.ok he).2
  | error failure c' =>
      obtain ⟨hscope, hbefore⟩ := hact.error he
      have hreport : Step env entry ⟨c', pending⟩ ⟨c'.report failure, pending⟩ :=
        .act (.report failure)
      have hpasses := hbefore.passes.tail hreport
      refine ⟨hpasses, fun d hd => ?_⟩
      rcases Array.mem_push.mp hd with hold | rfl
      · rcases hbefore.raised d hold with hold | ⟨mid, t, hto, hfrom, ht⟩
        · exact .inl hold
        · exact .inr ⟨mid, t, hto, hfrom.tail hreport, ht⟩
      · rw [hscope]
        exact .inr ⟨⟨c, pending⟩, s, .refl _, hpasses, hs, hraises failure c' he⟩

section body

variable {depth : Nat}
  (hbody : ∀ stmts c pending, stmts ⊆ Pending.code entry pending →
    Traces env entry ⟨c, pending⟩ ⟨LowerM.body env depth stmts c, pending⟩)
include hbody

theorem LowerM.ensureEmitted_traces (key : FunctionKey) (c : Compilation)
    (pending : List Pending) :
    Traces env entry ⟨c, pending⟩ ⟨c.ensureEmitted (body env depth) key, pending⟩ := by
  unfold ensureEmitted
  split
  · exact .refl _
  · rename_i f hf
    split
    · exact .refl _
    · rename_i he
      have hopen : Traces env entry ⟨c, pending⟩
          ⟨c.openBody key f, .body key f c :: pending⟩ :=
        .of_step (.beginBody hf (by simpa using he)) rfl
      have hinner := hbody f.definition.body (c.openBody key f) (.body key f c :: pending)
        (List.Subset.refl _)
      exact (hopen.trans hinner).trans (.of_step .endBody rfl)

theorem Brings.traces {name : ImportName} (h : Brings env (LowerM.body env depth) c name c')
    (hi : Imports (Pending.code entry pending) name.path.text) :
    Traces env entry ⟨c, pending⟩ ⟨c', pending⟩ := by
  cases h with
  | nothing _ => exact .refl _
  | begun hd hs => exact .of_step (.act (.beginImport hi hd hs)) (c.diagnostics_begun env _)
  | @loaded file loaded hd hs =>
      let dotted := name.path.text
      have hprovided : env.Provides name.path.text := .inr (by simp [hs])
      have hbegin : Traces env entry ⟨c, pending⟩ ⟨c.begun env dotted, pending⟩ :=
        .of_step (.act (.beginImport hi hd hprovided)) (c.diagnostics_begun env _)
      have hmarked : (c.begun env dotted).imported.head? = some dotted := by
        rw [imported_begun]
        rfl
      have hopen : Traces env entry ⟨c.begun env dotted, pending⟩
          ⟨(c.begun env dotted).openModule dotted file,
            .file (c.begun env dotted) loaded :: pending⟩ :=
        .of_step (.beginFile hi hmarked hs) rfl
      have hinner := hbody loaded.body ((c.begun env dotted).openModule dotted file)
        (.file (c.begun env dotted) loaded :: pending) (List.Subset.refl _)
      exact ((hbegin.trans hopen).trans hinner).trans (.of_step .endFile rfl)

theorem LowerM.importNames_traces {all names : List ImportName} {span : Span}
    (hs : .importNames all span ∈ Pending.code entry pending) (hn : names ⊆ all)
    (c : Compilation) :
    Traces env entry ⟨c, pending⟩ ⟨importNames env (body env depth) names c, pending⟩ := by
  unfold importNames
  induction names generalizing c with
  | nil => exact .refl _
  | cons name names ih =>
      have hname : name ∈ all := hn List.mem_cons_self
      have hi : Imports (Pending.code entry pending) name.path.text :=
        ⟨all, span, hs, name, hname, rfl⟩
      have hfirst : Traces env entry ⟨c, pending⟩
          ⟨reporting (importName env (body env depth) name) c, pending⟩ := by
        refine .reporting hs ((importName_brings env _ c name).imp fun c' h => ?_)
          fun failure c' he => .importName hname he
        exact ⟨(h.lowers (body_lowers env depth) hi).scope, h.traces hbody hi⟩
      exact hfirst.trans (ih (List.Subset.trans (List.subset_cons_self _ _) hn) _)

theorem Outcome.traces (h : Outcome env (LowerM.body env depth) c s c')
    (hs : s ∈ Pending.code entry pending)
    (hloop : ∀ test stmts span, s = .whileLoop test stmts span →
      ∀ c pending, stmts ⊆ Pending.code entry pending →
        Traces env entry ⟨c, pending⟩ ⟨LowerM.block env (LowerM.body env depth) stmts c, pending⟩) :
    Traces env entry ⟨c, pending⟩ ⟨c', pending⟩ := by
  cases h with
  | nothing => exact .refl _
  | act h hd =>
      have hcode : [s] ⊆ Pending.code entry pending := by simpa using hs
      exact .of_step (.act (h.mono hcode)) hd
  | @call _ c₁ key f site targets arguments results hc hk hf hn ha hr hset =>
      have hbegin : Traces env entry ⟨c, pending⟩ ⟨c, .call key f arguments results :: pending⟩ :=
        .of_step (.beginCall ⟨s, hs, hc⟩ hk hf hn ha hr) rfl
      have hemitted := LowerM.ensureEmitted_traces hbody key c
        (.call key f arguments results :: pending)
      have hlabel := LowerM.label_mem_ensureEmitted (LowerM.body_lowers env depth) hf
      exact (hbegin.trans hemitted).trans (.of_step (.endCall hlabel hset) hset.diagnostics)
  | wrongCount _ _ _ => exact LowerM.ensureEmitted_traces hbody _ c pending
  | @exported d hd =>
      have hdeclare : Traces env entry ⟨c, pending⟩ ⟨c.declare d, pending⟩ :=
        .of_step (.act (.declare hs hd)) rfl
      exact hdeclare.trans (LowerM.ensureEmitted_traces hbody _ _ pending)
  | @loop e stmts span test ht =>
      let path := c.store.current
      have hopen : Traces env entry ⟨c, pending⟩
          ⟨c.openLoop test, .loop path c.nextLoop stmts :: pending⟩ :=
        .of_step (.beginLoop hs ht) rfl
      have hinner := hloop _ _ _ rfl (c.openLoop test) (.loop path c.nextLoop stmts :: pending)
        (List.Subset.refl _)
      exact (hopen.trans hinner).trans (.of_step .endLoop rfl)
  | imports names span => exact LowerM.importNames_traces hbody hs (List.Subset.refl _) c

theorem LowerM.block_traces (stmts : List Stmt) (c : Compilation) (pending : List Pending)
    (hs : stmts ⊆ Pending.code entry pending) :
    Traces env entry ⟨c, pending⟩ ⟨block env (body env depth) stmts c, pending⟩ := by
  induction stmts using Stmt.block_induction generalizing c pending with
  | nil =>
      rw [block]
      exact .refl _
  | cons s rest hloop ih =>
      rw [block]
      have hmem : s ∈ Pending.code entry pending := hs List.mem_cons_self
      have hfirst : Traces env entry ⟨c, pending⟩
          ⟨reporting (stmt env (body env depth) s) c, pending⟩ := by
        refine .reporting hmem ((stmt_outcome env _ c s).imp fun c' h => ?_)
          fun failure c' he => .stmt he
        have hlowers := h.lowers (body_lowers env depth) hmem
          fun _ stmts _ _ => block_lowers (body_lowers env depth) stmts
        exact ⟨hlowers.scope, h.traces hbody hmem hloop⟩
      exact hfirst.trans (ih _ _ (List.Subset.trans (List.subset_cons_self _ _) hs))

end body

theorem LowerM.body_traces (env : Environment) (depth : Nat) (stmts : List Stmt) (c : Compilation)
    (pending : List Pending) (hs : stmts ⊆ Pending.code entry pending) :
    Traces env entry ⟨c, pending⟩ ⟨body env depth stmts c, pending⟩ := by
  induction depth generalizing stmts c pending with
  | zero => exact .refl _
  | succ depth ih => exact block_traces ih stmts c pending hs

theorem compileModules_traces (env : Environment) (file? : Option String) (modules : List Module) :
    Traces env (modules.flatMap Module.body) (.start file?)
      ⟨compileModules env file? modules, []⟩ := by
  have hall (rest : List Module) (c : Compilation) (hrest : rest ⊆ modules) :
      Traces env (modules.flatMap Module.body) ⟨c, []⟩
        ⟨rest.foldl (fun c m => c.addModule env m) c, []⟩ := by
    induction rest generalizing c with
    | nil => exact .refl _
    | cons m rest ih =>
        have hcode : m.body ⊆ modules.flatMap Module.body :=
          fun s hs => List.mem_flatMap.mpr ⟨m, hrest List.mem_cons_self, hs⟩
        have hfirst := LowerM.body_traces env (c.depthBound env m.body) m.body c [] hcode
        exact hfirst.trans (ih _ (List.Subset.trans (List.subset_cons_self _ _) hrest))
  exact hall modules (.start file?) (List.Subset.refl _)

end raised

section run

variable {env : Environment} {file? : Option String} {modules : List Module} {m m' : Moment}
  {entry : List Stmt}

theorem Passes.events_suffix (h : Passes env entry m m') : m.now.events <:+ m'.now.events := by
  obtain ⟨passed, hcourse⟩ := h
  have hall : ∀ later ∈ m' :: passed, m.now.events <:+ later.now.events :=
    hcourse.forall_mem List.suffix_rfl fun _ _ hs hstep => hs.trans hstep.events_suffix
  exact hall m' List.mem_cons_self

/-- At every moment of a run that ends with the record `events`, statements are lowered under the
name of their source. -/
theorem Passes.placed (hr : env.registry.AddsNoFunction)
    (h : Passes env (modules.flatMap Module.body) (.start file?) m) {events : List Event}
    (he : m.now.events ⊆ events) :
    m.Placed (IsSource env file? modules events) (modules.flatMap Module.body) := by
  have hstart : (Moment.start file?).Placed (IsSource env file? modules events)
      (modules.flatMap Module.body) := by
    constructor
    · intro key f hf
      have hnone := Store.lookup?_start key.path key.name
      cases hnone.symm.trans (function?_eq_some.mp hf)
    · intro s hs
      obtain ⟨loaded, hmem, hs⟩ := List.mem_flatMap.mp hs
      exact ⟨loaded.body, .entry hmem, .top hs⟩
  obtain ⟨passed, hcourse⟩ := h
  have hall : ∀ later ∈ m :: passed, later.now.events ⊆ events →
      later.Placed (IsSource env file? modules events) (modules.flatMap Module.body) := by
    refine hcourse.forall_mem (fun _ => hstart) fun m m' hm hs hnew => ?_
    have hold : m.now.events ⊆ events := List.Subset.trans hs.events_suffix.subset hnew
    exact hs.placed hr (fun _ _ _ hl hfound => .loaded (hnew hl) hfound) (hm hold)
  exact hall m List.mem_cons_self he

end run

/-- Every diagnostic of a run leads back to a moment of the run and to a statement that failed then.
The statement stands in the tree of a source, at whatever depth, the diagnostic is at the place of
something in the statement, and the file it names is that source. -/
theorem diagnostics_name_their_source (env : Environment) (hr : env.registry.AddsNoFunction)
    (file? : Option String) (modules : List Module) (d : Diagnostic)
    (hd : d ∈ (compileModules env file? modules).diagnostics) :
    ∃ tree s node m,
      IsSource env file? modules (compileModules env file? modules).events d.file? tree ∧
      Stmt.Within tree s ∧ (Node.stmt s).Contains node ∧ node.span = d.failure.span ∧
      Passes env (modules.flatMap Module.body) (.start file?) m ∧
      Passes env (modules.flatMap Module.body) m ⟨compileModules env file? modules, []⟩ ∧
      s ∈ m.code (modules.flatMap Module.body) ∧ Raises env m.now s d := by
  have htraces := compileModules_traces env file? modules
  rcases htraces.raised d hd with hnone | ⟨m, s, hto, hfrom, hs, hraises⟩
  · cases Array.not_mem_empty _ hnone
  have hplaced := hto.placed hr hfrom.events_suffix.subset
  obtain ⟨tree, htree, hwithin⟩ := hplaced.code s hs
  obtain ⟨node, hnode, hspan⟩ := hraises.covers
  rw [← hraises.file?_eq] at htree
  exact ⟨tree, s, node, m, htree, hwithin, hnode, hspan, hto, hfrom, hs, hraises⟩

/-- `register = name`, with the name at a line. -/
def assignsAt (register name : String) (line : Nat) : Stmt :=
  .assign [.name ⟨register, default⟩] (.name ⟨name, ⟨0, 0, line, 0⟩⟩) default

/-- `import font`, and below it `def draw(): A = glyph`. -/
def screenModule : Module :=
  ⟨[importOf "font", .define ⟨"draw", default⟩ [] [] [assignsAt "A" "glyph" 4] default], default⟩

/-- `import screen`, and below it `@export def load(): B = table`. -/
def fontModule : Module :=
  ⟨[importOf "screen", .define ⟨"load", default⟩ [] [.name ⟨"export", default⟩]
    [assignsAt "B" "table" 9] default], default⟩

/-- `screen` and `font` import each other, and both hold a function with an undefined name. -/
def besideScreen : Environment :=
  ⟨⟨[.directory "."], ⟨[], [(["screen.p16"], .ok screenModule),
    (["font.p16"], .ok fontModule)], []⟩⟩, .empty⟩

/-- `import screen`, and below it `screen.draw()`. -/
def drawsModule : Module :=
  ⟨[importOf "screen", .expr (.call (.member (.name ⟨"screen", default⟩) ⟨"draw", default⟩ default)
    [] [] default) default], default⟩

def screenReach : Reach :=
  ⟨{⟨⟨["screen"]⟩, "draw"⟩, ⟨⟨["font"]⟩, "load"⟩}, {"screen", "font"}⟩

theorem addsNoFunction_besideScreen : besideScreen.registry.AddsNoFunction :=
  Registry.onlyBundled_empty.addsNoFunction

theorem closed_screenReach : screenReach.Closed besideScreen := by
  refine .of_files addsNoFunction_besideScreen fun dotted hdotted file m hs => ?_
  rcases Finset.mem_insert.mp hdotted with rfl | hdotted
  · have hfound : besideScreen.sources.find? (.ofDotted "screen") =
        some ("./screen.p16", .ok screenModule) := by
      with_unfolding_all rfl
    cases hfound.symm.trans hs
    decide +kernel
  · cases Finset.mem_singleton.mp hdotted
    have hfound : besideScreen.sources.find? (.ofDotted "font") =
        some ("./font.p16", .ok fontModule) := by
      with_unfolding_all rfl
    cases hfound.symm.trans hs
    decide +kernel

theorem compile_drawsModule : compileModules besideScreen (some "main.p16") [drawsModule] =
    LowerM.body besideScreen 5 drawsModule.body (.start (some "main.p16")) := by
  have hcovers : screenReach.Covers drawsModule.body (.start (some "main.p16")) :=
    .start _ (by decide +kernel) (by decide +kernel)
  exact compileModules_eq_body addsNoFunction_besideScreen closed_screenReach hcovers
    (by decide +kernel)

/-- The name in `screen.draw` that is not defined. -/
def glyphUndefined : Diagnostic :=
  ⟨⟨.undefinedName "glyph", ⟨0, 0, 4, 0⟩⟩, some "./screen.p16"⟩

/-- The name in `font.load` that is not defined. -/
def tableUndefined : Diagnostic :=
  ⟨⟨.undefinedName "table", ⟨0, 0, 9, 0⟩⟩, some "./font.p16"⟩

/-- The call in the entry file writes the body of `screen.draw`, the import writes the exported body
of `font.load`, and each of the two undefined names is reported in its own file. -/
theorem diagnostics_name_their_source_circular :
    besideScreen.registry.AddsNoFunction ∧
      glyphUndefined ∈ (compileModules besideScreen (some "main.p16") [drawsModule]).diagnostics ∧
      tableUndefined ∈ (compileModules besideScreen (some "main.p16") [drawsModule]).diagnostics ∧
      (∃ tree s, IsSource besideScreen (some "main.p16") [drawsModule]
          (compileModules besideScreen (some "main.p16") [drawsModule]).events
          (some "./screen.p16") tree ∧
        Stmt.Within tree s ∧ (Node.stmt s).Covers ⟨0, 0, 4, 0⟩) ∧
      ∃ tree s, IsSource besideScreen (some "main.p16") [drawsModule]
          (compileModules besideScreen (some "main.p16") [drawsModule]).events
          (some "./font.p16") tree ∧
        Stmt.Within tree s ∧ (Node.stmt s).Covers ⟨0, 0, 9, 0⟩ := by
  have hr := addsNoFunction_besideScreen
  have hglyph : glyphUndefined ∈
      (compileModules besideScreen (some "main.p16") [drawsModule]).diagnostics := by
    rw [compile_drawsModule]
    decide +kernel
  have htable : tableUndefined ∈
      (compileModules besideScreen (some "main.p16") [drawsModule]).diagnostics := by
    rw [compile_drawsModule]
    decide +kernel
  obtain ⟨tree, s, node, m, htree, hwithin, hnode, hspan, -⟩ := diagnostics_name_their_source
    besideScreen hr (some "main.p16") [drawsModule] glyphUndefined hglyph
  obtain ⟨tree', s', node', m', htree', hwithin', hnode', hspan', -⟩ :=
    diagnostics_name_their_source besideScreen hr (some "main.p16") [drawsModule] tableUndefined
      htable
  exact ⟨hr, hglyph, htable, ⟨tree, s, htree, hwithin, node, hnode, hspan⟩,
    tree', s', htree', hwithin', node', hnode', hspan'⟩

end P16
