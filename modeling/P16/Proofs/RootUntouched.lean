import P16.Proofs.ImportedOnce
import P16.Proofs.KeptFunctions
import P16.Proofs.ParsedNames

/-!
# Imports leave the entry program's names alone

The root module holds the names of the entry program. Nothing that is lowered because of an import
touches it. A bare name stands for something in the current module, a dotted name for something in
a module below the root, and every function is at home in the module that holds it; so lowering that
has left the root (`Compilation.Away`) does not come back to it, however far calls and imports lead.

Extensions have to keep to the module in which they are run (`Registry.StaysInModule`). One that is
registered under the empty name is run in the root, but no name in a parsed program is empty.
-/

namespace P16

open Compilation

/-- Extensions define constants, hooks and settings in the module in which they are run, and they
change nothing else in the store. -/
structure Registry.StaysInModule (r : Registry) : Prop where
  addsNoFunction : r.AddsNoFunction
  others : r.Each fun t t' =>
    ∀ path, path ≠ t.store.current → t'.store.contents path = t.store.contents path

theorem Registry.OnlyBundled.staysInModule {r : Registry} (hr : r.OnlyBundled) :
    r.StaysInModule :=
  ⟨hr.addsNoFunction, hr.each fun _ _ _ h => h.others.contents⟩

theorem Registry.StaysInModule.install {r : Registry} (hr : r.StaysInModule) {name : String}
    {e : Extension} (he : r.find? name = some e) (t : Target) {path : ModulePath}
    (hne : path ≠ t.store.current) :
    ((e.install name).finish t).store.contents path = t.store.contents path := by
  have hdefine := e.define_keepsOthers name t.store
  unfold Extension.install
  cases hs : e.startUp? with
  | none => exact hdefine.contents path hne
  | some startUp =>
      have hstart := hr.others.startUps he hs { t with store := e.define name t.store }
      exact (hstart path (hdefine.current ▸ hne)).trans (hdefine.contents path hne)

section paths

theorem splitChars_ne_nil (separator : Char) (cs : List Char) : splitChars separator cs ≠ [] := by
  cases cs with
  | nil => simp [splitChars]
  | cons c cs =>
      unfold splitChars
      split
      · simp
      · split <;> simp

theorem ModulePath.ofDotted_ne_root {dotted : String} (h : dotted ≠ "") :
    ModulePath.ofDotted dotted ≠ .root := by
  have hsplit := splitChars_ne_nil '.' dotted.toList
  have hempty : dotted.isEmpty = false := by simpa using h
  unfold ofDotted root
  rw [hempty]
  simpa [splitText] using hsplit

theorem Sources.ne_root_of_find? {s : Sources} {path : ModulePath}
    {found : String × Except LoadFault Module} (h : s.find? path = some found) : path ≠ .root := by
  rintro rfl
  cases h

theorem Expr.segments_ne_nil_of_toDottedName? {e : Expr} {name : DottedName}
    (h : e.toDottedName? = some name) : name.segments ≠ [] := by
  cases e with
  | name ident =>
      cases h
      simp [DottedName.ofIdent]
  | member value attr span =>
      obtain ⟨front, -, rfl⟩ := Option.map_eq_some_iff.mp h
      simp [DottedName.snoc]
  | _ => cases h

theorem splitMember_ne_root {value : Expr} {attr : Ident} {span : Span} {path : ModulePath}
    {name : String} (h : splitMember (.member value attr span) = .ok (path, name)) :
    path ≠ .root := by
  unfold splitMember at h
  cases hv : value.toDottedName? with
  | none => simp [Expr.toDottedName?, hv] at h
  | some front =>
      have hfront := Expr.segments_ne_nil_of_toDottedName? hv
      simp only [Expr.toDottedName?, hv, Option.map_some, DottedName.snoc, Except.ok.injEq,
        Prod.mk.injEq] at h
      rw [← h.1]
      simpa [ModulePath.root] using hfront

theorem Compilation.callee_ne_root {c : Compilation} {e : Expr} {key : FunctionKey}
    (h : c.callee e = .ok key) (hc : c.store.current ≠ .root) : key.path ≠ .root := by
  cases e with
  | name ident =>
      cases h
      exact hc
  | member value attr span =>
      obtain ⟨⟨path, name⟩, hsplit, hkey⟩ := exists_of_bind_eq_ok h
      cases hkey
      exact splitMember_ne_root hsplit
  | _ => cases h

end paths

namespace Compilation

/-- Every function is at home in the module that holds it. -/
def Homed (c : Compilation) : Prop := ∀ key f, c.function? key = some f → f.path = key.path

/-- Nothing here belongs to the root: neither the current module nor the function whose body is
being lowered. -/
structure Away (c : Compilation) : Prop where
  current : c.store.current ≠ .root
  function : ∀ key, c.scope.function? = some key → key.path ≠ .root
  homed : c.Homed

/-- The symbols and the settings of the entry program are the same, unless an extension has been
installed in the root. -/
structure SameRoot (env : Environment) (c c' : Compilation) : Prop where
  imported : c.imported ⊆ c'.imported
  contents : env.registry.find? "" = none ∨ "" ∉ c'.imported →
    c'.store.contents .root = c.store.contents .root

theorem Homed.start (file? : Option String) : (Compilation.start file?).Homed := by
  intro key f hf
  have hnone := Store.lookup?_start key.path key.name
  cases hnone.symm.trans (function?_eq_some.mp hf)

namespace SameRoot

variable {env : Environment} {c c' c₁ c₂ : Compilation}

theorem of_contents (h : c'.store.contents .root = c.store.contents .root)
    (hi : c'.imported = c.imported) : SameRoot env c c' :=
  ⟨hi ▸ List.Subset.refl _, fun _ => h⟩

theorem refl (c : Compilation) : SameRoot env c c := of_contents rfl rfl

theorem trans (h : SameRoot env c c₁) (g : SameRoot env c₁ c₂) : SameRoot env c c₂ := by
  refine ⟨List.Subset.trans h.imported g.imported, fun hspared => ?_⟩
  have hfirst := h.contents (hspared.imp_right fun hnot hmem => hnot (g.imported hmem))
  exact (g.contents hspared).trans hfirst

end SameRoot

end Compilation

section homed

variable {env : Environment} (hr : env.registry.AddsNoFunction) {entry code : List Stmt}
  {m m' : Moment} {c c' : Compilation}
include hr

theorem Step.homed (h : Step env entry m m') (hm : m.now.Homed) : m'.now.Homed := by
  intro key f hf
  obtain ⟨old?, hold, hchange⟩ := h.change_to hr hf
  cases hchange with
  | same => exact hm key f (function?_eq_some.mpr hold)
  | provided hnone _ => cases hnone
  | declared hd hk => exact congrArg FunctionKey.path hk.symm
  | @begun g hp => exact hm key g (function?_eq_some.mpr hold)
  | @fixed g n hn hfix => exact hm key g (function?_eq_some.mpr hold)

theorem Course.homed {file? : Option String} {moments : List Moment}
    (h : Course env entry (.start file?) moments) : ∀ m ∈ moments, m.now.Homed :=
  h.forall_mem (.start file?) fun _ _ hm hs => hs.homed hr hm

theorem Lowers.homed (h : Lowers env code c c') (hc : c.Homed) : c'.Homed := by
  have hpasses : Passes env code ⟨c, []⟩ ⟨c', []⟩ := h.passes (List.Subset.refl _)
  obtain ⟨passed, hcourse⟩ := hpasses
  exact hcourse.forall_mem hc (fun _ _ hm hs => hs.homed hr hm) _ List.mem_cons_self

theorem Lowers.away (h : Lowers env code c c') (hc : c.Away) : c'.Away := by
  constructor
  case current =>
      rw [h.current]
      exact hc.current
  case function =>
      rw [h.scope]
      exact hc.function
  case homed => exact h.homed hr hc.homed

theorem Compilation.Away.openBody {key : FunctionKey} {f : FunctionSymbol} (hc : c.Homed)
    (hf : c.function? key = some f) (he : f.emitted = false) (hk : key.path ≠ .root) :
    (c.openBody key f).Away := by
  have hstep : Step env [] ⟨c, []⟩ ⟨c.openBody key f, [.body key f c]⟩ := .beginBody hf he
  constructor
  case current =>
      change f.path ≠ .root
      rw [hc key f hf]
      exact hk
  case function =>
      intro other hother
      cases hother
      exact hk
  case homed => exact hstep.homed hr hc

end homed

section root

variable {env : Environment} {c c' : Compilation}

theorem Compilation.contents_afterHook {act : HookM Unit} {path : ModulePath} (hp : path ≠ .root)
    (h : ∀ (t : Target) other, other ≠ t.store.current →
      (act.finish t).store.contents other = t.store.contents other) (c : Compilation) :
    (c.afterHook path act).store.contents .root = c.store.contents .root := by
  have hother := h ⟨c.program, c.store.enter path, c.notes⟩ .root hp.symm
  exact hother.trans (c.store.contents_enter path .root)

theorem Compilation.sameRoot_begun (hr : env.registry.StaysInModule) (dotted : String)
    (c : Compilation) : c.SameRoot env (c.begun env dotted) := by
  refine ⟨by simp, fun hspared => ?_⟩
  rw [imported_begun] at hspared
  unfold begun
  dsimp only
  cases he : env.registry.find? dotted with
  | none => rfl
  | some e =>
      have hne : dotted ≠ "" := by
        rintro rfl
        rcases hspared with hnone | hnot
        · cases hnone.symm.trans he
        · exact hnot List.mem_cons_self
      exact contents_afterHook (ModulePath.ofDotted_ne_root hne)
        (fun t other hother => hr.install he t hother) _

theorem Compilation.Settles.sameRoot {key : FunctionKey} {count : Nat}
    (h : c.Settles key count c') (hk : key.path ≠ .root) : c.SameRoot env c' := by
  refine .of_contents ?_ h.imported
  cases h with
  | agrees _ => rfl
  | fixes _ => exact Store.contents_updateFunction_of_ne _ _ _ _ _ hk.symm

theorem Acts.sameRoot (hr : env.registry.StaysInModule) {code : List Stmt}
    (h : Acts env code c c') (hc : c.Away) : c.SameRoot env c' := by
  cases h with
  | report failure => exact .of_contents rfl rfl
  | line h => exact .of_contents rfl rfl
  | number _ _ _ =>
      exact .of_contents ((defineNumbers_keepsOthers _ _).contents _ hc.current.symm) rfl
  | declare _ _ =>
      exact .of_contents ((Store.KeepsOthers.define _ _ _).contents _ hc.current.symm) rfl
  | giveBack _ hk _ hs =>
      exact (hs.sameRoot (hc.function _ hk)).trans (.of_contents rfl rfl)
  | @beginImport dotted _ _ _ => exact c.sameRoot_begun hr dotted
  | hook _ he _ hh _ _ =>
      refine .of_contents ?_ rfl
      exact contents_afterHook (callee_ne_root he hc.current)
        (fun t other hother => hr.others.hooks hh _ t other hother) c

section enter

variable {enter : Enter} (hr : env.registry.StaysInModule)
  (henter : ∀ stmts c, Lowers env stmts c (enter stmts c))
  (hroot : ∀ stmts c, Away c → c.SameRoot env (enter stmts c))
include hr hroot

theorem LowerM.ensureEmitted_sameRoot (hc : c.Homed) {key : FunctionKey} (hk : key.path ≠ .root) :
    c.SameRoot env (c.ensureEmitted enter key) := by
  unfold ensureEmitted
  cases hf : c.function? key with
  | none => exact .refl c
  | some f =>
      dsimp only
      split
      · exact .refl c
      rename_i he
      have hopen : c.SameRoot env (c.openBody key f) := by
        refine .of_contents ((Store.contents_enter _ _ _).trans ?_) rfl
        exact Store.contents_updateFunction_of_ne _ _ _ _ _ hk.symm
      have hinner := hroot f.definition.body (c.openBody key f)
        (.openBody hr.addsNoFunction hc hf (by simpa using he) hk)
      have hclose : (enter f.definition.body (c.openBody key f)).SameRoot env
          (closeBody key c (enter f.definition.body (c.openBody key f))) := by
        refine .of_contents ((Store.contents_updateFunction_of_ne _ _ _ _ _ hk.symm).trans ?_) rfl
        exact Store.contents_enter _ _ _
      exact (hopen.trans hinner).trans hclose

theorem Brings.sameRoot {name : ImportName} (h : Brings env enter c name c') (hc : c.Homed) :
    c.SameRoot env c' := by
  cases h with
  | nothing _ => exact .refl c
  | begun _ _ => exact c.sameRoot_begun hr _
  | @loaded file m hd hs =>
      let begun := c.begun env name.path.text
      have hbegun : c.SameRoot env begun := c.sameRoot_begun hr _
      have hopen : begun.SameRoot env (begun.openModule name.path.text file) :=
        .of_contents (Store.contents_enter _ _ _) rfl
      have haway : (begun.openModule name.path.text file).Away := by
        constructor
        case current => exact Sources.ne_root_of_find? hs
        case function => exact nofun
        case homed =>
          have hact : Acts env [.importNames [name] name.span] c begun :=
            .beginImport (.single name) hd (.inr (by simp [hs]))
          have hhomed := (Lowers.act hact).homed hr.addsNoFunction hc
          intro key f hf
          apply hhomed key f
          rw [function?_eq_some] at hf ⊢
          exact (Store.lookup?_enter ..).symm.trans hf
      have hinner := hroot m.body _ haway
      exact ((hbegun.trans hopen).trans hinner).trans
        (.of_contents (Store.contents_enter _ _ _) rfl)

include henter

theorem LowerM.importNames_sameRoot (hc : c.Homed) (names : List ImportName) :
    c.SameRoot env (importNames env enter names c) := by
  unfold importNames
  induction names generalizing c with
  | nil => exact .refl c
  | cons name names ih =>
      have hfirst := ((importName_brings env enter c name).imp fun _ h =>
        And.intro (h.sameRoot hr hroot hc) (h.lowers henter (.single name))).reporting
          fun failure _ h => ⟨h.1.trans (.of_contents rfl rfl), h.2.trans (.act (.report failure))⟩
      exact hfirst.1.trans (ih (hfirst.2.homed hr.addsNoFunction hc))

theorem Outcome.sameRoot {s : Stmt} (h : Outcome env enter c s c') (hc : c.Away)
    (hloop : ∀ test body span, s = .whileLoop test body span →
      ∀ c, Away c → c.SameRoot env (LowerM.block env enter body c)) : c.SameRoot env c' := by
  cases h with
  | nothing => exact .refl c
  | act h _ => exact h.sameRoot hr hc
  | call _ hk _ _ _ _ hs =>
      have hne := callee_ne_root hk hc.current
      have hemitted := LowerM.ensureEmitted_sameRoot hr hroot hc.homed hne
      exact (hemitted.trans (hs.sameRoot hne)).trans (.of_contents rfl rfl)
  | wrongCount _ hk _ =>
      exact LowerM.ensureEmitted_sameRoot hr hroot hc.homed (callee_ne_root hk hc.current)
  | @exported d hd =>
      have hact : Acts env [.define d.name d.params d.decorators d.body d.span] c (c.declare d) :=
        .declare (List.mem_singleton_self _) hd
      have hdeclared := hact.sameRoot hr hc
      have hhomed := (Lowers.act hact).homed hr.addsNoFunction hc.homed
      exact hdeclared.trans (LowerM.ensureEmitted_sameRoot hr hroot hhomed hc.current)
  | @loop _ _ _ test ht =>
      have hopen : c.SameRoot env (c.openLoop test) := .of_contents rfl rfl
      have hbody := hloop _ _ _ rfl (c.openLoop test) ⟨hc.current, hc.function, hc.homed⟩
      exact (hopen.trans hbody).trans (.of_contents rfl rfl)
  | imports names span => exact LowerM.importNames_sameRoot hr henter hroot hc.homed names

theorem LowerM.block_sameRoot (stmts : List Stmt) (hc : c.Away) :
    c.SameRoot env (block env enter stmts c) := by
  induction stmts using Stmt.block_induction generalizing c with
  | nil =>
      rw [block]
      exact .refl c
  | cons s rest hloop ih =>
      rw [block]
      have hm : s ∈ s :: rest := List.mem_cons_self
      have hfirst := reporting_lowers c (stmt_lowers henter hm c)
      have hsame : c.SameRoot env (reporting (stmt env enter s) c) :=
        ((stmt_outcome env enter c s).imp fun _ h =>
          h.sameRoot hr henter hroot hc fun _ _ _ hs _ => hloop _ _ _ hs).reporting
            fun _ _ h => h.trans (.of_contents rfl rfl)
      exact hsame.trans (ih (hfirst.away hr.addsNoFunction hc))

end enter

theorem LowerM.body_sameRoot (hr : env.registry.StaysInModule) (depth : Nat) (stmts : List Stmt)
    (c : Compilation) (hc : c.Away) : c.SameRoot env (body env depth stmts c) := by
  induction depth generalizing stmts c with
  | zero => exact .refl c
  | succ depth ih => exact block_sameRoot hr (body_lowers env depth) ih stmts hc

end root

section parsed

/-- All code that is known at the moment is named by words, and so is what has been imported. -/
structure Moment.Named (entry : List Stmt) (m : Moment) : Prop where
  functions : ∀ key f, m.now.function? key = some f → Stmt.AllNamed f.definition.body
  codes : ∀ rest, rest <:+ m.pending → Stmt.AllNamed (Pending.code entry rest)
  imported : "" ∉ m.now.imported

variable {env : Environment} {entry code : List Stmt} {c c' : Compilation} {m m' : Moment}

theorem Acts.imported_cases (h : Acts env code c c') : c'.imported = c.imported ∨
    ∃ dotted, Imports code dotted ∧ c'.imported = dotted :: c.imported := by
  cases h with
  | giveBack _ _ _ hs => exact .inl hs.imported
  | @beginImport dotted hi _ _ => exact .inr ⟨dotted, hi, c.imported_begun env dotted⟩
  | _ => exact .inl rfl

theorem Imports.ne_empty {dotted : String} (h : Imports code dotted) (hcode : Stmt.AllNamed code) :
    dotted ≠ "" := by
  obtain ⟨names, span, hmem, name, hname, rfl⟩ := h
  have hnamed : name.path.Named := Stmt.allNamed_iff.mp hcode _ hmem name hname
  exact hnamed.text_ne_empty

theorem Step.named (hr : env.registry.AddsNoFunction)
    (hsources : ∃ files, env.sources.tree = .ofFiles files) (h : Step env entry m m')
    (hm : m.Named entry) : m'.Named entry := by
  have hcode : Stmt.AllNamed (m.code entry) := hm.codes m.pending List.suffix_rfl
  have hpush {p : Pending} (hp : Stmt.AllNamed (Pending.code entry (p :: m.pending))) :
      ∀ rest, rest <:+ p :: m.pending → Stmt.AllNamed (Pending.code entry rest) := by
    intro rest hs
    rcases List.suffix_cons_iff.mp hs with rfl | hs
    · exact hp
    · exact hm.codes rest hs
  constructor
  case functions =>
      intro key f hf
      obtain ⟨old?, hold, hchange⟩ := h.change_to hr hf
      cases hchange with
      | same => exact hm.functions key f (function?_eq_some.mpr hold)
      | provided hnone _ => cases hnone
      | declared _ _ hmem => exact (Stmt.allNamed_iff.mp hcode _ hmem).2
      | @begun g _ => exact hm.functions key g (function?_eq_some.mpr hold)
      | @fixed g _ _ _ => exact hm.functions key g (function?_eq_some.mpr hold)
  case codes =>
      cases h with
      | act _ => exact hm.codes
      | beginCall _ _ _ _ _ _ => exact hpush hcode
      | beginLoop hmem _ => exact hpush (Stmt.allNamed_iff.mp hcode _ hmem)
      | beginBody hf _ => exact hpush (hm.functions _ _ hf)
      | beginFile _ _ hs => exact hpush (Sources.named_of_find? hsources hs)
      | _ => exact fun rest hs => hm.codes rest (hs.trans (List.suffix_cons _ _))
  case imported =>
      cases h with
      | act ha =>
          rcases ha.imported_cases with hsame | ⟨dotted, hi, hmarked⟩
          · rw [hsame]
            exact hm.imported
          · rw [hmarked, List.mem_cons]
            rintro (hempty | hmem)
            · exact hi.ne_empty hcode hempty.symm
            · exact hm.imported hmem
      | endCall _ hs => exact hs.imported ▸ hm.imported
      | _ => exact hm.imported

theorem Moment.Named.lowers (hm : m.Named entry) (hr : env.registry.AddsNoFunction)
    (hsources : ∃ files, env.sources.tree = .ofFiles files) (hcode : Stmt.AllNamed code)
    (h : Lowers env code m.now c') : "" ∉ c'.imported := by
  have hfirst : Moment.Named code ⟨m.now, []⟩ := by
    refine ⟨hm.functions, fun rest hs => ?_, hm.imported⟩
    cases List.suffix_nil.mp hs
    exact hcode
  obtain ⟨passed, hcourse⟩ : Passes env code ⟨m.now, []⟩ ⟨c', []⟩ := h.passes (List.Subset.refl _)
  have hlast := hcourse.forall_mem hfirst (fun _ _ hm hs => hs.named hr hsources hm) _
    List.mem_cons_self
  exact hlast.imported

theorem Moment.named_start (hentry : Stmt.AllNamed entry) (file? : Option String) :
    (Moment.start file?).Named entry := by
  refine ⟨fun key f hf => ?_, fun rest hs => ?_, List.not_mem_nil⟩
  · have hnone := Store.lookup?_start key.path key.name
    cases hnone.symm.trans (function?_eq_some.mp hf)
  · cases List.suffix_nil.mp hs
    exact hentry

end parsed

/-- No extension has the empty name, which would stand for the root, or all code comes from the
parser, which reads no such name. -/
def Environment.HidesRoot (env : Environment) (code : List Stmt) : Prop :=
  env.registry.find? "" = none ∨
    (∃ files, env.sources.tree = .ofFiles files) ∧ Stmt.AllNamed code

/-- At no moment of a compilation does an import change a symbol or a setting of the entry program,
whatever is imported, defined, called and run on the way. -/
theorem import_keeps_root (env : Environment) (hr : env.registry.StaysInModule)
    {entry : List Stmt} {file? : Option String} {moments : List Moment}
    (h : Course env entry (.start file?) moments) {m : Moment} (hm : m ∈ moments) (depth : Nat)
    (names : List ImportName) (span : Span)
    (hroot : env.HidesRoot (.importNames names span :: entry)) :
    (m.lowered env depth (.importNames names span)).now.store.contents .root =
      m.now.store.contents .root := by
  have hhomed := h.homed hr.addsNoFunction m hm
  have hsame := LowerM.importNames_sameRoot hr (LowerM.body_lowers env depth)
    (LowerM.body_sameRoot hr depth) hhomed names
  unfold Moment.lowered LowerM.reporting
  rw [LowerM.stmt]
  apply hsame.contents
  rcases hroot with hnone | ⟨hsources, hnamed⟩
  · exact .inl hnone
  right
  have hstart := Moment.named_start hnamed.2 file?
  have hthen := h.forall_mem hstart (fun _ _ hm hs => hs.named hr.addsNoFunction hsources hm) m hm
  have hlowers : Lowers env [.importNames names span] m.now _ :=
    LowerM.importNames_lowers (LowerM.body_lowers env depth) m.now fun name hname =>
      ⟨names, span, List.mem_singleton_self _, name, hname, rfl⟩
  have hcode : Stmt.AllNamed [.importNames names span] := ⟨hnamed.1, trivial⟩
  exact hthen.lowers hr.addsNoFunction hsources hcode hlowers

/-- `def f(): pass` -/
def definesF : Stmt := .define ⟨"f", default⟩ [] [] [.pass default] default

/-- A module `m` with a function `f` and a constant `g` that calls `f` and imports an extension. -/
def besideNamesakes : Environment :=
  let drivers : DottedName := ⟨[⟨"dev", default⟩, ⟨"drivers", default⟩], default⟩
  let m : Module :=
    ⟨[definesF,
      .expr (.call (.name ⟨Builtin.defineEnumerate.name, default⟩) [.name ⟨"g", default⟩] []
        default) default,
      .expr (.call (.name ⟨"f", default⟩) [] [] default) default,
      .importNames [⟨drivers, none, default⟩] default], default⟩
  .bundled [.directory "."] ⟨[], [(["m.p16"], .ok m)], []⟩

/-- `import m` -/
def importsM : Stmt := .importNames [⟨⟨[⟨"m", default⟩], default⟩, none, default⟩] default

def entryWithF : Moment := (Moment.start none).lowered besideNamesakes 0 definesF

/-- The import defines `f` and `g` in `m` and installs an extension, and the `f` of the entry
program still waits to be called. -/
theorem import_keeps_root_namesakes :
    let after := (entryWithF.lowered besideNamesakes 3 importsM).now
    besideNamesakes.registry.StaysInModule ∧
      besideNamesakes.HidesRoot [importsM, definesF, importsM] ∧
      (after.function? ⟨⟨["m"]⟩, "f"⟩).map FunctionSymbol.emitted = some true ∧
      (after.store.lookup? ⟨["m"]⟩ "g").isSome ∧ .install "dev.drivers" ∈ after.events ∧
      (entryWithF.now.function? ⟨.root, "f"⟩).map FunctionSymbol.emitted = some false ∧
      after.store.contents .root = entryWithF.now.store.contents .root := by
  intro after
  have hr : besideNamesakes.registry.StaysInModule := Registry.onlyBundled_bundled.staysInModule
  have hhidden : besideNamesakes.HidesRoot [importsM, definesF, importsM] := .inl rfl
  have hs : definesF ∈ (Moment.start none).code [definesF, importsM] := List.mem_cons_self
  obtain ⟨passed, hcourse⟩ := (Moment.start none).passes_lowered besideNamesakes 0 hs
  have hroot := import_keeps_root besideNamesakes hr hcourse List.mem_cons_self 3
    [⟨⟨[⟨"m", default⟩], default⟩, none, default⟩] default hhidden
  refine ⟨hr, hhidden, ?_, ?_, ?_, ?_, hroot⟩
  · decide +kernel
  · decide +kernel
  · decide +kernel
  · decide +kernel

end P16
