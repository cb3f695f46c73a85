import Mathlib.Data.Finset.Card
import P16.Proofs.Entered
import P16.Proofs.ImportedOnce
import P16.Proofs.KeptFunctions

/-!
# How far a compilation can reach

The body of a function is entered when the function waits to be called, and a file when its module
is not marked as imported. Both happen once for a name: a function that has been entered waits no
more, and no name becomes free again. New functions come to wait all the time, but only for names
that some definition in the code or in a file has. New modules are imported, but only those that
some statement names.

A `Reach` is a finite supply of functions and modules that holds all of these. `Reach.left` counts
which of them can still be entered. Lowering never increases this number, and when a body is entered
it is smaller than before (`Enters.left_lt`).
-/

namespace P16

open Compilation

namespace Stmt

mutual

/-- The modules that a statement imports, at any depth. -/
def importTexts : Stmt → List String
  | importNames names _ => names.map fun name => name.path.text
  | define _ _ _ body _ => importTextsOf body
  | whileLoop _ body _ => importTextsOf body
  | _ => []

def importTextsOf : List Stmt → List String
  | [] => []
  | s :: rest => s.importTexts ++ importTextsOf rest

end

mutual

/-- The functions that a statement defines, in loops too. Functions inside functions are not
allowed. -/
def defined : Stmt → List String
  | define name _ _ _ _ => [name.text]
  | whileLoop _ body _ => definedIn body
  | _ => []

def definedIn : List Stmt → List String
  | [] => []
  | s :: rest => s.defined ++ definedIn rest

end

variable {s : Stmt} {code code' : List Stmt}

theorem importTextsOf_eq (code : List Stmt) : importTextsOf code = code.flatMap importTexts := by
  induction code with
  | nil => rw [importTextsOf, List.flatMap_nil]
  | cons s rest ih => rw [importTextsOf, ih, List.flatMap_cons]

theorem definedIn_eq (code : List Stmt) : definedIn code = code.flatMap defined := by
  induction code with
  | nil => rw [definedIn, List.flatMap_nil]
  | cons s rest ih => rw [definedIn, ih, List.flatMap_cons]

theorem importTexts_subset (h : s ∈ code) : s.importTexts ⊆ importTextsOf code := by
  intro dotted hdotted
  rw [importTextsOf_eq]
  exact List.mem_flatMap.mpr ⟨s, h, hdotted⟩

theorem defined_subset (h : s ∈ code) : s.defined ⊆ definedIn code := by
  intro name hname
  rw [definedIn_eq]
  exact List.mem_flatMap.mpr ⟨s, h, hname⟩

theorem importTextsOf_mono (h : code ⊆ code') : importTextsOf code ⊆ importTextsOf code' := by
  intro dotted hdotted
  rw [importTextsOf_eq] at hdotted
  obtain ⟨s, hs, hdotted⟩ := List.mem_flatMap.mp hdotted
  exact importTexts_subset (h hs) hdotted

theorem definedIn_mono (h : code ⊆ code') : definedIn code ⊆ definedIn code' := by
  intro name hname
  rw [definedIn_eq] at hname
  obtain ⟨s, hs, hname⟩ := List.mem_flatMap.mp hname
  exact defined_subset (h hs) hname

theorem mem_importTextsOf_of_imports {dotted : String} (h : Imports code dotted) :
    dotted ∈ importTextsOf code := by
  obtain ⟨names, span, hmem, name, hname, rfl⟩ := h
  apply importTexts_subset hmem
  rw [importTexts]
  exact List.mem_map_of_mem hname

end Stmt

namespace Store

/-- The function waits to be called, with this body. -/
def Awaits (s : Store) (key : FunctionKey) (body : List Stmt) : Prop :=
  ∃ f, s.lookup? key.path key.name = some (.function f) ∧ f.emitted = false ∧
    f.definition.body = body

/-- A body may still be entered under this name: it is free, or its function waits. -/
def Open (s : Store) (key : FunctionKey) : Prop :=
  s.lookup? key.path key.name = none ∨ ∃ body, s.Awaits key body

/-- Names are only used up, and all functions that come to wait are among `new`. -/
structure Exhausts (new : FunctionKey → List Stmt → Prop) (s s' : Store) : Prop where
  opens : ∀ key, s'.Open key → s.Open key
  awaits : ∀ key body, s'.Awaits key body → s.Awaits key body ∨ new key body

namespace Exhausts

variable {new new' : FunctionKey → List Stmt → Prop} {s s' s₁ s₂ : Store}

theorem trans (h : Exhausts new s s₁) (g : Exhausts new s₁ s₂) : Exhausts new s s₂ := by
  refine ⟨fun key hopen => h.opens key (g.opens key hopen), fun key body hawaits => ?_⟩
  rcases g.awaits key body hawaits with hold | hnew
  · exact h.awaits key body hold
  · exact .inr hnew

theorem mono (h : Exhausts new s s') (hi : ∀ key body, new key body → new' key body) :
    Exhausts new' s s' :=
  ⟨h.opens, fun key body hawaits => (h.awaits key body hawaits).imp_right (hi key body)⟩

/-- It is enough to look at each name: it has what it had, or what it has is not open, or what it
has is new. -/
theorem of_names (h : ∀ path name, s'.lookup? path name = s.lookup? path name ∨
    ¬ s'.Open ⟨path, name⟩ ∨
    s.Open ⟨path, name⟩ ∧ ∀ body, s'.Awaits ⟨path, name⟩ body →
      s.Awaits ⟨path, name⟩ body ∨ new ⟨path, name⟩ body) : Exhausts new s s' := by
  constructor
  case opens =>
      intro key hopen
      rcases h key.path key.name with hsame | hnot | hnew
      · unfold Open Awaits at hopen ⊢
        rwa [hsame] at hopen
      · exact absurd hopen hnot
      · exact hnew.1
  case awaits =>
      intro key body hawaits
      rcases h key.path key.name with hsame | hnot | hnew
      · unfold Awaits at hawaits ⊢
        rw [hsame] at hawaits
        exact .inl hawaits
      · exact absurd (.inr ⟨body, hawaits⟩) hnot
      · exact hnew.2 body hawaits

theorem of_lookup? (h : ∀ path name, s'.lookup? path name = s.lookup? path name) :
    Exhausts new s s' :=
  of_names fun path name => .inl (h path name)

theorem refl (s : Store) : Exhausts new s s := of_lookup? fun _ _ => rfl

theorem of_addsNoFunction (h : s.AddsNoFunction s') : Exhausts new s s' := by
  refine of_names fun path name => (h path name).imp_right ?_
  rintro ⟨symbol, hsymbol, hnone⟩
  left
  rintro (hfree | ⟨body, f, hf, -⟩)
  · cases hsymbol.symm.trans hfree
  · cases hsymbol.symm.trans hf
    cases hnone

theorem define {name : String} {f : FunctionSymbol} (hfree : s.lookup? s.current name = none)
    (hnew : new ⟨s.current, name⟩ f.definition.body) :
    Exhausts new s (s.define name (.function f)) := by
  refine of_names fun path key => ?_
  have hlookup := s.lookup?_define path name key (.function f)
  by_cases hk : s.current = path ∧ name = key
  · rw [if_pos hk] at hlookup
    obtain ⟨rfl, rfl⟩ := hk
    refine .inr (.inr ⟨.inl hfree, ?_⟩)
    rintro body ⟨g, hg, -, rfl⟩
    cases hlookup.symm.trans hg
    exact .inr hnew
  · rw [if_neg hk] at hlookup
    exact .inl hlookup

theorem updateFunction (path : ModulePath) (name : String) {g : FunctionSymbol → FunctionSymbol}
    (hd : ∀ f, (g f).definition = f.definition)
    (he : ∀ f, (g f).emitted = false → f.emitted = false) :
    Exhausts new s (s.updateFunction path name g) := by
  refine of_names fun other key => ?_
  rcases s.lookup?_updateFunction_cases path other name key g with hsame | ⟨-, f, hf, hg⟩
  · exact .inl hsame
  by_cases hw : (g f).emitted = false
  · refine .inr (.inr ⟨.inr ⟨_, f, hf, he f hw, rfl⟩, ?_⟩)
    rintro body ⟨f', hf', -, rfl⟩
    cases hg.symm.trans hf'
    exact .inl ⟨f, hf, he f hw, by rw [hd]⟩
  · right
    left
    rintro (hfree | ⟨body, f', hf', hw', -⟩)
    · cases hg.symm.trans hfree
    · cases hg.symm.trans hf'
      exact hw hw'

end Exhausts

end Store

/-- Functions and modules that a compilation may come to. -/
structure Reach where
  functions : Finset FunctionKey
  modules : Finset String

namespace Reach

def size (r : Reach) : Nat := r.functions.card + r.modules.card

/-- The function is in reach, with all that its body imports. -/
def Allows (r : Reach) (key : FunctionKey) (body : List Stmt) : Prop :=
  key ∈ r.functions ∧ ∀ dotted ∈ Stmt.importTextsOf body, dotted ∈ r.modules

/-- All that lowering `code` in the state `c` can come to at once is in reach. -/
structure Covers (r : Reach) (code : List Stmt) (c : Compilation) : Prop where
  imports : ∀ dotted ∈ Stmt.importTextsOf code, dotted ∈ r.modules
  defines : c.scope.function? = none →
    ∀ name ∈ Stmt.definedIn code, ⟨c.store.current, name⟩ ∈ r.functions
  waiting : ∀ key body, c.store.Awaits key body → r.Allows key body

/-- Files and extensions lead nowhere else. -/
structure Closed (r : Reach) (env : Environment) : Prop where
  files : ∀ dotted ∈ r.modules, ∀ file m,
    env.sources.find? (.ofDotted dotted) = some (file, .ok m) →
      (∀ name ∈ Stmt.importTextsOf m.body, name ∈ r.modules) ∧
      ∀ name ∈ Stmt.definedIn m.body, ⟨.ofDotted dotted, name⟩ ∈ r.functions
  extensions : env.registry.Each fun t t' => t.store.Exhausts r.Allows t'.store

end Reach

section exhausts

variable {env : Environment} {new : FunctionKey → List Stmt → Prop} {c c' : Compilation}

theorem Compilation.Settles.exhausts {key : FunctionKey} {count : Nat}
    (h : c.Settles key count c') : c.store.Exhausts new c'.store := by
  cases h with
  | agrees _ => exact .refl _
  | fixes _ => exact .updateFunction _ _ (fun _ => rfl) fun _ hw => hw

theorem Compilation.exhausts_afterHook {act : HookM Unit}
    (h : ∀ t : Target, t.store.Exhausts new (act.finish t).store) (path : ModulePath)
    (c : Compilation) : c.store.Exhausts new (c.afterHook path act).store := by
  have henter : c.store.Exhausts new (c.store.enter path) :=
    .of_lookup? fun _ _ => Store.lookup?_enter ..
  have hruns := h ⟨c.program, c.store.enter path, c.notes⟩
  exact henter.trans (hruns.trans (.of_lookup? fun _ _ => rfl))

theorem Compilation.exhausts_begun
    (hr : env.registry.Each fun t t' => t.store.Exhausts new t'.store) (dotted : String)
    (c : Compilation) : c.store.Exhausts new (c.begun env dotted).store := by
  unfold begun
  dsimp only
  cases he : env.registry.find? dotted with
  | none => exact .refl _
  | some e =>
      have hinstall := hr.install he (fun _ _ _ => Store.Exhausts.trans)
        fun t => .of_addsNoFunction (e.define_addsNoFunction dotted t.store)
      exact exhausts_afterHook hinstall _ _

theorem Compilation.exhausts_openModule
    (hr : env.registry.Each fun t t' => t.store.Exhausts new t'.store) (dotted file : String)
    (c : Compilation) :
    c.store.Exhausts new ((c.begun env dotted).openModule dotted file).store :=
  (exhausts_begun hr dotted c).trans (.of_lookup? fun _ _ => Store.lookup?_enter ..)

theorem Compilation.exhausts_openBody (key : FunctionKey) (f : FunctionSymbol) (c : Compilation) :
    c.store.Exhausts new (c.openBody key f).store := by
  have hmark : c.store.Exhausts new
      (c.updateFunction key fun f => { f with emitted := true }).store :=
    .updateFunction _ _ (fun _ => rfl) fun _ hw => nomatch hw
  exact hmark.trans (.of_lookup? fun _ _ => Store.lookup?_enter ..)

theorem Compilation.exhausts_leaveScope (before inner : Compilation) :
    inner.store.Exhausts new (leaveScope before inner).store :=
  .of_lookup? fun _ _ => Store.lookup?_enter ..

theorem Compilation.exhausts_closeBody (key : FunctionKey) (before inner : Compilation) :
    inner.store.Exhausts new (closeBody key before inner).store :=
  (exhausts_leaveScope before inner).trans (.updateFunction _ _ (fun _ => rfl) fun _ hw => hw)

end exhausts

namespace Reach.Covers

variable {env : Environment} {r : Reach} {code code' : List Stmt} {c c' : Compilation}

theorem mono (h : r.Covers code c) (hs : code' ⊆ code) : r.Covers code' c :=
  ⟨fun dotted hd => h.imports dotted (Stmt.importTextsOf_mono hs hd),
    fun hout name hn => h.defines hout name (Stmt.definedIn_mono hs hn), h.waiting⟩

theorem waiting_after (h : r.Covers code c) (he : c.store.Exhausts r.Allows c'.store)
    (key : FunctionKey) (body : List Stmt) (hawaits : c'.store.Awaits key body) :
    r.Allows key body := by
  rcases he.awaits key body hawaits with hold | hnew
  · exact h.waiting key body hold
  · exact hnew

theorem after (h : r.Covers code c) (he : c.store.Exhausts r.Allows c'.store)
    (hscope : c'.scope = c.scope) (hcurrent : c'.store.current = c.store.current) :
    r.Covers code c' := by
  refine ⟨h.imports, fun hout name hn => ?_, h.waiting_after he⟩
  rw [hscope] at hout
  rw [hcurrent]
  exact h.defines hout name hn

theorem loop (h : r.Covers code c) {e : Expr} {body : List Stmt} {span : Span}
    (hm : .whileLoop e body span ∈ code) (test : LoopTest) :
    r.Covers body (c.openLoop test) := by
  have himports := Stmt.importTexts_subset hm
  have hdefines := Stmt.defined_subset hm
  rw [Stmt.importTexts] at himports
  rw [Stmt.defined] at hdefines
  exact ⟨fun dotted hd => h.imports dotted (himports hd),
    fun hout name hn => h.defines hout name (hdefines hn), h.waiting⟩

theorem body (h : r.Covers code c) {key : FunctionKey} {f : FunctionSymbol}
    (hf : c.function? key = some f) (he : f.emitted = false) :
    r.Covers f.definition.body (c.openBody key f) := by
  have hallows := h.waiting key _ ⟨f, function?_eq_some.mp hf, he, rfl⟩
  exact ⟨hallows.2, nofun, h.waiting_after (c.exhausts_openBody key f)⟩

theorem file (h : r.Covers code c) (hr : r.Closed env) {dotted file : String} {m : Module}
    (hi : Imports code dotted) (hs : env.sources.find? (.ofDotted dotted) = some (file, .ok m)) :
    r.Covers m.body ((c.begun env dotted).openModule dotted file) := by
  have hmodule := h.imports dotted (Stmt.mem_importTextsOf_of_imports hi)
  obtain ⟨himports, hdefines⟩ := hr.files dotted hmodule file m hs
  exact ⟨himports, fun _ => hdefines,
    h.waiting_after (c.exhausts_openModule hr.extensions dotted file)⟩

end Reach.Covers

section runs

variable {env : Environment} {r : Reach} (hr : r.Closed env) {code : List Stmt}
  {c c' : Compilation}
include hr

theorem Acts.exhausts (h : Acts env code c c') (hc : r.Covers code c) :
    c.store.Exhausts r.Allows c'.store := by
  cases h with
  | report failure => exact .refl _
  | line h => exact .refl _
  | @number _ names _ _ _ =>
      apply Store.Exhausts.of_addsNoFunction
      intro path name
      rcases lookup?_defineNumbers names c.store path name with ⟨-, hsame⟩ | ⟨-, n, hnew⟩
      · exact .inl hsame
      · exact .inr ⟨_, hnew, rfl⟩
  | @declare d hm hd =>
      have hname : d.name.text ∈ Stmt.definedIn code := by
        apply Stmt.defined_subset hm
        rw [Stmt.defined]
        exact List.mem_singleton_self _
      have himports := Stmt.importTexts_subset hm
      rw [Stmt.importTexts] at himports
      exact .define hd.free ⟨hc.defines hd.outside _ hname,
        fun dotted hdotted => hc.imports dotted (himports hdotted)⟩
  | giveBack _ _ _ hs => exact hs.exhausts
  | @beginImport dotted _ _ _ => exact c.exhausts_begun hr.extensions dotted
  | hook _ _ _ hh _ _ => exact exhausts_afterHook (hr.extensions.hooks hh _) _ c

theorem Lowers.exhausts (h : Lowers env code c c') (hc : r.Covers code c) :
    c.store.Exhausts r.Allows c'.store := by
  induction h with
  | refl code c => exact .refl _
  | trans h _ ih ih' =>
      have hfirst := ih hc
      exact hfirst.trans (ih' (hc.after hfirst h.scope h.current))
  | act h => exact h.exhausts hr hc
  | call _ _ _ _ _ _ _ _ hs ih => exact (ih hc).trans hs.exhausts
  | @loop _ _ _ _ _ _ test hm _ _ ih => exact ih (hc.loop hm test)
  | @body _ c inner key f hf he _ ih =>
      have hopen : c.store.Exhausts r.Allows (c.openBody key f).store := c.exhausts_openBody key f
      exact (hopen.trans (ih (hc.body hf he))).trans (exhausts_closeBody key c inner)
  | @loadModule _ c inner dotted file m hi _ hs _ ih =>
      have hopen := c.exhausts_openModule hr.extensions dotted file
      have hinner := ih (hc.file hr hi hs)
      exact (hopen.trans hinner).trans (exhausts_leaveScope _ inner)

theorem Lowers.covers (h : Lowers env code c c') (hc : r.Covers code c) : r.Covers code c' :=
  hc.after (h.exhausts hr hc) h.scope h.current

end runs

namespace Reach

open Classical in
/-- The functions whose bodies may still be entered. -/
noncomputable def openFunctions (r : Reach) (c : Compilation) : Finset FunctionKey :=
  r.functions.filter fun key => c.store.Open key

/-- The modules that may still be imported. -/
def newModules (r : Reach) (c : Compilation) : Finset String :=
  r.modules.filter fun dotted => dotted ∉ c.imported

/-- How much can still be entered. -/
noncomputable def left (r : Reach) (c : Compilation) : Nat :=
  (r.openFunctions c).card + (r.newModules c).card

variable {r : Reach} {new : FunctionKey → List Stmt → Prop} {c c' : Compilation}

theorem mem_openFunctions {key : FunctionKey} :
    key ∈ r.openFunctions c ↔ key ∈ r.functions ∧ c.store.Open key := by
  classical
  exact Finset.mem_filter

theorem mem_newModules {dotted : String} :
    dotted ∈ r.newModules c ↔ dotted ∈ r.modules ∧ dotted ∉ c.imported :=
  Finset.mem_filter

theorem left_le_size (r : Reach) (c : Compilation) : r.left c ≤ r.size := by
  classical
  exact Nat.add_le_add (Finset.card_filter_le _ _) (Finset.card_filter_le _ _)

theorem openFunctions_subset (hs : c.store.Exhausts new c'.store) :
    r.openFunctions c' ⊆ r.openFunctions c := by
  intro key hkey
  rw [mem_openFunctions] at hkey ⊢
  exact ⟨hkey.1, hs.opens key hkey.2⟩

theorem newModules_subset (hi : c.imported ⊆ c'.imported) :
    r.newModules c' ⊆ r.newModules c := by
  intro dotted hdotted
  rw [mem_newModules] at hdotted ⊢
  exact ⟨hdotted.1, fun hmem => hdotted.2 (hi hmem)⟩

section measure

variable (hs : c.store.Exhausts new c'.store) (hi : c.imported ⊆ c'.imported)
include hs hi

theorem left_le : r.left c' ≤ r.left c :=
  Nat.add_le_add (Finset.card_le_card (openFunctions_subset hs))
    (Finset.card_le_card (newModules_subset hi))

theorem left_lt_of_function {key : FunctionKey} (hk : key ∈ r.functions) (ho : c.store.Open key)
    (hn : ¬ c'.store.Open key) : r.left c' < r.left c := by
  have hfunctions : (r.openFunctions c').card < (r.openFunctions c).card := by
    apply Finset.card_lt_card
    apply (Finset.ssubset_iff_of_subset (openFunctions_subset hs)).mpr
    exact ⟨key, mem_openFunctions.mpr ⟨hk, ho⟩, fun hmem => hn (mem_openFunctions.mp hmem).2⟩
  have hmodules := Finset.card_le_card (newModules_subset (r := r) hi)
  exact Nat.add_lt_add_of_lt_of_le hfunctions hmodules

theorem left_lt_of_module {dotted : String} (hm : dotted ∈ r.modules) (hd : dotted ∉ c.imported)
    (hd' : dotted ∈ c'.imported) : r.left c' < r.left c := by
  have hmodules : (r.newModules c').card < (r.newModules c).card := by
    apply Finset.card_lt_card
    apply (Finset.ssubset_iff_of_subset (newModules_subset hi)).mpr
    exact ⟨dotted, mem_newModules.mpr ⟨hm, hd⟩, fun hmem => (mem_newModules.mp hmem).2 hd'⟩
  have hfunctions := Finset.card_le_card (openFunctions_subset (r := r) hs)
  exact Nat.add_lt_add_of_le_of_lt hfunctions hmodules

end measure

end Reach

section entered

variable {env : Environment} {r : Reach} (hr : r.Closed env) {code : List Stmt}
  {c c' : Compilation}

theorem Compilation.not_open_openBody {key : FunctionKey} {f : FunctionSymbol}
    (hf : c.function? key = some f) : ¬ (c.openBody key f).store.Open key := by
  have hlookup : (c.openBody key f).store.lookup? key.path key.name =
      some (.function { f with emitted := true }) := by
    refine (Store.lookup?_enter ..).trans ?_
    have hfound : c.store.functionIn? key.path key.name = some f := hf
    refine (c.store.lookup?_updateFunction key.path key.path key.name key.name _).trans ?_
    rw [hfound]
    exact if_pos ⟨rfl, rfl⟩
  rintro (hfree | ⟨body, g, hg, hw, -⟩)
  · cases hlookup.symm.trans hfree
  · cases hlookup.symm.trans hg
    cases hw

theorem Reach.Covers.left_body (hc : r.Covers code c) {key : FunctionKey} {f : FunctionSymbol}
    (hf : c.function? key = some f) (he : f.emitted = false) :
    r.left (c.openBody key f) < r.left c := by
  have hawaits : c.store.Awaits key f.definition.body := ⟨f, function?_eq_some.mp hf, he, rfl⟩
  have hexhausts : c.store.Exhausts r.Allows (c.openBody key f).store := c.exhausts_openBody key f
  exact left_lt_of_function hexhausts (List.Subset.refl _) (hc.waiting key _ hawaits).1
    (.inr ⟨_, hawaits⟩) (not_open_openBody hf)

include hr

theorem Reach.Covers.left_file (hc : r.Covers code c) {dotted : String}
    (hi : Imports code dotted) (hd : dotted ∉ c.imported) (file : String) :
    r.left ((c.begun env dotted).openModule dotted file) < r.left c := by
  have hmodule := hc.imports dotted (Stmt.mem_importTextsOf_of_imports hi)
  have hmarked : ((c.begun env dotted).openModule dotted file).imported = dotted :: c.imported :=
    c.imported_begun env dotted
  refine left_lt_of_module (c.exhausts_openModule hr.extensions dotted file) ?_ hmodule hd ?_
  · rw [hmarked]
    exact List.subset_cons_self _ _
  · rw [hmarked]
    exact List.mem_cons_self

/-- When a body is entered, all it can come to is in reach too, and less is left than before. -/
theorem Enters.left_lt {enter : Enter} (henter : ∀ stmts c, Lowers env stmts c (enter stmts c))
    {stmts : List Stmt} (h : Enters env enter code c stmts c') (hc : r.Covers code c) :
    r.Covers stmts c' ∧ r.left c' < r.left c := by
  induction h with
  | @rest s rest stmts c c' _ ih =>
      have hm : s ∈ s :: rest := List.mem_cons_self
      have hlowers := LowerM.reporting_lowers c (LowerM.stmt_lowers henter hm c)
      have hrest := (hlowers.covers hr hc).mono (List.subset_cons_self s rest)
      have hle := r.left_le (hlowers.exhausts hr hc) hlowers.imported_subset
      obtain ⟨hcovers, hlt⟩ := ih hrest
      exact ⟨hcovers, hlt.trans_le hle⟩
  | @loop e span test body rest stmts c c' ht _ ih =>
      exact ih (hc.loop List.mem_cons_self test)
  | call hcall hk hf he => exact ⟨hc.body hf he, hc.left_body hf he⟩
  | @exported d rest c hd =>
      have hlowers : Lowers env (.define d.name d.params d.decorators d.body d.span :: rest) c
          (c.declare d) := .act (.declare List.mem_cons_self hd)
      have hdeclared := hlowers.covers hr hc
      have hle := r.left_le (hlowers.exhausts hr hc) hlowers.imported_subset
      have hf := function?_declare c d
      exact ⟨hdeclared.body hf rfl, (hdeclared.left_body hf rfl).trans_le hle⟩
  | @file before after name span rest c file m hd hs =>
      have himports : ∀ other ∈ before ++ name :: after,
          Imports (.importNames (before ++ name :: after) span :: rest) other.path.text :=
        fun other hother => ⟨_, span, List.mem_cons_self, other, hother, rfl⟩
      have hlowers := LowerM.importNames_lowers henter c fun other hother =>
        himports other (List.mem_append_left _ hother)
      have hreached := hlowers.covers hr hc
      have hle := r.left_le (hlowers.exhausts hr hc) hlowers.imported_subset
      have hname := himports name (List.mem_append_right _ List.mem_cons_self)
      exact ⟨hreached.file hr hname hs, (hreached.left_file hr hname hd file).trans_le hle⟩

end entered

end P16
