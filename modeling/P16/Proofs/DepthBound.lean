import Mathlib.Algebra.GroupWithZero.Nat
import Mathlib.Data.List.ProdSigma
import P16.Proofs.ParsedNames
import P16.Proofs.Reach

/-!
# The depth bound is a reach

`Reach.ofNames` is the reach that is made from all names in the code, in the functions that wait, in
the files and in what extensions declare. When extensions declare nothing it is smaller than
`Compilation.depthBound` (`size_ofNames_lt`).
-/

namespace P16

open Compilation

/-- The functions that extensions declare are all in `pool`, with their bodies, and extensions only
use names up: they declare functions under free names, and what has been entered stays so. -/
def Registry.DeclaresOnly (r : Registry) (pool : List (FunctionKey × List Stmt)) : Prop :=
  r.Each fun t t' => t.store.Exhausts (fun key body => (key, body) ∈ pool) t'.store

theorem Registry.AddsNoFunction.declaresOnly {r : Registry} (hr : r.AddsNoFunction) :
    r.DeclaresOnly [] :=
  ⟨fun h args t => .of_addsNoFunction (hr.hooks h args t),
    fun he hs t => .of_addsNoFunction (hr.startUps he hs t)⟩

section waiting

theorem Table.mem_of_find? {κ α : Type} [DecidableEq κ] {t : Table κ α} {key : κ} {a : α}
    (h : t.find? key = some a) : (key, a) ∈ t.entries := by
  obtain ⟨entries⟩ := t
  unfold find? at h
  dsimp only at h ⊢
  induction entries with
  | nil => cases h
  | cons entry rest ih =>
      obtain ⟨k, b⟩ := entry
      unfold findIn? at h
      split at h
      · rename_i hk
        cases hk
        cases h
        exact List.mem_cons_self
      · exact List.mem_cons_of_mem _ (ih h)

def Symbol.waiting? : Symbol → Option (List Stmt)
  | .function f => if f.emitted then none else some f.definition.body
  | _ => none

namespace Store

def symbols (s : Store) : List (FunctionKey × Symbol) :=
  s.namespaces.entries.flatMap fun entry =>
    entry.2.symbols.entries.map fun named => (⟨entry.1, named.1⟩, named.2)

def waiting (s : Store) : List (FunctionKey × List Stmt) :=
  s.symbols.filterMap fun entry => entry.2.waiting?.map fun body => (entry.1, body)

theorem mem_symbols {s : Store} {key : FunctionKey} {symbol : Symbol}
    (h : s.lookup? key.path key.name = some symbol) : (key, symbol) ∈ s.symbols := by
  obtain ⟨n, hn, hsymbol⟩ := Option.bind_eq_some_iff.mp h
  apply List.mem_flatMap.mpr
  refine ⟨_, Table.mem_of_find? hn, List.mem_map.mpr ?_⟩
  exact ⟨_, Table.mem_of_find? hsymbol, rfl⟩

theorem Awaits.mem_waiting {s : Store} {key : FunctionKey} {body : List Stmt}
    (h : s.Awaits key body) : (key, body) ∈ s.waiting := by
  obtain ⟨f, hf, hw, rfl⟩ := h
  apply List.mem_filterMap.mpr
  refine ⟨_, mem_symbols hf, ?_⟩
  simp [Symbol.waiting?, hw]

end Store

end waiting

def Sources.modules (s : Sources) : List Module :=
  (s.tree.files ++ Library.sources.files).filterMap fun entry => entry.2.toOption

theorem Sources.mem_modules {s : Sources} {path : ModulePath} {file : String} {m : Module}
    (h : s.find? path = some (file, .ok m)) : m ∈ s.modules := by
  unfold find? at h
  split at h
  · cases h
  obtain ⟨root, -, hroot⟩ := List.exists_of_findSome?_eq_some h
  obtain ⟨loaded, hloaded, hfile⟩ := Option.map_eq_some_iff.mp hroot
  cases hfile
  obtain ⟨location, hmem⟩ := FileTree.exists_of_lookup hloaded
  apply List.mem_filterMap.mpr
  refine ⟨(location, .ok m), List.mem_append.mpr ?_, rfl⟩
  cases root with
  | library => exact .inr hmem
  | directory path => exact .inl hmem

namespace Reach

variable (env : Environment) (pool : List (FunctionKey × List Stmt)) (stmts : List Stmt)
  (c : Compilation)

/-- The functions that wait or may be declared by extensions. -/
def awaited : List (FunctionKey × List Stmt) := c.store.waiting ++ pool

/-- Every module that is named by an import anywhere. -/
def importedNames : List String :=
  Stmt.importTextsOf stmts ++ (awaited pool c).flatMap (fun entry => Stmt.importTextsOf entry.2) ++
    env.sources.modules.flatMap fun m => Stmt.importTextsOf m.body

def fileNames : List String := env.sources.modules.flatMap fun m => Stmt.definedIn m.body

/-- Every function that can be there. Any file is taken to be the file of any imported module. -/
def definedKeys : List FunctionKey :=
  (Stmt.definedIn stmts).map (fun name => ⟨c.store.current, name⟩) ++
    (awaited pool c).map Prod.fst ++
    (importedNames env pool stmts c ×ˢ fileNames env).map fun entry =>
      ⟨.ofDotted entry.1, entry.2⟩

/-- All that can be reached when `stmts` are lowered in the state `c`. -/
def ofNames : Reach :=
  ⟨(definedKeys env pool stmts c).toFinset, (importedNames env pool stmts c).toFinset⟩

theorem allows_of_mem {key : FunctionKey} {body : List Stmt} (h : (key, body) ∈ awaited pool c) :
    (ofNames env pool stmts c).Allows key body := by
  constructor
  · apply List.mem_toFinset.mpr
    apply List.mem_append_left
    apply List.mem_append_right
    exact List.mem_map_of_mem h
  · intro dotted hdotted
    apply List.mem_toFinset.mpr
    apply List.mem_append_left
    apply List.mem_append_right
    exact List.mem_flatMap.mpr ⟨_, h, hdotted⟩

theorem covers_ofNames : (ofNames env pool stmts c).Covers stmts c := by
  constructor
  case imports =>
      intro dotted hdotted
      apply List.mem_toFinset.mpr
      exact List.mem_append_left _ (List.mem_append_left _ hdotted)
  case defines =>
      intro _ name hname
      apply List.mem_toFinset.mpr
      apply List.mem_append_left
      apply List.mem_append_left
      exact List.mem_map_of_mem hname
  case waiting =>
      intro key body hawaits
      exact allows_of_mem env pool stmts c (List.mem_append_left _ hawaits.mem_waiting)

theorem closed_ofNames (hr : env.registry.DeclaresOnly pool) :
    (ofNames env pool stmts c).Closed env := by
  constructor
  case files =>
      intro dotted hdotted file m hs
      have hm := Sources.mem_modules hs
      constructor
      · intro name hname
        apply List.mem_toFinset.mpr
        apply List.mem_append_right
        exact List.mem_flatMap.mpr ⟨m, hm, hname⟩
      · intro name hname
        apply List.mem_toFinset.mpr
        apply List.mem_append_right
        have hfile : name ∈ fileNames env := List.mem_flatMap.mpr ⟨m, hm, hname⟩
        have hpair : (dotted, name) ∈ importedNames env pool stmts c ×ˢ fileNames env :=
          List.mem_product.mpr ⟨List.mem_toFinset.mp hdotted, hfile⟩
        exact List.mem_map_of_mem (f := fun entry : String × String =>
          (⟨.ofDotted entry.1, entry.2⟩ : FunctionKey)) hpair
  case extensions =>
      have hpool : ∀ key body, (key, body) ∈ pool → (ofNames env pool stmts c).Allows key body :=
        fun key body h => allows_of_mem env pool stmts c (List.mem_append_right _ h)
      exact ⟨fun h args t => (hr.hooks h args t).mono hpool,
        fun he hs t => (hr.startUps he hs t).mono hpool⟩

end Reach

section size

theorem foldl_add_eq_sum {α : Type} (f : α → Nat) (items : List α) :
    items.foldl (fun total a => total + f a) 0 = (items.map f).sum := by
  rw [List.sum_eq_foldl, List.foldl_map]

namespace Stmt

mutual

theorem length_le_weight (s : Stmt) : s.importTexts.length + s.defined.length ≤ s.weight := by
  cases s with
  | importNames names span => simp [importTexts, defined, weight]
  | define name params decorators body span =>
      have hbody := length_le_weights body
      simp only [importTexts, defined, weight, List.length_singleton]
      omega
  | whileLoop e body span =>
      have hbody := length_le_weights body
      simpa only [importTexts, defined, weight] using hbody
  | _ => simp [importTexts, defined, weight]

theorem length_le_weights (stmts : List Stmt) :
    (importTextsOf stmts).length + (definedIn stmts).length ≤ weights stmts := by
  cases stmts with
  | nil => simp [importTextsOf, definedIn, weights]
  | cons s rest =>
      have hfirst := length_le_weight s
      have hrest := length_le_weights rest
      simp only [importTextsOf, definedIn, weights, List.length_append]
      omega

end

end Stmt

theorem Store.weight_eq (s : Store) :
    s.weight = (s.symbols.map fun entry => entry.2.weight).sum := by
  have hmodule (n : Namespace) :
      n.weight = (n.symbols.entries.map fun entry => entry.2.weight).sum := foldl_add_eq_sum _ _
  unfold weight symbols
  rw [foldl_add_eq_sum]
  induction s.namespaces.entries with
  | nil => rfl
  | cons entry rest ih =>
      rw [List.map_cons, List.sum_cons, ih, hmodule, List.flatMap_cons, List.map_append,
        List.sum_append, List.map_map]
      rfl

theorem Symbol.weight_of_waiting? {symbol : Symbol} {body : List Stmt}
    (h : symbol.waiting? = some body) : symbol.weight = 1 + Stmt.weights body := by
  cases symbol with
  | function f =>
      by_cases he : f.emitted
      · simp [waiting?, he] at h
      · have hbody : f.definition.body = body := by simpa [waiting?, he] using h
        simp [weight, he, hbody]
  | _ => cases h

theorem Store.length_waiting_le (s : Store) :
    s.waiting.length + (s.waiting.flatMap fun entry => Stmt.importTextsOf entry.2).length ≤
      s.weight := by
  rw [weight_eq]
  unfold waiting
  induction s.symbols with
  | nil => simp
  | cons entry rest ih =>
      rw [List.map_cons, List.sum_cons]
      cases hw : entry.2.waiting? with
      | none =>
          rw [List.filterMap_cons_none (by rw [hw]; rfl)]
          omega
      | some body =>
          have hbody := Stmt.length_le_weights body
          have hweight := Symbol.weight_of_waiting? hw
          rw [List.filterMap_cons_some (by rw [hw]; rfl)]
          simp only [List.length_cons, List.flatMap_cons, List.length_append]
          omega

theorem Sources.length_modules_le (s : Sources) :
    (s.modules.flatMap fun m => Stmt.importTextsOf m.body).length +
      (s.modules.flatMap fun m => Stmt.definedIn m.body).length ≤
        s.tree.weight + Library.sources.weight := by
  have htrees : s.tree.weight + Library.sources.weight =
      ((s.tree.files ++ Library.sources.files).map fun entry => loadedWeight entry.2).sum := by
    rw [List.map_append, List.sum_append, ← foldl_add_eq_sum, ← foldl_add_eq_sum]
    rfl
  rw [htrees]
  unfold modules
  induction s.tree.files ++ Library.sources.files with
  | nil => simp
  | cons entry rest ih =>
      obtain ⟨location, loaded⟩ := entry
      rw [List.map_cons, List.sum_cons]
      cases loaded with
      | error fault =>
          rw [List.filterMap_cons_none rfl]
          omega
      | ok m =>
          have hbody := Stmt.length_le_weights m.body
          simp only [List.filterMap_cons, Except.toOption, List.flatMap_cons, List.length_append,
            loadedWeight] at ih ⊢
          omega

/-- Without functions from extensions, the depth bound is greater than the reach. -/
theorem Reach.size_ofNames_lt (env : Environment) (stmts : List Stmt) (c : Compilation) :
    (ofNames env [] stmts c).size < c.depthBound env stmts := by
  have hstmts := Stmt.length_le_weights stmts
  have hwaiting := c.store.length_waiting_le
  have hfiles := env.sources.length_modules_le
  have hkeys : (ofNames env [] stmts c).functions.card ≤
      (Stmt.definedIn stmts).length + c.store.waiting.length +
        (importedNames env [] stmts c).length * (fileNames env).length := by
    have hcard : (ofNames env [] stmts c).functions.card ≤ (definedKeys env [] stmts c).length :=
      List.toFinset_card_le _
    simpa [definedKeys, awaited, List.length_product, Nat.add_assoc] using hcard
  have hnames : (ofNames env [] stmts c).modules.card ≤ (importedNames env [] stmts c).length :=
    List.toFinset_card_le _
  have hpairs : (importedNames env [] stmts c).length * (1 + (fileNames env).length) ≤
      (Stmt.weights stmts + c.store.weight +
        (env.sources.tree.weight + Library.sources.weight)) *
          (1 + (env.sources.tree.weight + Library.sources.weight)) := by
    apply Nat.mul_le_mul
    · simp only [importedNames, awaited, List.append_nil, List.length_append]
      omega
    · unfold fileNames
      omega
  rw [Nat.mul_add, Nat.mul_one] at hpairs
  unfold size depthBound
  dsimp only
  omega

end size

end P16
