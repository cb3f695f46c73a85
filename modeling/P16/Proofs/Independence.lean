import P16.Proofs.Restored

/-!
# Bodies do not depend on where they are reached

The body of a function is written when the function is called for the first time, and a module is
lowered when it is imported for the first time. Where that happens makes no difference: two
compilations that differ in the current module, the file, the loops, the names of parameters and the
enclosing function, and in nothing else, do the same.

The statements are about two runs. `LowerM.Alike` relates their results.
-/

namespace P16

namespace Compilation

/-- The two differ at most in the current module and in the scope. -/
structure SameWork (c c' : Compilation) : Prop where
  program : c'.program = c.program
  namespaces : c'.store.namespaces = c.store.namespaces
  notes : c'.notes = c.notes
  imported : c'.imported = c.imported
  diagnostics : c'.diagnostics = c.diagnostics
  events : c'.events = c.events

/-- The two have written the same, their modules hold the same, and they have reported the same. -/
structure Agrees (c c' : Compilation) : Prop where
  program : c'.program = c.program
  contents : ∀ path, c'.store.contents path = c.store.contents path
  notes : c'.notes = c.notes
  imported : c'.imported = c.imported
  diagnostics : c'.diagnostics = c.diagnostics
  events : c'.events = c.events

variable {c c' : Compilation}

theorem Agrees.errorCount (h : c.Agrees c') : c'.errorCount = c.errorCount := by
  unfold Compilation.errorCount
  rw [h.diagnostics]

theorem Agrees.updateFunction (h : c.Agrees c') (key : FunctionKey)
    (g : FunctionSymbol → FunctionSymbol) :
    (c.updateFunction key g).Agrees (c'.updateFunction key g) := by
  have hlookup :
      c'.store.functionIn? key.path key.name = c.store.functionIn? key.path key.name := by
    unfold Store.functionIn?
    rw [← Store.contents_symbols, h.contents, Store.contents_symbols]
  refine ⟨h.program, fun path => ?_, h.notes, h.imported, h.diagnostics, h.events⟩
  unfold Compilation.updateFunction Compilation.updateStore Store.updateFunction
  dsimp only
  rw [hlookup]
  cases c.store.functionIn? key.path key.name with
  | none => exact h.contents path
  | some f =>
      dsimp only
      rw [Store.contents_update, Store.contents_update, h.contents, h.contents]

theorem Agrees.leaveScope (c c' inner : Compilation) :
    (c.leaveScope inner).Agrees (c'.leaveScope inner) :=
  ⟨rfl, fun path => by simp [Compilation.leaveScope], rfl, rfl, rfl, rfl⟩

namespace SameWork

theorem agrees (h : c.SameWork c') : c.Agrees c' := by
  refine ⟨h.program, fun path => ?_, h.notes, h.imported, h.diagnostics, h.events⟩
  unfold Store.contents
  rw [h.namespaces]

theorem record (h : c.SameWork c') (event : Event) : (c.record event).SameWork (c'.record event) :=
  ⟨h.program, h.namespaces, h.notes, h.imported, h.diagnostics, congrArg (List.cons _) h.events⟩

theorem updateFunction (h : c.SameWork c') (key : FunctionKey)
    (g : FunctionSymbol → FunctionSymbol) :
    (c.updateFunction key g).SameWork (c'.updateFunction key g) := by
  refine ⟨h.program, ?_, h.notes, h.imported, h.diagnostics, h.events⟩
  unfold Compilation.updateFunction Compilation.updateStore Store.updateFunction Store.functionIn?
    Store.lookup?
  dsimp only
  rw [h.namespaces]
  split
  · exact h.namespaces
  · unfold Store.update
    dsimp only
    rw [h.namespaces]

theorem enterScope_eq (h : c.SameWork c') (path : ModulePath) (scope : Scope) :
    c'.enterScope path scope = c.enterScope path scope := by
  unfold enterScope
  rw [Store.enter_congr _ h.namespaces, h.program, h.notes, h.imported, h.diagnostics, h.events]

theorem openBody_eq (h : c.SameWork c') (key : FunctionKey) (f : FunctionSymbol) :
    c'.openBody key f = c.openBody key f := by
  have hmarked := h.updateFunction key fun f => { f with emitted := true }
  have hfooter : SameWork
      { c.updateFunction key fun f => { f with emitted := true } with
        program := f.prologue c.program.enterFooter.2 }
      { c'.updateFunction key fun f => { f with emitted := true } with
        program := f.prologue c'.program.enterFooter.2 } :=
    ⟨by rw [h.program], hmarked.namespaces, h.notes, h.imported, h.diagnostics, h.events⟩
  exact congrArg (fun d : Compilation => d.record (.label key.path key.name))
    (hfooter.enterScope_eq f.path (f.scope key))

theorem closeBody (h : c.SameWork c') (key : FunctionKey) (inner : Compilation) :
    (closeBody key c inner).Agrees (closeBody key c' inner) := by
  apply Agrees.updateFunction
  have hleft := Agrees.leaveScope c c' inner
  exact ⟨by rw [h.program]; rfl, hleft.contents, rfl, rfl, rfl, rfl⟩

theorem ensureEmitted (h : c.SameWork c') (enter : Enter) (key : FunctionKey) :
    (c.ensureEmitted enter key).Agrees (c'.ensureEmitted enter key) := by
  have hlookup : c'.function? key = c.function? key := by
    unfold Compilation.function? Store.functionIn? Store.lookup?
    rw [h.namespaces]
  unfold Compilation.ensureEmitted
  rw [hlookup]
  cases c.function? key with
  | none => exact h.agrees
  | some f =>
      dsimp only
      split
      · exact h.agrees
      · rw [h.openBody_eq]
        exact h.closeBody key _

end SameWork

end Compilation

open Compilation

namespace LowerM

variable {α β : Type} {R S : Compilation → Compilation → Prop} {c c' : Compilation}

/-- Run on both, `act` succeeds with the same value or fails with the same failure. -/
def Alike (act : LowerM α) (c c' : Compilation) (R : Compilation → Compilation → Prop) : Prop :=
  match act c, act c' with
  | .ok a d, .ok a' d' => a' = a ∧ R d d'
  | .error failure d, .error failure' d' => failure' = failure ∧ R d d'
  | _, _ => False

section rules

theorem Alike.pure {a : α} (h : R c c') : (pure a : LowerM α).Alike c c' R := ⟨rfl, h⟩

theorem Alike.failed {cause : Cause} {span : Span} (h : R c c') :
    (fail cause span : LowerM α).Alike c c' R := ⟨rfl, h⟩

theorem Alike.update {f : Compilation → Compilation} (h : R (f c) (f c')) :
    (modify f : LowerM PUnit).Alike c c' R := ⟨rfl, h⟩

theorem Alike.bind {act : LowerM β} {f : β → LowerM α} (h : act.Alike c c' R)
    (hi : ∀ c c', R c c' → S c c') (hf : ∀ b c c', R c c' → (f b).Alike c c' S) :
    (act >>= f).Alike c c' S := by
  unfold Alike at h ⊢
  simp only [Bind.bind, EStateM.bind]
  cases he : act c with
  | ok b d =>
      cases he' : act c' with
      | ok b' d' =>
          simp only [he, he'] at h
          obtain ⟨rfl, hR⟩ := h
          exact hf b' d d' hR
      | error failure d' => simp [he, he'] at h
  | error failure d =>
      cases he' : act c' with
      | ok b' d' => simp [he, he'] at h
      | error failure' d' =>
          simp only [he, he'] at h
          exact ⟨h.1, hi d d' h.2⟩

/-- What is done next may depend on what the two have in common. -/
theorem Alike.get_bind {g : Compilation → LowerM α} (hg : g c' = g c)
    (h : (g c).Alike c c' R) : ((get : LowerM Compilation) >>= g).Alike c c' R := by
  change match g c c, g c' c' with
    | .ok a d, .ok a' d' => a' = a ∧ R d d'
    | .error failure d, .error failure' d' => failure' = failure ∧ R d d'
    | _, _ => False
  rw [hg]
  exact h

theorem Alike.update_bind {f : Compilation → Compilation} {g : PUnit → LowerM α}
    (h : (g ⟨⟩).Alike (f c) (f c') R) : ((modify f : LowerM PUnit) >>= g).Alike c c' R := h

theorem Alike.failed_bind {cause : Cause} {span : Span} {g : β → LowerM α} (h : R c c') :
    ((fail cause span : LowerM β) >>= g).Alike c c' R := ⟨rfl, h⟩

end rules

section imports

variable (h : c.SameWork c')
include h

theorem runHook_alike (path : ModulePath) (act : HookM Unit) :
    (runHook path act).Alike c c' SameWork := by
  have htarget : Target.mk c'.program (c'.store.enter path) c'.notes =
      ⟨c.program, c.store.enter path, c.notes⟩ := by
    rw [Store.enter_congr _ h.namespaces, h.program, h.notes]
  unfold Alike runHook
  rw [htarget]
  cases act ⟨c.program, c.store.enter path, c.notes⟩ with
  | ok _ t => exact ⟨rfl, rfl, rfl, rfl, h.imported, h.diagnostics, h.events⟩
  | error _ t => exact ⟨rfl, rfl, rfl, rfl, h.imported, h.diagnostics, h.events⟩

theorem installExtension_alike (path : ModulePath) (dotted : String) (e : Extension)
    (span : Span) : (installExtension path dotted e span).Alike c c' SameWork := by
  unfold installExtension
  refine .update_bind ((runHook_alike (h.record (.install dotted)) path _).bind (fun _ _ h => h) ?_)
  intro result d d' h
  cases result with
  | ok _ => exact .pure h
  | error message => exact .failed h

theorem lowerFile_alike (enter : Enter) (path : ModulePath) (dotted file : String)
    (loaded : Except LoadFault Module) (span : Span) :
    (lowerFile enter path dotted file loaded span).Alike c c' Agrees := by
  unfold lowerFile
  cases loaded with
  | error fault => exact .failed h.agrees
  | ok m =>
      have hinner : (c'.record (.load dotted)).enterScope path (.ofFile (some file)) =
          (c.record (.load dotted)).enterScope path (.ofFile (some file)) :=
        (h.record (.load dotted)).enterScope_eq _ _
      apply Alike.update
      rw [hinner]
      exact .leaveScope c c' _

omit h in
theorem importFailed_alike (h : c.Agrees c') (n : Nat) (dotted : String) (span : Span) :
    (do if n < (← get).errorCount then fail (.importFailed dotted) span : LowerM Unit).Alike c c'
      Agrees := by
  refine .get_bind (by rw [h.errorCount]) ?_
  split
  · exact .failed h
  · exact .pure h

theorem importFresh_alike (env : Environment) (enter : Enter) (dotted : String) (span : Span) :
    (importFresh env enter dotted span).Alike c c' Agrees := by
  have hmarked : SameWork { c with imported := dotted :: c.imported }
      { c' with imported := dotted :: c'.imported } :=
    ⟨h.program, h.namespaces, h.notes, congrArg (List.cons _) h.imported, h.diagnostics, h.events⟩
  unfold importFresh
  dsimp only
  split
  · exact .failed_bind h.agrees
  refine .update_bind (.get_bind (by rw [hmarked.agrees.errorCount]) ?_)
  have hfile {d d' : Compilation} (hd : d.SameWork d') (file : String)
      (loaded : Except LoadFault Module) (n : Nat) :
      (do lowerFile enter (.ofDotted dotted) dotted file loaded span
          if n < (← get).errorCount then fail (.importFailed dotted) span : LowerM Unit).Alike
        d d' Agrees :=
    (lowerFile_alike hd enter _ dotted file loaded span).bind (fun _ _ h => h)
      fun _ _ _ h => importFailed_alike h n dotted span
  cases env.registry.find? dotted with
  | some e =>
      refine (installExtension_alike hmarked _ dotted e span).bind (fun _ _ h => h.agrees)
        fun _ d d' hd => ?_
      cases env.sources.find? (.ofDotted dotted) with
      | none => exact importFailed_alike hd.agrees _ dotted span
      | some source => exact hfile hd source.1 source.2 _
  | none =>
      cases env.sources.find? (.ofDotted dotted) with
      | none => exact importFailed_alike hmarked.agrees _ dotted span
      | some source => exact hfile hmarked source.1 source.2 _

theorem importName_alike (env : Environment) (enter : Enter) (name : ImportName) :
    (importName env enter name).Alike c c' Agrees := by
  unfold importName
  dsimp only
  split
  · exact .failed_bind h.agrees
  refine .get_bind (by rw [h.imported]) ?_
  split
  · exact .pure h.agrees
  · exact importFresh_alike h env enter name.path.text name.span

end imports

end LowerM

/-- The body of a function is written in the same way wherever the function is called, and a module
is imported in the same way wherever that is asked for. The lines, the symbols and settings of all
modules, the counters, the imported modules and the diagnostics with their files are the same, and
if the import fails, it does so for the same reason. -/
theorem lowering_independent_of_place (env : Environment) (depth : Nat) {c c' : Compilation}
    (h : c.SameWork c') :
    (∀ key, (c.ensureEmitted (LowerM.body env depth) key).Agrees
      (c'.ensureEmitted (LowerM.body env depth) key)) ∧
    ∀ name, (LowerM.importName env (LowerM.body env depth) name).Alike c c' Agrees :=
  ⟨h.ensureEmitted (LowerM.body env depth), LowerM.importName_alike h env (LowerM.body env depth)⟩

/-- `x = 1` and `break`, which both fail where `x` is no parameter and no loop is around. -/
def usesSurroundings : List Stmt :=
  [.assign [.name ⟨"x", default⟩] (.number 1 default) default, .breakLoop default]

/-- A file `n.p16` that holds these statements. -/
def besideSurroundings : Environment :=
  ⟨⟨[.directory "."], ⟨[], [(["n.p16"], .ok ⟨usesSurroundings, default⟩)], []⟩⟩, .empty⟩

/-- The end of a program that has a module `m` and a function `f` with these statements. -/
def outsideLoops : Compilation :=
  ((Compilation.start (some "main.p16")).declare
    ⟨⟨"f", default⟩, [], [], usesSurroundings, default⟩).updateStore fun s =>
      (s.enter ⟨["m"]⟩).restore .root

/-- A loop in a function of `m` that has a parameter `x`. -/
def insideLoop : Compilation :=
  { outsideLoops with
    store := outsideLoops.store.restore ⟨["m"]⟩
    scope := ⟨some "m.p16", [⟨"m__start", "m__end"⟩], .ofList [("x", .A)], some ⟨⟨["m"]⟩, "g"⟩⟩ }

/-- Inside the loop both statements would be lowered, as part of `f` and of `n` they are not. -/
theorem lowering_independent_of_place_insideLoop :
    let enter := LowerM.body besideSurroundings 1
    let name : ImportName := ⟨⟨[⟨"n", default⟩], default⟩, none, default⟩
    outsideLoops.SameWork insideLoop ∧ insideLoop.store.has insideLoop.store.current ∧
      (LowerM.block besideSurroundings enter usesSurroundings insideLoop).diagnostics.size = 0 ∧
      (outsideLoops.ensureEmitted enter ⟨.root, "f"⟩).diagnostics.size = 2 ∧
      (outsideLoops.ensureEmitted enter ⟨.root, "f"⟩).Agrees
        (insideLoop.ensureEmitted enter ⟨.root, "f"⟩) ∧
      (LowerM.importName besideSurroundings enter name).failsWith outsideLoops
        (fun _ c => c.diagnostics.size = 2) ∧
      (LowerM.importName besideSurroundings enter name).Alike outsideLoops insideLoop Agrees := by
  intro enter name
  have hsame : outsideLoops.SameWork insideLoop := ⟨rfl, rfl, rfl, rfl, rfl, rfl⟩
  obtain ⟨hbody, himport⟩ := lowering_independent_of_place besideSurroundings 1 hsame
  refine ⟨hsame, ?_, ?_, ?_, hbody ⟨.root, "f"⟩, ?_, himport name⟩
  · decide +kernel
  · decide +kernel
  · decide +kernel
  · decide +kernel

end P16
