import P16.Proofs.LoopCode
import P16.Proofs.Lowers

/-!
# Constructs put back what they change

A construct may turn to another module, file, loop, function or segment, and it may open footer
blocks. When it is over, all this is as it was before. That holds on every way out: when the
construct fails, when statements inside it fail, and whatever bodies and files are entered
meanwhile.

The scope and the current module are put back for an extension as well. The active segment and the
open blocks are not, so extensions have to put them back themselves.
-/

namespace P16

open Compilation

/-- Extensions leave the segment active that they find, and they close the blocks they open. -/
def Registry.KeepsPlace (r : Registry) : Prop :=
  r.Each fun t t' =>
    t'.program.active = t.program.active ∧ t'.program.openBlocks = t.program.openBlocks

theorem Registry.OnlyBundled.keepsPlace {r : Registry} (hr : r.OnlyBundled) : r.KeepsPlace :=
  hr.each fun _ _ _ h => ⟨h.program.active, h.program.openBlocks⟩

structure Compilation.Restored (c c' : Compilation) : Prop where
  scope : c'.scope = c.scope
  current : c'.store.current = c.store.current
  active : c'.program.active = c.program.active
  openBlocks : c'.program.openBlocks = c.program.openBlocks

namespace Compilation.Restored

variable {env : Environment} {c c' c₁ c₂ : Compilation}

theorem refl (c : Compilation) : Restored c c := ⟨rfl, rfl, rfl, rfl⟩

theorem trans (h : Restored c c₁) (g : Restored c₁ c₂) : Restored c c₂ :=
  ⟨g.scope.trans h.scope, g.current.trans h.current, g.active.trans h.active,
    g.openBlocks.trans h.openBlocks⟩

theorem writeAll (c : Compilation) (lines : List Line) :
    Restored c (c.write fun p => p.writeAll lines) :=
  ⟨rfl, rfl, Program.active_writeAll _ _, Program.openBlocks_writeAll _ _⟩

theorem of_store (hp : c'.program = c.program) (hs : c'.scope = c.scope)
    (hc : c'.store.current = c.store.current) : Restored c c' :=
  ⟨hs, hc, congrArg Program.active hp, congrArg Program.openBlocks hp⟩

theorem settles {key : FunctionKey} {count : Nat} (h : c.Settles key count c') :
    Restored c c' := by
  cases h with
  | agrees _ => exact .refl c
  | fixes _ => exact of_store rfl rfl (Store.current_updateFunction ..)

theorem giveBack {key : FunctionKey} {operands : List Operand}
    (h : c.Settles key operands.length c') :
    Restored c ((c'.write fun p => (p.pushAll operands).jumpBack).record
      (.giveBack key operands.length)) := by
  have hwritten := writeAll c' (giveBackLines operands)
  simp only [← Program.giveBack_eq] at hwritten
  exact ((settles h).trans hwritten).trans (of_store rfl rfl rfl)

theorem call {key : FunctionKey} {results : List Register} (h : c.Settles key results.length c')
    (label : String) (arguments : List Operand) :
    Restored c ((c'.write fun p =>
      p.callSequence c'.scope.function?.isSome label arguments results).record
        (.call key results.length c'.scope.function?.isSome)) := by
  have hwritten := writeAll c' (callLines c'.scope.function?.isSome label arguments results)
  simp only [← Program.callSequence_eq] at hwritten
  exact ((settles h).trans hwritten).trans (of_store rfl rfl rfl)

theorem afterHook {path : ModulePath} {act : HookM Unit}
    (h : ∀ t : Target, (act.finish t).program.active = t.program.active ∧
      (act.finish t).program.openBlocks = t.program.openBlocks) (c : Compilation) :
    Restored c (c.afterHook path act) := by
  obtain ⟨hactive, hblocks⟩ := h ⟨c.program, c.store.enter path, c.notes⟩
  exact ⟨rfl, rfl, hactive, hblocks⟩

theorem begun (hr : env.registry.KeepsPlace) (dotted : String) (c : Compilation) :
    Restored c (c.begun env dotted) := by
  unfold Compilation.begun
  dsimp only
  split
  · exact of_store rfl rfl rfl
  · rename_i e he
    have hmarked : Restored c (({ c with imported := dotted :: c.imported }).record
        (.install dotted)) := of_store rfl rfl rfl
    have hinstall := Registry.Each.install hr he
      (fun _ _ _ h g => ⟨g.1.trans h.1, g.2.trans h.2⟩) fun _ => ⟨rfl, rfl⟩
    exact hmarked.trans (afterHook hinstall _)

theorem loop {inner : Compilation} {test : LoopTest} (h : Restored (c.openLoop test) inner) :
    Restored c (inner.closeLoop c.store.current c.nextLoop) := by
  constructor
  case scope =>
    change { inner.scope with loops := inner.scope.loops.tail } = c.scope
    rw [h.scope]
    rfl
  case current => exact h.current
  case active => rw [closeLoop_active, h.active, openLoop_active]
  case openBlocks =>
    rw [closeLoop_program, Program.openBlocks_writeAll, h.openBlocks, openLoop_program,
      Program.openBlocks_writeAll]
    rfl

theorem body {inner : Compilation} {key : FunctionKey} {f : FunctionSymbol}
    (h : Restored (c.openBody key f) inner) : Restored c (closeBody key c inner) := by
  have hopen : inner.program.openBlocks = c.program.openBlocks + 1 := by
    rw [h.openBlocks, openBody_program, Program.openBlocks_writeAll]
    rfl
  constructor
  case scope => rfl
  case current => exact Store.current_updateFunction ..
  case active =>
    rw [closeBody_program, Program.active_leaveFooter]
    rfl
  case openBlocks =>
    rw [closeBody_program, Program.openBlocks_leaveFooter, Program.openBlocks_writeAll, hopen]
    rfl

theorem loaded {inner : Compilation} {dotted file : String}
    (h : Restored (c.openModule dotted file) inner) : Restored c (c.leaveScope inner) :=
  ⟨rfl, rfl, h.active, h.openBlocks⟩

end Compilation.Restored

section restored

variable {env : Environment} (hr : env.registry.KeepsPlace) {code : List Stmt}
  {c c' : Compilation}
include hr

theorem Acts.restored (h : Acts env code c c') : Restored c c' := by
  cases h with
  | report failure => exact .of_store rfl rfl rfl
  | @line line _ => exact .writeAll c [line]
  | number hc hb hn => exact .of_store rfl rfl (current_defineNumbers _ _)
  | declare hm hd => exact .of_store rfl rfl rfl
  | giveBack hm hk ho hs => exact .giveBack hs
  | @beginImport dotted hi hd hs => exact .begun hr dotted c
  | hook hc he hl hh hp hk => exact .afterHook (hr.hooks hh _) c

theorem Lowers.restored (h : Lowers env code c c') : Restored c c' := by
  induction h with
  | refl code c => exact .refl c
  | trans _ _ ih ih' => exact ih.trans ih'
  | act h => exact h.restored hr
  | call hc hk hf hn ha hres _ he hs ih => exact ih.trans (.call hs _ _)
  | loop hm ht _ ih => exact .loop ih
  | body hf he _ ih => exact .body ih
  | @loadModule _ c inner dotted file m hi hd hs _ ih =>
      exact (Restored.begun hr dotted c).trans (.loaded ih)

end restored

/-- Whether a statement fails or not, and whatever happens inside it, the module, the file, the
loops, the names of parameters, the function, the segment and the open blocks are as before. -/
theorem stmt_restores :
    Registry.bundled.KeepsPlace ∧ ∀ env : Environment, env.registry.KeepsPlace →
      ∀ (depth : Nat) (s : Stmt) (c : Compilation),
        (∀ c', LowerM.stmt env (LowerM.body env depth) s c = .ok () c' → c.Restored c') ∧
        ∀ failure c', LowerM.stmt env (LowerM.body env depth) s c = .error failure c' →
          c.Restored c' := by
  refine ⟨Registry.onlyBundled_bundled.keepsPlace, fun env hr depth s c => ?_⟩
  have hlowers := LowerM.stmt_lowers (LowerM.body_lowers env depth) (List.mem_singleton_self s) c
  have hrestored := hlowers.mono (fun _ h => h.restored hr) fun _ _ h => h.restored hr
  exact ⟨fun _ hok => hrestored.ok hok, fun _ _ herror => hrestored.error herror⟩

/-- `def f():` with `break`, `import dev.drivers` and a call of `g`, which is not defined. -/
def stumbling : FunctionDef :=
  let drivers : DottedName := ⟨[⟨"dev", default⟩, ⟨"drivers", default⟩], default⟩
  ⟨⟨"f", default⟩, [], [],
    [.breakLoop default, .importNames [⟨drivers, none, default⟩] default,
     .expr (.call (.name ⟨"g", default⟩) [] [] default) default], default⟩

/-- The beginning of the body of a loop, with `stumbling` defined. -/
def besideStumbling : Compilation :=
  ((Compilation.start none).declare stumbling).openLoop ⟨.ife, .reg .A, .lit 0⟩

/-- `A = f()` -/
def assignsF : Stmt :=
  .assign [.name ⟨"A", default⟩] (.call (.name ⟨"f", default⟩) [] [] default) default

/-- Whether an action fails in such a way, with such a state left. -/
def LowerM.failsWith (act : LowerM Unit) (c : Compilation)
    (check : Failure → Compilation → Bool) : Bool :=
  match act c with
  | .ok _ _ => false
  | .error failure c' => check failure c'

theorem LowerM.exists_of_failsWith {act : LowerM Unit} {c : Compilation}
    {check : Failure → Compilation → Bool} (h : act.failsWith c check = true) :
    ∃ failure c', act c = .error failure c' ∧ check failure c' = true := by
  unfold failsWith at h
  cases he : act c with
  | ok _ c' => simp [he] at h
  | error failure c' => exact ⟨failure, c', rfl, by simpa [he] using h⟩

/-- The call of `f` has a target too many. The body of `f`, in which two statements fail and one
starts an extension, is written first. -/
theorem stmt_restores_besideStumbling :
    let env := Environment.bundled [] (.empty [])
    env.registry.KeepsPlace ∧ ∃ failure c',
      LowerM.stmt env (LowerM.body env 1) assignsF besideStumbling = .error failure c' ∧
      c'.diagnostics.size = 2 ∧ besideStumbling.Restored c' := by
  intro env
  have hr : env.registry.KeepsPlace := stmt_restores.1
  have hfails : (LowerM.stmt env (LowerM.body env 1) assignsF).failsWith besideStumbling
      (fun _ c' => c'.diagnostics.size = 2) = true := by
    decide +kernel
  obtain ⟨failure, c', he, hcount⟩ := LowerM.exists_of_failsWith hfails
  have hrestored := (stmt_restores.2 env hr 1 assignsF besideStumbling).2 failure c' he
  exact ⟨hr, failure, c', he, of_decide_eq_true hcount, hrestored⟩

end P16
