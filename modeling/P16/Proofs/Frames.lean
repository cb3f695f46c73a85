import P16.Proofs.Restored

/-!
# What lowering leaves as it was

With the bundled extensions or none, more is known than what every construct puts back: numbers of
loops are not given out again, no line is lost or moved, and nothing stays set aside.
-/

namespace P16

open Compilation

namespace Compilation

theorem openBody_loopCount (c : Compilation) (key : FunctionKey) (f : FunctionSymbol) :
    (c.openBody key f).loopCount = c.loopCount := by
  unfold loopCount
  rw [openBody_program, Program.counters_writeAll]
  rfl

theorem closeBody_loopCount (key : FunctionKey) (c inner : Compilation) :
    (closeBody key c inner).loopCount = inner.loopCount := by
  unfold loopCount
  rw [closeBody_program, Program.counters_leaveFooter, Program.counters_writeAll]

end Compilation

structure Compilation.Frame (c c' : Compilation) : Prop extends Restored c c' where
  loopCount : c.loopCount ≤ c'.loopCount
  lines : c.program.everyLine ⊆ c'.program.everyLine
  setAside : c.program.openBlocks = 0 → c.program.setAside = #[] → c'.program.setAside = #[]
  continues : c.program.Continues c'.program

namespace Compilation.Frame

variable {c c' c₁ c₂ : Compilation}

theorem refl (c : Compilation) : Frame c c :=
  ⟨.refl c, le_rfl, List.Subset.refl _, fun _ h => h, .refl _⟩

theorem trans (h : Frame c c₁) (g : Frame c₁ c₂) : Frame c c₂ :=
  ⟨h.toRestored.trans g.toRestored, h.loopCount.trans g.loopCount,
    List.Subset.trans h.lines g.lines,
    fun ho hs => g.setAside (h.openBlocks.trans ho) (h.setAside ho hs),
    h.continues.trans g.continues⟩

theorem of_lines (h : Restored c c') {lines : List Line}
    (hp : c'.program = c.program.writeAll lines) : Frame c c' := by
  refine ⟨h, ?_, fun line hline => ?_, fun _ hs => ?_, ?_⟩
  · rw [Compilation.loopCount, Compilation.loopCount, hp, Program.counters_writeAll]
  · rw [hp, (c.program.everyLine_writeAll lines).mem_iff]
    exact List.mem_append_left _ hline
  · rw [hp, Program.setAside_writeAll, hs]
  · rw [hp]
    exact c.program.continues_writeAll lines

theorem writeAll (c : Compilation) (lines : List Line) :
    Frame c (c.write fun p => p.writeAll lines) :=
  of_lines (.writeAll c lines) rfl

theorem of_store (hp : c'.program = c.program) (hs : c'.scope = c.scope)
    (hc : c'.store.current = c.store.current) : Frame c c' :=
  of_lines (.of_store hp hs hc) (hp.trans (Program.writeAll_nil _).symm)

theorem giveBack {key : FunctionKey} {operands : List Operand}
    (h : c.Settles key operands.length c') :
    Frame c ((c'.write fun p => (p.pushAll operands).jumpBack).record
      (.giveBack key operands.length)) := by
  have hprogram : (c'.program.pushAll operands).jumpBack =
      c.program.writeAll (giveBackLines operands) := by
    rw [Program.giveBack_eq, h.program]
  exact of_lines (.giveBack h) hprogram

theorem call {key : FunctionKey} {results : List Register} (h : c.Settles key results.length c')
    (label : String) (arguments : List Operand) :
    Frame c ((c'.write fun p =>
      p.callSequence c'.scope.function?.isSome label arguments results).record
        (.call key results.length c'.scope.function?.isSome)) := by
  have hprogram : c'.program.callSequence c'.scope.function?.isSome label arguments results =
      c.program.writeAll (callLines c'.scope.function?.isSome label arguments results) := by
    rw [Program.callSequence_eq, h.program]
  exact of_lines (.call h label arguments) hprogram

theorem afterHook {given : String → Prop} {path : ModulePath} {act : HookM Unit}
    (h : act.Does given) (c : Compilation) : Frame c (c.afterHook path act) := by
  have hp := (h ⟨c.program, c.store.enter path, c.notes⟩).program
  obtain ⟨new, hnew, -⟩ := hp.lines
  refine ⟨.afterHook (fun t => ⟨(h t).program.active, (h t).program.openBlocks⟩) c, ?_,
    fun line hline => ?_, hp.setAside, hp.continues⟩
  · unfold Compilation.loopCount Compilation.afterHook
    rw [hp.counters]
  · exact hnew.mem_iff.mpr (List.mem_append_left _ hline)

theorem loop {inner : Compilation} {test : LoopTest} (h : Frame (c.openLoop test) inner) :
    Frame c (inner.closeLoop c.store.current c.nextLoop) := by
  refine ⟨.loop h.toRestored, ?_, fun line hline => ?_, fun ho hs => ?_, ?_⟩
  · have hcount := h.loopCount
    rw [openLoop_loopCount] at hcount
    rw [closeLoop_loopCount]
    omega
  · rw [(everyLine_closeLoop inner _ _).mem_iff]
    refine List.mem_append_left _ (h.lines ?_)
    exact (everyLine_openLoop c test).mem_iff.mpr (List.mem_append_left _ hline)
  · rw [closeLoop_program, Program.setAside_writeAll]
    apply h.setAside
    · rw [openLoop_program, Program.openBlocks_writeAll]
      exact ho
    · rw [openLoop_program, Program.setAside_writeAll]
      exact hs
  · have hcontinues := h.continues
    rw [openLoop_program] at hcontinues
    have hnumbered : c.program.Continues (c.program.nextCounter "loop").2 :=
      ⟨List.prefix_rfl, List.prefix_rfl⟩
    have hopened := (hnumbered.trans (Program.continues_writeAll _ _)).trans hcontinues
    rw [closeLoop_program]
    exact hopened.trans (Program.continues_writeAll _ _)

theorem body {inner : Compilation} {key : FunctionKey} {f : FunctionSymbol}
    (h : Frame (c.openBody key f) inner) : Frame c (closeBody key c inner) := by
  refine ⟨.body h.toRestored, ?_, fun line hline => ?_, fun ho _ => ?_, ?_⟩
  · rw [closeBody_loopCount, ← openBody_loopCount c key f]
    exact h.loopCount
  · have hopened := (everyLine_openBody c key f).mem_iff.mpr (List.mem_append_left _ hline)
    rw [(everyLine_closeBody c key inner).mem_iff]
    refine List.mem_append_left _ (List.mem_append.mpr ?_)
    exact (List.mem_append.mp hopened).imp_left fun hin => h.lines hin
  · have hopen : (c.openBody key f).program.openBlocks = c.program.openBlocks + 1 := by
      rw [openBody_program, Program.openBlocks_writeAll]
      rfl
    rw [closeBody_program]
    apply Program.setAside_leaveFooter
    rw [Program.openBlocks_writeAll, h.openBlocks, hopen, ho]
  · have hcontinues := h.continues
    rw [openBody_program] at hcontinues
    refine .inFooter (.trans ?_ (Program.continues_writeAll inner.program [.jumpBack]))
    exact (Program.continues_writeAll _ _).trans hcontinues

theorem begun {env : Environment} (hr : env.registry.OnlyBundled) (dotted : String)
    (c : Compilation) : Frame c (c.begun env dotted) := by
  unfold Compilation.begun
  dsimp only
  split
  · exact of_store rfl rfl rfl
  · rename_i e he
    have hdoes : (e.install dotted).Does fun _ => False :=
      install_does (Registry.mem_bundled (hr dotted e he)) dotted
    have hmarked : Frame c (({ c with imported := dotted :: c.imported }).record
        (.install dotted)) := of_store rfl rfl rfl
    exact hmarked.trans (afterHook hdoes _)

theorem loaded {inner : Compilation} {dotted file : String}
    (h : Frame (c.openModule dotted file) inner) : Frame c (c.leaveScope inner) :=
  ⟨.loaded h.toRestored, h.loopCount, h.lines, h.setAside, h.continues⟩

end Compilation.Frame

section frame

variable {env : Environment} (hr : env.registry.OnlyBundled) {code : List Stmt} {c c' : Compilation}
include hr

theorem Acts.frame (h : Acts env code c c') : Frame c c' := by
  cases h with
  | report failure => exact .of_store rfl rfl rfl
  | @line line _ => exact .writeAll c [line]
  | number hc hb hn => exact .of_store rfl rfl (current_defineNumbers _ _)
  | declare hm hd => exact .of_store rfl rfl rfl
  | giveBack hm hk ho hs => exact .giveBack hs
  | @beginImport dotted hi hd hs => exact .begun hr dotted c
  | hook hc he hl hh hp hk => exact .afterHook (hr.hook_does hh _) c

theorem Lowers.frame (h : Lowers env code c c') : Frame c c' := by
  induction h with
  | refl code c => exact .refl c
  | trans _ _ ih ih' => exact ih.trans ih'
  | act h => exact h.frame hr
  | call hc hk hf hn ha hres _ he hs ih => exact ih.trans (.call hs _ _)
  | loop hm ht _ ih => exact .loop ih
  | body hf he _ ih => exact .body ih
  | @loadModule _ c inner dotted file m hi hd hs _ ih =>
      exact (Frame.begun hr dotted c).trans (.loaded ih)

end frame

theorem setAside_compileModules {env : Environment} (hr : env.registry.OnlyBundled)
    (file? : Option String) (modules : List Module) :
    (compileModules env file? modules).program.setAside = #[] :=
  ((compileModules_lowers env file? modules).frame hr).setAside rfl rfl

end P16
