import P16.Proofs.FallThrough
import P16.Proofs.FooterBlocks
import P16.Proofs.KeptFunctions
import P16.Proofs.LoopCode
import P16.Proofs.Termination

/-!
# Control does not run into subroutines

All that lowering writes is a tree of emissions, in which the blocks are the subroutines: one for
each function whose body has been written, and one for the search for devices. The lines of each
block end in a barrier, and so do the lines that halt the program. So the code in front of a
subroutine is never left over its end, and a subroutine is only entered by a jump or a call.
-/

namespace P16

open Compilation

namespace Emission

/-- The own lines of a block that control can be kept in. -/
structure IsRoutine (block : List Line) : Prop where
  guarded : guarded block = true
  barrier : Barrier block

/-- All tests stand before jumps, and every block is a routine. -/
structure Sound (ops : List Emission) : Prop where
  own : guarded (own ops) = true
  blocks : ∀ block ∈ closed ops, IsRoutine block

def openings (ops : List Emission) : List (Option Line) := (closed ops).map List.head?

theorem openings_append (first rest : List Emission) :
    openings (first ++ rest) = openings first ++ openings rest := by
  rw [openings, closed_append, List.map_append]
  rfl

theorem Sound.append {first rest : List Emission} (hf : Sound first) (hr : Sound rest) :
    Sound (first ++ rest) := by
  constructor
  · rw [own_append]
    exact guarded_append hf.own hr.own
  · intro block hblock
    rw [closed_append] at hblock
    rcases List.mem_append.mp hblock with hblock | hblock
    · exact hf.blocks block hblock
    · exact hr.blocks block hblock

section lines

variable (lines : List Line) (p : Program)

theorem runAll_lines : runAll (lines.map line) p = p.writeAll lines := by
  induction lines generalizing p with
  | nil => rw [List.map_nil, runAll, Program.writeAll_nil]
  | cons l lines ih => rw [List.map_cons, runAll, run, ih, Program.writeAll_cons]

theorem own_lines : own (lines.map line) = lines := by
  induction lines with
  | nil => rfl
  | cons l lines ih => rw [List.map_cons, own, ih]

theorem closed_lines : closed (lines.map line) = [] := by
  induction lines with
  | nil => rw [List.map_nil, closed]
  | cons l lines ih => rw [List.map_cons, closed, closedIn, ih, List.nil_append]

theorem openings_lines : openings (lines.map line) = [] := by
  rw [openings, closed_lines, List.map_nil]

end lines

theorem Sound.of_guarded {lines : List Line} (h : guarded lines = true) :
    Sound (lines.map line) := by
  constructor
  · rwa [own_lines]
  · rw [closed_lines]
    exact List.forall_mem_nil _

theorem Sound.block {inner : List Emission} (hs : ∀ block ∈ closed inner, IsRoutine block)
    (hb : IsRoutine (Emission.own inner)) : Sound [block inner] := by
  refine ⟨rfl, fun block hblock => ?_⟩
  simp only [closed, closedIn, List.append_nil, List.mem_append, List.mem_singleton] at hblock
  rcases hblock with hblock | rfl
  · exact hs block hblock
  · exact hb

end Emission

open Emission

/-- The label of the subroutine that is written with an event. -/
def Event.subroutine? : Event → Option String
  | label path name =>
    if name.startsWith Builtin.reserved then none else some (path.mangle name)
  | install dotted =>
    if dotted = "dev.drivers" then some ((ModulePath.ofDotted dotted).mangle "initialize") else none
  | _ => none

namespace Compilation

/-- The labels of the subroutines that have been written: the functions with a body in the program
and the search for devices. -/
def subroutines (c : Compilation) : List String := c.events.filterMap Event.subroutine?

def entrances (c : Compilation) : List (Option Line) :=
  c.subroutines.map fun name => some (.label name)

/-- What has been written between two states is a tree of emissions, and its blocks are the
subroutines recorded meanwhile. -/
def Emits (c c' : Compilation) : Prop :=
  ∃ ops, c'.program = runAll ops c.program ∧ Sound ops ∧
    c'.entrances.Perm (openings ops ++ c.entrances)

variable {c c' c₁ c₂ : Compilation}

theorem Emits.of_lines {lines : List Line} (hp : c'.program = c.program.writeAll lines)
    (hg : guarded lines = true) (he : c'.subroutines = c.subroutines) : c.Emits c' := by
  refine ⟨lines.map .line, ?_, .of_guarded hg, ?_⟩
  · rw [runAll_lines, hp]
  · rw [openings_lines, entrances, he]
    exact .refl _

theorem Emits.of_program (hp : c'.program = c.program) (he : c'.subroutines = c.subroutines) :
    c.Emits c' := by
  have hnothing : c'.program = c.program.writeAll [] := hp
  exact of_lines hnothing rfl he

theorem Emits.trans (h : c.Emits c₁) (g : c₁.Emits c₂) : c.Emits c₂ := by
  obtain ⟨first, hfirst, hsound, hopen⟩ := h
  obtain ⟨rest, hrest, hsound', hopen'⟩ := g
  refine ⟨first ++ rest, ?_, hsound.append hsound', ?_⟩
  · rw [runAll_append, ← hfirst, hrest]
  · rw [openings_append, List.append_assoc]
    refine hopen'.trans ((hopen.append_left _).trans ?_)
    exact List.perm_append_comm_assoc _ _ _

theorem entrances_of_events {event : Event} {name : String} (he : c'.events = event :: c.events)
    (hn : event.subroutine? = some name) : c'.entrances = some (.label name) :: c.entrances := by
  unfold entrances subroutines
  rw [he, List.filterMap_cons_some hn, List.map_cons]

theorem Settles.subroutines {key : FunctionKey} {count : Nat} (h : c.Settles key count c') :
    c'.subroutines = c.subroutines :=
  congrArg (List.filterMap Event.subroutine?) h.events

end Compilation

section lines

theorem guarded_map {α : Type} {f : α → Line} (hf : ∀ a, (f a).isTest = false) (items : List α) :
    guarded (items.map f) = true := by
  apply guarded_of_no_test
  rw [List.any_map, List.any_eq_false]
  intro a _
  simp [hf a]

theorem guarded_giveBackLines (operands : List Operand) : guarded (giveBackLines operands) = true :=
  guarded_append (guarded_map (fun _ => rfl) operands) rfl

theorem guarded_callLines (nested : Bool) (name : String) (arguments : List Operand)
    (results : List Register) : guarded (callLines nested name arguments results) = true := by
  have hpushes := guarded_map (f := Line.push) (fun _ => rfl) arguments
  have hpops := guarded_map (f := fun x => Line.pop (.reg x)) (fun _ => rfl) results.reverse
  have hleave : guarded (leaveLines nested results) = true := by
    unfold leaveLines
    cases nested <;> exact guarded_append hpops rfl
  have hcall : guarded (.call name :: leaveLines nested results) = true := hleave
  unfold callLines enterLines
  cases nested <;> exact guarded_append (guarded_append rfl hpushes) hcall

theorem guarded_prologueLines (f : FunctionSymbol) : guarded f.prologueLines = true :=
  guarded_map (f := fun x => Line.pop (.reg x)) (fun _ => rfl) _

theorem guarded_headerLines (test : LoopTest) (labels : LoopLabels) (bodyLabel : String) :
    guarded (test.headerLines labels bodyLabel) = true := by
  unfold LoopTest.headerLines
  split <;> simp [guarded, Line.isTest, Line.isJump, Line.jump, Line.set, BasicOpcode.test?]

theorem Compilation.Straight.isTest {c : Compilation} {line : Line} (h : c.Straight line) :
    line.isTest = false := by
  cases h with
  | @augment _ _ op opcode _ _ ho _ _ => cases op <;> cases ho <;> rfl
  | _ => rfl

end lines

namespace HookM

variable {α β : Type}

/-- The action writes lines without tests, and no blocks. -/
def Writes (act : HookM α) : Prop :=
  ∀ t, ∃ lines, (act.finish t).program = t.program.writeAll lines ∧ lines.any Line.isTest = false

theorem Writes.of_program {act : HookM α} (h : ∀ t, (act.finish t).program = t.program) :
    Writes act :=
  fun t => ⟨[], h t, rfl⟩

theorem Writes.bind {act : HookM α} {f : α → HookM β} (h : Writes act)
    (hf : ∀ a, Writes (f a)) : Writes (act >>= f) := by
  intro t
  obtain ⟨first, hfirst, htests⟩ := h t
  unfold finish at hfirst ⊢
  simp only [Bind.bind, EStateM.bind]
  cases he : act t with
  | ok a t₁ =>
      obtain ⟨rest, hrest, htests'⟩ := hf a t₁
      rw [he] at hfirst
      refine ⟨first ++ rest, ?_, by simp only [List.any_append, htests, htests', Bool.or_false]⟩
      rw [Program.writeAll_append, ← hfirst]
      exact hrest
  | error message t₁ =>
      rw [he] at hfirst
      exact ⟨first, hfirst, htests⟩

theorem Writes.check_bind {x : Except String α} {f : α → HookM β} (hf : ∀ a, Writes (f a)) :
    Writes ((MonadExcept.ofExcept x : HookM α) >>= f) := by
  cases x with
  | error message => exact .of_program fun _ => rfl
  | ok a => exact hf a

theorem Writes.write (lines : List Line) (h : lines.any Line.isTest = false) :
    Writes (write fun p => p.writeAll lines) :=
  fun _ => ⟨lines, rfl, h⟩

end HookM

section bundled

variable (args : CallArguments)

theorem ScreenText.write_writes (colors : ScreenText.Colors) (location : Int) (text : List Char) :
    (ScreenText.write colors location text).Writes := by
  induction text generalizing location with
  | nil => exact .of_program fun _ => rfl
  | cons c text ih =>
      refine .check_bind fun word => .check_bind fun target => .bind ?_ fun _ => ih _
      exact .write [.set target (.lit word)] rfl

theorem Memory.set_writes : (Memory.set args).Writes := by
  refine .check_bind fun _ => .check_bind fun location => .check_bind fun value => ?_
  exact .write [.set (.mem location) value] rfl

theorem Memory.setString_writes : (Memory.setString args).Writes := by
  refine .check_bind fun _ => .check_bind fun start => .check_bind fun text => ?_
  exact .check_bind fun foreground => .check_bind fun background => ScreenText.write_writes _ _ _

theorem Cpu.interrupt_writes : (Cpu.interrupt args).Writes := by
  refine .check_bind fun _ => .check_bind fun device => .check_bind fun message => ?_
  exact .write [.push (.reg .A), .set (.reg .A) message, .instruction (.special .hwi device),
    .pop (.reg .A)] rfl

theorem Display.configure_writes : (Display.configure args).Writes :=
  .check_bind fun _ => .of_program fun _ => rfl

theorem Display.writeStatic_writes : (Display.writeStatic args).Writes := by
  refine .check_bind fun _ => .check_bind fun text => .check_bind fun location => ?_
  refine .bind (.of_program fun _ => rfl) fun store => ?_
  exact .check_bind fun foreground => .check_bind fun background => ScreenText.write_writes _ _ _

theorem hook_writes {e : Extension}
    (he : e ∈ [Cpu.extension, Display.extension, Drivers.extension, Memory.extension])
    {name : String} {hook : Hook} (hh : e.hook? name = some hook) : (hook.run args).Writes := by
  have hmem : hook ∈ e.hooks := List.mem_reverse.mp (List.mem_of_find?_eq_some hh)
  simp only [List.mem_cons, List.not_mem_nil, or_false] at he
  rcases he with rfl | rfl | rfl | rfl
  · rcases hmem with ⟨⟩ | ⟨_, ⟨⟩⟩
    exact Cpu.interrupt_writes args
  · rcases hmem with ⟨⟩ | ⟨_, ⟨⟩ | ⟨_, ⟨⟩⟩⟩
    · exact Display.configure_writes args
    · exact Display.writeStatic_writes args
  · cases hmem
  · rcases hmem with ⟨⟩ | ⟨_, ⟨⟩ | ⟨_, ⟨⟩⟩⟩
    · exact Memory.set_writes args
    · exact Memory.setString_writes args

end bundled

/-- The search for devices ends in the word of the last device, behind a jump. -/
theorem Drivers.isRoutine_routineLines (path : ModulePath) : IsRoutine (routineLines path) where
  guarded := rfl
  barrier := by
    refine ⟨(routineLines path).dropLast.dropLast.dropLast, .jump (path.mangle "continue"),
      [.label (path.mangle "vector_display"), .instruction (.data [.lit 0xffff])], rfl, rfl, ?_,
      .inr ⟨_, _, rfl⟩⟩
    rintro last ⟨⟩
    rfl

theorem Registry.startUp?_of_bundled {name : String} {e : Extension}
    (h : bundled.find? name = some e) :
    name = "dev.drivers" ∧ e = Drivers.extension ∨ name ≠ "dev.drivers" ∧ e.startUp? = none := by
  have hentries : bundled.entries = [("dev.cpu", Cpu.extension), ("dev.display", Display.extension),
      ("dev.drivers", Drivers.extension), ("mem", Memory.extension)] := by
    rfl
  unfold find? at h
  obtain ⟨entry, hentry, rfl⟩ := Option.map_eq_some_iff.mp h
  have hname : entry.1 = name := by simpa using List.find?_some hentry
  have hmem := List.mem_of_find?_eq_some hentry
  rw [hentries] at hmem
  simp only [List.mem_cons, List.not_mem_nil, or_false] at hmem
  rcases hmem with rfl | rfl | rfl | rfl
  · exact .inr ⟨by rw [← hname]; decide, rfl⟩
  · exact .inr ⟨by rw [← hname]; decide, rfl⟩
  · exact .inl ⟨hname.symm, rfl⟩
  · exact .inr ⟨by rw [← hname]; decide, rfl⟩

theorem Drivers.program_install (name : String) (t : Target) {path : ModulePath}
    (hpath : t.store.current = path) :
    ((Drivers.extension.install name).finish t).program =
      (t.program.writeAll (startUpLines path)).inFooter fun p =>
        p.writeAll (routineLines path) := by
  have hfinish : (Drivers.extension.install name).finish t =
      ⟨(t.program.writeAll (startUpLines (Drivers.extension.define name t.store).current)).inFooter
        fun p => p.writeAll (routineLines (Drivers.extension.define name t.store).current),
        Drivers.extension.define name t.store, t.notes⟩ := by
    rfl
  rw [hfinish, (Drivers.extension.define_keepsOthers name t.store).current, hpath]

/-- Installing `dev.drivers` writes a call of the search for devices, and the search as a block. -/
theorem Drivers.emits_startUp (c : Compilation) {c' : Compilation} (path : ModulePath)
    (hp : c'.program = (c.program.writeAll (startUpLines path)).inFooter fun p =>
      p.writeAll (routineLines path))
    (he : c'.entrances = some (.label (path.mangle "initialize")) :: c.entrances) : c.Emits c' := by
  have hinside : runAll ((routineLines path).map .line) = fun p => p.writeAll (routineLines path) :=
    funext fun p => runAll_lines _ p
  refine ⟨(startUpLines path).map .line ++ [.block ((routineLines path).map .line)], ?_, ?_, ?_⟩
  · rw [runAll_append, runAll_lines, runAll, runAll, run, hinside, hp]
  · refine (Sound.of_guarded rfl).append (.block ?_ ?_)
    · rw [closed_lines]
      exact List.forall_mem_nil _
    · rw [own_lines]
      exact isRoutine_routineLines path
  · have hopen : openings [.block ((routineLines path).map .line)] =
        [some (.label (path.mangle "initialize"))] := by
      simp only [openings, closed, closedIn, closed_lines, own_lines]
      rfl
    rw [openings_append, openings_lines, hopen, he]
    exact .refl _

theorem Compilation.begun_of_extension {env : Environment} {dotted : String} {e : Extension}
    (c : Compilation) (he : env.registry.find? dotted = some e) :
    (c.begun env dotted).program =
        ((e.install dotted).finish ⟨c.program, c.store.enter (.ofDotted dotted), c.notes⟩).program ∧
      (c.begun env dotted).events = .install dotted :: c.events := by
  unfold begun
  rw [he]
  exact ⟨rfl, rfl⟩

section hooks

variable {env : Environment} (hr : env.registry.OnlyBundled) (c : Compilation)
include hr

theorem Compilation.emits_afterHook {ref : HookRef} {hook : Hook}
    (h : env.registry.hook? ref = some hook) (path : ModulePath) (args : CallArguments) :
    c.Emits (c.afterHook path (hook.run args)) := by
  obtain ⟨e, he, hh⟩ := Option.bind_eq_some_iff.mp h
  have hwrites := hook_writes args (Registry.mem_bundled (hr _ e he)) hh
  obtain ⟨lines, hlines, htests⟩ := hwrites ⟨c.program, c.store.enter path, c.notes⟩
  exact .of_lines hlines (guarded_of_no_test htests) rfl

theorem Compilation.emits_begun (dotted : String) : c.Emits (c.begun env dotted) := by
  cases he : env.registry.find? dotted with
  | none =>
      unfold begun
      rw [he]
      exact .of_program rfl rfl
  | some e =>
      obtain ⟨hprogram, hevents⟩ := c.begun_of_extension he
      rcases Registry.startUp?_of_bundled (hr _ e he) with ⟨rfl, rfl⟩ | ⟨hne, hnone⟩
      · have hevent : Event.subroutine? (.install "dev.drivers") =
            some ((ModulePath.ofDotted "dev.drivers").mangle "initialize") := by
          simp [Event.subroutine?]
        rw [Drivers.program_install _ _ (c.store.current_enter _)] at hprogram
        exact Drivers.emits_startUp c _ hprogram (entrances_of_events hevents hevent)
      · have hevent : Event.subroutine? (.install dotted) = none := if_neg hne
        refine .of_program ?_ ?_
        · rw [hprogram, Extension.install, hnone]
          rfl
        · rw [subroutines, hevents, List.filterMap_cons_none hevent]
          rfl

end hooks

/-- Every function has the label of its name, which is not a reserved one. -/
def Compilation.Labelled (c : Compilation) : Prop :=
  ∀ key f, c.function? key = some f →
    f.label = key.path.mangle key.name ∧ key.name.startsWith Builtin.reserved = false

section labelled

variable {env : Environment} (hr : env.registry.AddsNoFunction) {entry code : List Stmt}
  {m m' : Moment} {c c' : Compilation}
include hr

theorem Step.labelled (h : Step env entry m m') (hm : m.now.Labelled) : m'.now.Labelled := by
  intro key f hf
  obtain ⟨old?, hold, hchange⟩ := h.change_to hr hf
  cases hchange with
  | same => exact hm key f (function?_eq_some.mpr hold)
  | provided hnone _ => cases hnone
  | declared hd hk => exact hk ▸ ⟨rfl, hd.unreserved⟩
  | @begun g hp => exact hm key g (function?_eq_some.mpr hold)
  | @fixed g n hn hfix => exact hm key g (function?_eq_some.mpr hold)

theorem Lowers.labelled (h : Lowers env code c c') (hc : c.Labelled) : c'.Labelled := by
  obtain ⟨passed, hcourse⟩ : Passes env code ⟨c, []⟩ ⟨c', []⟩ := h.passes (List.Subset.refl _)
  exact hcourse.forall_mem hc (fun _ _ hm hs => hs.labelled hr hm) _ List.mem_cons_self

end labelled

namespace Compilation

variable (c : Compilation)

theorem emits_openLoop (test : LoopTest) : c.Emits (c.openLoop test) := by
  have hevents (n : Nat) :
      (test.labelEvents c.store.current n).filterMap Event.subroutine? = [] := by
    unfold LoopTest.labelEvents
    split <;> simp [Event.subroutine?, loopName_reserved]
  let counted : Compilation := { c with program := (c.program.nextCounter "loop").2 }
  have hcount : c.Emits counted := by
    refine ⟨[.count "loop"], ?_, ⟨rfl, by simp⟩, ?_⟩
    · rw [runAll, runAll, run]
    · simp only [openings, closed, closedIn]
      exact .refl _
  have hsame : (c.openLoop test).subroutines = counted.subroutines := by
    unfold subroutines
    change (test.labelEvents c.store.current c.nextLoop ++ c.events).filterMap _ = _
    rw [List.filterMap_append, hevents, List.nil_append]
  exact hcount.trans (.of_lines (c.openLoop_program test) (guarded_headerLines _ _ _) hsame)

theorem emits_closeLoop (path : ModulePath) (n : Nat) : c.Emits (c.closeLoop path n) := by
  have hevent : Event.subroutine? (.label path (loopName n "end")) = none := by
    simp [Event.subroutine?, loopName_reserved]
  exact .of_lines (c.closeLoop_program path n) rfl (List.filterMap_cons_none hevent)

theorem isRoutine_body (f : FunctionSymbol) {lines : List Line} (h : guarded lines = true) :
    IsRoutine (f.prologueLines ++ lines ++ [.jumpBack]) := by
  have hfront := guarded_append (guarded_prologueLines f) h
  refine ⟨guarded_append hfront rfl, f.prologueLines ++ lines, .jumpBack, [], rfl, rfl, ?_,
    .inl rfl⟩
  exact getLast?_isTest_of_guarded hfront

/-- The body of a function is one block, in which the bodies written meanwhile are blocks. -/
theorem Emits.body {c inner : Compilation} {key : FunctionKey} {f : FunctionSymbol}
    (h : (c.openBody key f).Emits inner) (hl : f.label = key.path.mangle key.name)
    (hn : key.name.startsWith Builtin.reserved = false) : c.Emits (closeBody key c inner) := by
  obtain ⟨ops, hp, hs, ho⟩ := h
  let inside := f.prologueLines.map .line ++ ops ++ [.line .jumpBack]
  have hown : own inside = f.prologueLines ++ own ops ++ [.jumpBack] := by
    simp only [inside, own_append, own_lines, own]
  have hclosed : closed inside = closed ops := by
    simp [inside, closed_append, closed_lines]
  have hevents : (closeBody key c inner).entrances = inner.entrances := rfl
  have hentrance : (c.openBody key f).entrances = some (.label f.label) :: c.entrances := by
    have hevent : Event.subroutine? (.label key.path key.name) = some f.label := by
      simp [Event.subroutine?, hn, hl]
    exact entrances_of_events rfl hevent
  refine ⟨[.block inside], ?_, ?_, ?_⟩
  · rw [runAll, runAll, run, Program.inFooter, closeBody_program, hp, openBody_program]
    simp only [inside, runAll_append, runAll_lines]
    rw [runAll, runAll, run]
    rfl
  · apply Sound.block
    · rw [hclosed]
      exact hs.blocks
    · rw [hown]
      exact isRoutine_body f hs.own
  · have hopen : openings [.block inside] = openings ops ++ [some (.label f.label)] := by
      simp only [openings, closed, closedIn, hclosed, hown, List.append_nil, List.map_append]
      rfl
    rw [hopen, hevents, List.append_assoc, List.singleton_append, ← hentrance]
    exact ho

end Compilation

section emits

variable {env : Environment} (hr : env.registry.OnlyBundled) {code : List Stmt}
  {c c' : Compilation}
include hr

theorem Acts.emits (h : Acts env code c c') : c.Emits c' := by
  cases h with
  | report failure => exact .of_program rfl rfl
  | @line l h =>
      have hline : (c.write fun p => p.write l).program = c.program.writeAll [l] := rfl
      exact .of_lines hline (guarded_of_no_test (by simp [h.isTest])) rfl
  | number hc hb hn => exact .of_program rfl rfl
  | declare hm hd => exact .of_program rfl rfl
  | @giveBack c₁ key value? span operands hm hk ho hs =>
      refine .of_lines ?_ (guarded_giveBackLines operands) hs.subroutines
      rw [← hs.program, ← Program.giveBack_eq]
      rfl
  | @beginImport dotted hi hd hs => exact c.emits_begun hr dotted
  | hook hc he hl hh hp hk => exact c.emits_afterHook hr hh _ _

theorem Lowers.emits (h : Lowers env code c c') (hc : c.Labelled) : c.Emits c' := by
  have hadds := hr.addsNoFunction
  induction h with
  | refl code c => exact .of_program rfl rfl
  | trans h _ ih ih' => exact (ih hc).trans (ih' (h.labelled hadds hc))
  | act h => exact h.emits hr
  | @call _ c c₁ c₂ key f site targets arguments results _ _ _ _ _ _ _ _ hs ih =>
      have hcall := guarded_callLines c₂.scope.function?.isSome f.label arguments results
      refine (ih hc).trans (.of_lines ?_ hcall hs.subroutines)
      rw [← hs.program, ← Program.callSequence_eq]
      rfl
  | @loop _ _ c inner _ _ test hm ht h ih =>
      have hopen := c.emits_openLoop test
      exact (hopen.trans (ih hc)).trans (inner.emits_closeLoop _ _)
  | @body code c inner key f hf he h ih =>
      have hstep : Step env [] ⟨c, []⟩ ⟨c.openBody key f, [.body key f c]⟩ := .beginBody hf he
      obtain ⟨hlabel, hname⟩ := hc key f hf
      exact (ih (hstep.labelled hadds hc)).body hlabel hname
  | @loadModule code c inner dotted file m hi hd hs h ih =>
      have hbegun : (c.begun env dotted).Labelled := by
        have hact : Lowers env code c (c.begun env dotted) :=
          .act (.beginImport hi hd (.inr (by simp [hs])))
        exact hact.labelled hadds hc
      have hopen : ((c.begun env dotted).openModule dotted file).Labelled := by
        intro key f hf
        rw [function?_eq_some] at hf
        exact hbegun key f (function?_eq_some.mpr ((Store.lookup?_enter ..).symm.trans hf))
      have hbegin : (c.begun env dotted).Emits ((c.begun env dotted).openModule dotted file) :=
        .of_program rfl rfl
      have hend : inner.Emits ((c.begun env dotted).leaveScope inner) := .of_program rfl rfl
      exact ((c.emits_begun hr dotted).trans hbegin).trans ((ih hopen).trans hend)

end emits

section front

variable {code : List Line} (hc : guarded code = true) {blocks : List (List Line)}
  (hb : ∀ block ∈ blocks, IsRoutine block)
include hc hb

theorem guarded_front : guarded (code ++ Program.haltLines ++ blocks.flatten) = true := by
  have hblocks : guarded blocks.flatten = true := by
    induction blocks with
    | nil => rfl
    | cons block blocks ih =>
        obtain ⟨hblock, hrest⟩ := List.forall_mem_cons.mp hb
        exact guarded_append hblock.guarded (ih hrest)
  exact guarded_append (guarded_append hc rfl) hblocks

/-- Whatever stands in front of a subroutine ends in a barrier. -/
theorem barrier_front : Barrier (code ++ Program.haltLines ++ blocks.flatten) := by
  rcases List.eq_nil_or_concat blocks with rfl | ⟨init, last, rfl⟩
  · have htrap : Barrier Program.haltLines := by
      refine ⟨[.jump Program.haltLabel, .label Program.haltLabel], .jump Program.haltLabel, [], rfl,
        rfl, ?_, .inl rfl⟩
      rintro last ⟨⟩
      rfl
    rw [List.flatten_nil, List.append_nil]
    exact htrap.prepend code (getLast?_isTest_of_guarded hc)
  · rw [List.concat_eq_append] at hb ⊢
    obtain ⟨hinit, hlast⟩ := List.forall_mem_append.mp hb
    have hbefore := getLast?_isTest_of_guarded (guarded_front hc hinit)
    rw [List.flatten_append, List.flatten_singleton, ← List.append_assoc]
    exact (hlast last (List.mem_singleton_self last)).barrier.prepend _ hbefore

end front

/-- The program is its body, the lines that halt it, and the blocks. Control goes from the body to
the lines that halt it, and from no line to a block behind it, unless by a jump or a call. -/
structure Program.KeepsApart (p : Program) (blocks : List (List Line)) : Prop where
  lines : p.lines = p.body.toList ++ haltLines ++ blocks.flatten
  /-- The end of the body is not passed over. -/
  body : ∀ last ∈ p.body.toList.getLast?, last.isTest = false
  barrier : ∀ before block after, blocks = before ++ block :: after →
    Barrier (p.body.toList ++ haltLines ++ before.flatten)
  halts : ∀ (m : Machine) (s : Machine.State), m.lines = p.lines → s.line ≤ p.body.size →
    (∀ u, m.Reaches s u → u.line < p.body.size → ∃ v, m.GoesOn u v) →
    ∃ t, m.Reaches s t ∧ t.line = p.body.size
  stays : ∀ (m : Machine) (s t : Machine.State), m.lines = p.lines → m.GoesOn s t →
    ∀ before block after, blocks = before ++ block :: after →
      s.line < (p.body.toList ++ haltLines ++ before.flatten).length →
      t.line < (p.body.toList ++ haltLines ++ before.flatten).length

theorem Emission.Sound.keepsApart {ops : List Emission} (h : Sound ops) :
    (runAll ops .start).KeepsApart (placed ops) := by
  have hgrows := runAll_outside ops (p := Program.start) rfl rfl rfl
  have hbody : guarded (runAll ops .start).body.toList = true := by
    rw [hgrows.body]
    exact h.own
  have hsize : (runAll ops .start).body.size = (runAll ops .start).body.toList.length := by simp
  have hlines : (runAll ops .start).lines =
      (runAll ops .start).body.toList ++ Program.haltLines ++ (placed ops).flatten := by
    rw [Program.lines, hgrows.footer, Program.footer_start, List.append_assoc]
  have hblocks : ∀ block ∈ placed ops, IsRoutine block := fun block hblock =>
    h.blocks block ((placed_perm_closed ops).mem_iff.mp hblock)
  constructor
  case lines => exact hlines
  case body => exact getLast?_isTest_of_guarded hbody
  case barrier =>
    rintro before block after heq
    rw [heq] at hblocks
    exact barrier_front hbody fun block hmem => hblocks block (List.mem_append_left _ hmem)
  case halts =>
    intro m s hm hs hon
    rw [hlines, List.append_assoc] at hm
    rw [hsize] at hs hon ⊢
    exact Machine.exists_reaches_end hm hbody hs hon
  case stays =>
    intro m s t hm hon before block after heq hs
    rw [heq] at hblocks
    have hfront : ∀ block ∈ before, IsRoutine block := fun block hmem =>
      hblocks block (List.mem_append_left _ hmem)
    rw [hlines, heq, List.flatten_append, ← List.append_assoc] at hm
    exact (hon.within hm (guarded_front hbody hfront) hs).2.2 (barrier_front hbody hfront)

/-- The subroutines stand apart in every compiled program, also when there have been errors. -/
theorem subroutines_kept_apart (env : Environment) (hr : env.registry.OnlyBundled)
    (file? : Option String) (modules : List Module) :
    ∃ blocks, (blocks.map List.head?).Perm (compileModules env file? modules).entrances ∧
      (compileModules env file? modules).program.KeepsApart blocks := by
  have hstart : (Compilation.start file?).Labelled := by
    intro key f hf
    have hnone := Store.lookup?_start key.path key.name
    cases hnone.symm.trans (function?_eq_some.mp hf)
  have hnothing : (Compilation.start file?).entrances = [] := by
    simp [entrances, subroutines, Compilation.start, Event.subroutine?, haltLabel_reserved]
  obtain ⟨ops, hp, hs, ho⟩ := (compileModules_lowers env file? modules).emits hr hstart
  refine ⟨placed ops, ?_, ?_⟩
  · rw [hnothing, List.append_nil] at ho
    exact ((placed_perm_closed ops).map _).trans ho.symm
  · rw [hp]
    exact hs.keepsApart

/-- A loop that calls `f` and a call of a function inside which devices are searched. -/
def searching : Module :=
  let drivers : DottedName := ⟨[⟨"dev", default⟩, ⟨"drivers", default⟩], default⟩
  let f := Expr.call (.name ⟨"f", default⟩) [] [] default
  let g := Expr.call (.name ⟨"g", default⟩) [] [] default
  let test := Expr.compare (.name ⟨"A", default⟩) [(.gt, .number 0 default)] default
  ⟨[.define ⟨"f", default⟩ [] [] [.pass default] default,
    .define ⟨"g", default⟩ [] [] [.importNames [⟨drivers, none, default⟩] default,
      .whileLoop test [.expr f default] default] default,
    .whileLoop test [.expr g default, .breakLoop default] default,
    .breakLoop default], default⟩

/-- The two functions, and the module whose extension searches for devices. -/
def searchingReach : Reach := ⟨{⟨.root, "f"⟩, ⟨.root, "g"⟩}, {"dev.drivers"}⟩

theorem compile_searching : compileModules (.bundled [] (.empty [])) none [searching] =
    LowerM.body (.bundled [] (.empty [])) 4 searching.body (.start none) := by
  have hr := Registry.onlyBundled_bundled.addsNoFunction
  have hclosed : searchingReach.Closed (.bundled [] (.empty [])) := by
    refine .of_files hr fun dotted hdotted file m hs => ?_
    cases Finset.mem_singleton.mp hdotted
    cases hs
  exact compileModules_eq_body hr hclosed (.start _ (by decide +kernel) (by decide +kernel))
    (by decide +kernel)

/-- Three subroutines are written, the search for devices inside one of the others. -/
theorem subroutines_kept_apart_searching :
    (Environment.bundled [] (.empty [])).registry.OnlyBundled ∧
      (compileModules (.bundled [] (.empty [])) none [searching]).subroutines.length = 3 ∧
      ∃ blocks, (blocks.map List.head?).Perm
          (compileModules (.bundled [] (.empty [])) none [searching]).entrances ∧
        (compileModules (.bundled [] (.empty [])) none [searching]).program.KeepsApart blocks := by
  refine ⟨Registry.onlyBundled_bundled, ?_, ?_⟩
  · rw [compile_searching]
    decide +kernel
  · exact subroutines_kept_apart _ Registry.onlyBundled_bundled none [searching]

end P16
