import Mathlib.Data.List.Perm.Basic
import P16.Proofs.Frames
import P16.Proofs.Termination

/-!
# Label lines are written once

A label line is written for a name of a module: for the halting loop, for the loops by their
numbers, and for the functions. Without extensions, no name of a module gets two of them. Functions
are protected by the rule that a name in use cannot be defined as a function, and by the reserved
names, which are those of the other labels.

`LabelsOnce pending held c` is kept by all that lowering can do. `pending` are the ends of the loops
that are open, whose names are given but not written yet, and `held` are the lines that the open
footer blocks have taken out of the program.
-/

namespace P16

/-- The names of the label lines before a loop's body. -/
def LoopTest.origins (test : LoopTest) (path : ModulePath) (n : Nat) : List Origin :=
  if test.op = .ifg then [(path, loopName n "body"), (path, loopName n "start")]
  else [(path, loopName n "start")]

theorem LoopTest.start_mem_origins (test : LoopTest) (path : ModulePath) (n : Nat) :
    (path, loopName n "start") ∈ test.origins path n := by
  unfold origins
  split <;> simp

theorem Compilation.origins_openLoop (test : LoopTest) (c : Compilation) :
    (c.openLoop test).origins = test.origins c.store.current c.nextLoop ++ c.origins := by
  change (test.labelEvents c.store.current c.nextLoop ++ c.events).filterMap _ = _
  unfold LoopTest.labelEvents LoopTest.origins
  split <;> rfl

namespace Compilation

/-- A name for which a label line may have been written. -/
inductive Taken (c : Compilation) : Origin → Prop where
  | halt (path : ModulePath) : c.Taken (path, Program.haltLabel)
  | loop {path : ModulePath} {n : Nat} {part : String} (hpos : 0 < n) (h : n ≤ c.loopCount) :
      c.Taken (path, loopName (loopNumber n) part)
  | symbol {path : ModulePath} {name : String} (h : (c.store.lookup? path name).isSome)
      (hr : name.startsWith Builtin.reserved = false) : c.Taken (path, name)

theorem Taken.mono {c c' : Compilation} {o : Origin} (h : c.Taken o)
    (hn : c.loopCount ≤ c'.loopCount)
    (hl : ∀ path name, (c.store.lookup? path name).isSome → (c'.store.lookup? path name).isSome) :
    c'.Taken o := by
  cases h with
  | halt path => exact .halt path
  | loop hpos h => exact .loop hpos (h.trans hn)
  | symbol h hr => exact .symbol (hl _ _ h) hr

theorem not_taken_loopName {c : Compilation} {path : ModulePath} {part : String}
    (hfew : c.loopCount < 0x100000000) : ¬ c.Taken (path, loopName c.nextLoop part) := by
  intro h
  generalize ho : (path, loopName c.nextLoop part) = o at h
  cases h with
  | halt path => exact loopName_ne_haltLabel _ _ (Prod.ext_iff.mp ho).2
  | loop hpos h =>
      have hnumber := (loopName_inj.mp (Prod.ext_iff.mp ho).2).1
      rw [nextLoop_eq, loopNumber_inj (Nat.succ_pos _) hpos (by omega) (by omega)] at hnumber
      omega
  | symbol h hr =>
      obtain ⟨rfl, rfl⟩ := Prod.ext_iff.mp ho
      simp [loopName_reserved] at hr

theorem Taken.isSome {c : Compilation} {path : ModulePath} {name : String}
    (h : c.Taken (path, name)) (hr : name.startsWith Builtin.reserved = false) :
    (c.store.lookup? path name).isSome := by
  cases h with
  | halt => simp [haltLabel_reserved] at hr
  | loop hpos h => simp [loopName_reserved] at hr
  | symbol h => exact h

end Compilation

open Compilation

/-- A function has the label of its name, and as long as its body is not written, no label line has
been written for it. -/
def FreshSymbol (written : List Origin) (path : ModulePath) (name : String) (symbol : Symbol) :
    Prop :=
  ∀ f, symbol = .function f → f.label = path.mangle name ∧
    name.startsWith Builtin.reserved = false ∧ (f.emitted = false → (path, name) ∉ written)

structure LabelsOnce (pending : List Origin) (held : List Line) (c : Compilation) : Prop where
  nodup : (pending ++ c.origins).Nodup
  taken : ∀ o ∈ pending ++ c.origins, c.Taken o
  symbols : c.store.All (FreshSymbol (pending ++ c.origins))
  lines : (labelNames (c.program.everyLine ++ held)).Perm (c.origins.map fun o => o.1.mangle o.2)

namespace LabelsOnce

variable {env : Environment} {pending : List Origin} {held : List Line} {c c' : Compilation}

theorem keep (h : LabelsOnce pending held c) (ho : c'.origins = c.origins)
    (hn : c.loopCount ≤ c'.loopCount)
    (hk : ∀ path name, (c.store.lookup? path name).isSome → (c'.store.lookup? path name).isSome)
    (hs : c'.store.All (FreshSymbol (pending ++ c.origins)))
    (hl : (labelNames c'.program.everyLine).Perm (labelNames c.program.everyLine)) :
    LabelsOnce pending held c' := by
  constructor
  · rw [ho]
    exact h.nodup
  · intro o hmem
    rw [ho] at hmem
    exact (h.taken o hmem).mono hn hk
  · rw [ho]
    exact hs
  · rw [ho]
    rw [labelNames_append]
    refine (hl.append_right _).trans ?_
    rw [← labelNames_append]
    exact h.lines

theorem writeAll (h : LabelsOnce pending held c) (lines : List Line) (hl : labelNames lines = []) :
    LabelsOnce pending held (c.write fun p => p.writeAll lines) := by
  refine h.keep rfl ?_ (fun _ _ => id) h.symbols ?_
  · simp [loopCount, write]
  · simpa [hl, write] using c.program.labelNames_writeAll lines []

theorem updateFunction (h : LabelsOnce pending held c) (key : FunctionKey)
    {g : FunctionSymbol → FunctionSymbol}
    (hg : ∀ f, (g f).label = f.label ∧ (g f).emitted = f.emitted) :
    LabelsOnce pending held (c.updateFunction key g) := by
  refine h.keep rfl le_rfl (fun path name hl => ?_) ?_ .rfl
  · change ((c.store.updateFunction _ _ _).lookup? _ _).isSome
    rwa [Store.isSome_lookup?_updateFunction]
  · refine h.symbols.updateFunction fun f hf => ?_
    obtain ⟨hlabel, hname, hfresh⟩ :=
      h.symbols _ _ _ ((c.store.functionIn?_eq_some _ _).mp hf) f rfl
    rintro _ ⟨⟩
    rw [(hg f).1, (hg f).2]
    exact ⟨hlabel, hname, hfresh⟩

theorem settles (h : LabelsOnce pending held c) {key : FunctionKey} {count : Nat}
    (hs : c.Settles key count c') : LabelsOnce pending held c' := by
  cases hs with
  | agrees _ => exact h
  | fixes _ => exact h.updateFunction key fun f => ⟨rfl, rfl⟩

theorem record (h : LabelsOnce pending held c) (event : Event) (he : event.origin? = none) :
    LabelsOnce pending held (c.record event) :=
  h.keep (by simp [origins, Compilation.record, he]) le_rfl (fun _ _ => id) h.symbols .rfl

theorem number (h : LabelsOnce pending held c) (names : List String) :
    LabelsOnce pending held (c.updateStore (LowerM.defineNumbers names)) := by
  refine h.keep rfl le_rfl (fun path name hl => ?_) (fun path name symbol hl => ?_) .rfl
  · change ((LowerM.defineNumbers names c.store).lookup? path name).isSome
    rcases lookup?_defineNumbers names c.store path name with ⟨-, he⟩ | ⟨-, n, he⟩
    · rwa [he]
    · rw [he]
      rfl
  · change (LowerM.defineNumbers names c.store).lookup? path name = some symbol at hl
    rcases lookup?_defineNumbers names c.store path name with ⟨-, he⟩ | ⟨-, n, he⟩
    · exact h.symbols _ _ _ (he ▸ hl)
    · rw [he] at hl
      cases hl
      rintro f ⟨⟩

theorem declare (h : LabelsOnce pending held c) {d : FunctionDef} (hd : c.Declares d) :
    LabelsOnce pending held (c.declare d) := by
  refine h.keep rfl le_rfl (fun path name hl => ?_) (h.symbols.define ?_) .rfl
  · change ((c.store.define _ _).lookup? path name).isSome
    rw [Store.lookup?_define]
    split
    · rfl
    · exact hl
  · rintro _ ⟨⟩
    refine ⟨rfl, hd.unreserved, fun _ hmem => ?_⟩
    have hsome := (h.taken _ hmem).isSome hd.unreserved
    rw [hd.free] at hsome
    cases hsome

theorem enterScope (h : LabelsOnce pending held c) (path : ModulePath) (scope : Scope) :
    LabelsOnce pending held (c.enterScope path scope) := by
  refine h.keep rfl le_rfl (fun path' name hl => ?_) h.symbols.enter .rfl
  change ((c.store.enter path).lookup? path' name).isSome
  rwa [Store.lookup?_enter]

/-- A loop takes a number that has not been given out. -/
theorem openLoop (h : LabelsOnce pending held c) (test : LoopTest)
    (hfew : c.loopCount < 0x100000000) :
    LabelsOnce ((c.store.current, loopName c.nextLoop "end") :: pending) held
      (c.openLoop test) := by
  have hcount := c.openLoop_loopCount test
  have hnew (part : String) :
      (c.store.current, loopName c.nextLoop part) ∉ pending ++ c.origins := fun hmem =>
    not_taken_loopName hfew (h.taken _ hmem)
  have hperm : ((c.store.current, loopName c.nextLoop "end") :: pending ++
      (c.openLoop test).origins).Perm (((c.store.current, loopName c.nextLoop "end") ::
        test.origins c.store.current c.nextLoop) ++ (pending ++ c.origins)) := by
    rw [origins_openLoop, List.cons_append, List.cons_append, List.perm_cons]
    rw [← List.append_assoc, ← List.append_assoc]
    exact List.perm_append_comm.append_right _
  have hloop : ∀ o ∈ (c.store.current, loopName c.nextLoop "end") ::
      test.origins c.store.current c.nextLoop,
      ∃ part, o = (c.store.current, loopName c.nextLoop part) := by
    unfold LoopTest.origins
    split <;> simp
  constructor
  · rw [hperm.nodup_iff]
    refine List.nodup_append.mpr ⟨?_, h.nodup, ?_⟩
    · unfold LoopTest.origins
      split <;> simp [loopName_inj]
    · rintro o ho _ hmem rfl
      obtain ⟨part, rfl⟩ := hloop o ho
      exact hnew part hmem
  · intro o ho
    rcases List.mem_append.mp (hperm.mem_iff.mp ho) with ho | ho
    · obtain ⟨part, rfl⟩ := hloop o ho
      rw [nextLoop_eq]
      exact .loop (Nat.succ_pos _) hcount.ge
    · exact (h.taken o ho).mono (by omega) fun _ _ => id
  · refine h.symbols.mono fun path name symbol hs f hf => ?_
    obtain ⟨hlabel, hname, hfresh⟩ := hs f hf
    refine ⟨hlabel, hname, fun he hmem => ?_⟩
    rcases List.mem_append.mp (hperm.mem_iff.mp hmem) with ho | ho
    · obtain ⟨part, ho⟩ := hloop _ ho
      obtain ⟨rfl, rfl⟩ := Prod.ext_iff.mp ho
      simp [loopName_reserved] at hname
    · exact hfresh he ho
  · rw [c.openLoop_program, origins_openLoop, List.map_append]
    refine (Program.labelNames_writeAll _ _ held).trans (.append ?_ h.lines)
    unfold LoopTest.headerLines LoopTest.origins
    split
    · exact .swap ..
    · exact .rfl

theorem closeLoop {path : ModulePath} {n : Nat}
    (h : LabelsOnce ((path, loopName n "end") :: pending) held c) :
    LabelsOnce pending held (c.closeLoop path n) := by
  have hcount := c.closeLoop_loopCount path n
  have hperm : ((path, loopName n "end") :: pending ++ c.origins).Perm
      (pending ++ (c.closeLoop path n).origins) := List.perm_middle.symm
  constructor
  · exact hperm.nodup_iff.mp h.nodup
  · intro o ho
    exact (h.taken o (hperm.mem_iff.mpr ho)).mono hcount.ge fun _ _ => id
  · refine h.symbols.mono fun path name symbol hs f hf => ?_
    obtain ⟨hlabel, hname, hfresh⟩ := hs f hf
    exact ⟨hlabel, hname, fun he hmem => hfresh he (hperm.mem_iff.mpr hmem)⟩
  · rw [closeLoop_program]
    refine (Program.labelNames_writeAll _ _ held).trans ?_
    exact .cons _ h.lines

theorem openBody (h : LabelsOnce pending held c) {key : FunctionKey} {f : FunctionSymbol}
    (hf : c.function? key = some f) (he : f.emitted = false) :
    LabelsOnce pending (c.program.footer.toList ++ held) (c.openBody key f) := by
  have hl : c.store.lookup? key.path key.name = some (.function f) :=
    (c.store.functionIn?_eq_some _ _).mp hf
  obtain ⟨hlabel, hname, hfresh⟩ := h.symbols _ _ _ hl f rfl
  have horigins : (c.openBody key f).origins = (key.path, key.name) :: c.origins := rfl
  have hperm : (pending ++ (c.openBody key f).origins).Perm
      ((key.path, key.name) :: (pending ++ c.origins)) := List.perm_middle
  have hcount := c.openBody_loopCount key f
  have hkept (path : ModulePath) (name : String) (hs : (c.store.lookup? path name).isSome) :
      ((c.openBody key f).store.lookup? path name).isSome := by
    change (((c.store.updateFunction _ _ _).enter f.path).lookup? path name).isSome
    rwa [Store.lookup?_enter, Store.isSome_lookup?_updateFunction]
  constructor
  · rw [hperm.nodup_iff]
    exact List.nodup_cons.mpr ⟨hfresh he, h.nodup⟩
  · intro o ho
    rcases List.mem_cons.mp (hperm.mem_iff.mp ho) with rfl | ho
    · exact .symbol (hkept _ _ (by simp [hl])) hname
    · exact (h.taken o ho).mono hcount.ge hkept
  · intro path name symbol hs g hg
    change ((c.store.updateFunction key.path key.name _).enter f.path).lookup? path name = _ at hs
    rw [Store.lookup?_enter, Store.lookup?_updateFunction, show c.store.functionIn? _ _ = _ from hf]
      at hs
    dsimp only at hs
    split at hs
    · rename_i hk
      obtain ⟨rfl, rfl⟩ := hk
      cases hs
      cases hg
      exact ⟨hlabel, hname, nofun⟩
    · rename_i hk
      obtain ⟨hlabel, hname, hfresh⟩ := h.symbols _ _ _ hs g hg
      refine ⟨hlabel, hname, fun he hmem => ?_⟩
      rcases List.mem_cons.mp (hperm.mem_iff.mp hmem) with ho | ho
      · cases ho
        exact hk ⟨rfl, rfl⟩
      · exact hfresh he ho
  · rw [horigins, List.map_cons, ← hlabel, ← List.append_assoc]
    refine (labelNames_perm ((everyLine_openBody c key f).append_right held)).trans ?_
    rw [List.append_assoc, labelNames_append, labelNames_append, labelNames_prologueLines,
      List.singleton_append]
    refine List.perm_middle.trans (.cons _ ?_)
    rw [← labelNames_append]
    exact h.lines

theorem leaveFooter (mark : FooterMark) (h : LabelsOnce pending (mark.lines.toList ++ held) c) :
    LabelsOnce pending held (c.write fun p => p.leaveFooter mark) := by
  have hcount : (c.write fun p => p.leaveFooter mark).loopCount = c.loopCount := by
    simp [loopCount, write]
  constructor
  · exact h.nodup
  · exact fun o ho => (h.taken o ho).mono hcount.ge fun _ _ => id
  · exact h.symbols
  · refine .trans (labelNames_perm ?_) h.lines
    rw [← List.append_assoc]
    exact (c.program.everyLine_leaveFooter mark).append_right held

theorem closeBody {before : Compilation} (key : FunctionKey)
    (h : LabelsOnce pending (before.program.footer.toList ++ held) c) :
    LabelsOnce pending held (closeBody key before c) := by
  have hleft := h.enterScope before.store.current before.scope
  have hback := hleft.writeAll [.jumpBack] rfl
  have hclosed := leaveFooter before.program.enterFooter.1 hback
  exact hclosed.updateFunction key fun f => ⟨rfl, rfl⟩

theorem begun (h : LabelsOnce pending held c) (hr : env.registry = .empty) (dotted : String) :
    LabelsOnce pending held (c.begun env dotted) := by
  unfold Compilation.begun
  rw [hr]
  exact h.keep rfl le_rfl (fun _ _ => id) h.symbols .rfl

theorem of_acts (h : LabelsOnce pending held c) (hr : env.registry = .empty) {code : List Stmt}
    (ha : Acts env code c c') : LabelsOnce pending held c' := by
  cases ha with
  | report failure => exact h.keep rfl le_rfl (fun _ _ => id) h.symbols .rfl
  | @line line hs =>
      refine h.writeAll [line] ?_
      cases hs <;> rfl
  | @number _ names hc hb hn => exact h.number names
  | declare hm hd => exact h.declare hd
  | @giveBack c₁ key _ _ operands hm hk ho hs =>
      have hsettled := h.settles hs
      have hwritten := hsettled.writeAll _ (labelNames_giveBackLines operands)
      simp only [← Program.giveBack_eq] at hwritten
      exact hwritten.record _ rfl
  | beginImport hi hd hs => exact h.begun hr _
  | hook hc he hl hh hp hk =>
      rw [hr] at hh
      cases hh

/-- As long as there are numbers for the loops. -/
theorem of_lowers (h : LabelsOnce pending held c) (hr : env.registry = .empty) {code : List Stmt}
    (hl : Lowers env code c c') (hfew : c'.loopCount ≤ 0x100000000) :
    LabelsOnce pending held c' := by
  have hbundled : env.registry.OnlyBundled := hr ▸ Registry.onlyBundled_empty
  induction hl generalizing pending held with
  | refl code c => exact h
  | trans _ hl' ih ih' => exact ih' (ih h ((hl'.frame hbundled).loopCount.trans hfew)) hfew
  | act ha => exact h.of_acts hr ha
  | @call _ c c₁ c₂ key f _ _ arguments results hc hk hf hn ha hres _ he hs ih =>
      have hcount := (Frame.call hs f.label arguments).loopCount
      have hsettled := (ih h (hcount.trans hfew)).settles hs
      have hwritten := hsettled.writeAll _
        (labelNames_callLines c₂.scope.function?.isSome f.label arguments results)
      simp only [← Program.callSequence_eq] at hwritten
      exact hwritten.record _ rfl
  | @loop _ _ c inner e _ test hm ht hl ih =>
      rw [closeLoop_loopCount] at hfew
      have hcount := (hl.frame hbundled).loopCount
      rw [openLoop_loopCount] at hcount
      exact (ih (h.openLoop test (by omega)) hfew).closeLoop
  | @body _ c inner key f hf he _ ih =>
      refine (ih (h.openBody hf he) ?_).closeBody key
      exact (closeBody_loopCount key c inner) ▸ hfew
  | @loadModule _ c _ dotted file _ hi hd hs _ ih =>
      have hopened := ((h.begun hr dotted).record (.load dotted) rfl).enterScope
        (.ofDotted dotted) (.ofFile (some file))
      exact (ih hopened hfew).enterScope _ _

theorem start (file? : Option String) : LabelsOnce [] [] (.start file?) := by
  constructor
  · exact List.nodup_singleton _
  · rintro o (⟨⟩ | ⟨_, ⟨⟩⟩)
    exact .halt _
  · intro path name symbol hl
    rw [show (Compilation.start file?).store = .start from rfl, Store.lookup?_start] at hl
    cases hl
  · exact .rfl

end LabelsOnce

/-- No name of a module gets two label lines, and the label lines of the program are those of the
names, as long as there are numbers for the loops. -/
theorem origins_nodup (env : Environment) (hr : env.registry = .empty) (file? : Option String)
    (modules : List Module) (hfew : (compileModules env file? modules).loopCount ≤ 0x100000000) :
    (compileModules env file? modules).origins.Nodup ∧
      (labelNames (compileModules env file? modules).program.lines).Perm
        ((compileModules env file? modules).origins.map fun o => o.1.mangle o.2) := by
  have hlowers := compileModules_lowers env file? modules
  have honce := (LabelsOnce.start file?).of_lowers hr hlowers hfew
  refine ⟨honce.nodup, ?_⟩
  have hset := setAside_compileModules (hr ▸ Registry.onlyBundled_empty) file? modules
  have hlines := honce.lines
  rw [Program.everyLine, hset] at hlines
  simpa [Program.lines] using hlines

/-- A function that calls itself inside a loop, defined and called twice. -/
def climbing : Module :=
  let a := Expr.name ⟨"A", default⟩
  let climb := Stmt.expr (.call (.name ⟨"climb", default⟩) [] [] default) default
  let define := Stmt.define ⟨"climb", default⟩ [] []
    [.whileLoop (.compare a [(.lt, .number 9 default)] default)
      [.augAssign a .add (.number 1 default) default, climb] default] default
  ⟨[define, climb, define, climb], default⟩

theorem compile_climbing : compileModules ⟨⟨[], .empty []⟩, .empty⟩ none [climbing] =
    LowerM.body ⟨⟨[], .empty []⟩, .empty⟩ 2 climbing.body (.start none) := by
  have hr := Registry.onlyBundled_empty.addsNoFunction
  have hclosed : (Reach.mk {⟨.root, "climb"⟩} ∅).Closed ⟨⟨[], .empty []⟩, .empty⟩ :=
    .of_files hr fun _ hdotted => absurd hdotted (Finset.notMem_empty _)
  exact compileModules_eq_body hr hclosed (.start _ (by decide) (by decide)) (by decide)

/-- The second definition is refused, and the second call finds the body written. -/
theorem origins_nodup_climbing :
    (compileModules ⟨⟨[], .empty []⟩, .empty⟩ none [climbing]).loopCount = 1 ∧
      (compileModules ⟨⟨[], .empty []⟩, .empty⟩ none [climbing]).origins.Nodup ∧
      (labelNames (compileModules ⟨⟨[], .empty []⟩, .empty⟩ none [climbing]).program.lines).Perm
        ((compileModules ⟨⟨[], .empty []⟩, .empty⟩ none [climbing]).origins.map
          fun o => o.1.mangle o.2) := by
  have hcount : (compileModules ⟨⟨[], .empty []⟩, .empty⟩ none [climbing]).loopCount = 1 := by
    rw [compile_climbing]
    decide +kernel
  exact ⟨hcount, origins_nodup _ rfl _ _ (by rw [hcount]; decide)⟩

/-- `while 0 == 0: pass` -/
def idling : Stmt :=
  .whileLoop (.compare (.number 0 default) [(.eq, .number 0 default)] default) [.pass default]
    default

section idling

variable (env : Environment) (enter : Enter)

theorem reporting_idling (c : Compilation) :
    ∃ test, LowerM.reporting (LowerM.stmt env enter idling) c =
      (c.openLoop test).closeLoop c.store.current c.nextLoop := ⟨_, rfl⟩

theorem origins_idling (n : Nat) (c : Compilation) :
    ∃ added, (LowerM.block env enter (List.replicate n idling) c).origins = added ++ c.origins ∧
      ∀ k < n, (c.store.current, loopName (loopNumber (c.loopCount + k + 1)) "start") ∈ added := by
  induction n generalizing c with
  | zero => exact ⟨[], rfl, nofun⟩
  | succ n ih =>
      obtain ⟨test, hloop⟩ := reporting_idling env enter c
      obtain ⟨added, hadded, hnumbers⟩ :=
        ih ((c.openLoop test).closeLoop c.store.current c.nextLoop)
      have horigins : ((c.openLoop test).closeLoop c.store.current c.nextLoop).origins =
          (c.store.current, loopName c.nextLoop "end") ::
            test.origins c.store.current c.nextLoop ++ c.origins :=
        congrArg _ (c.origins_openLoop test)
      refine ⟨added ++ (c.store.current, loopName c.nextLoop "end") ::
        test.origins c.store.current c.nextLoop, ?_, fun k hk => ?_⟩
      · rw [List.replicate_succ, LowerM.block, hloop, hadded, horigins, List.append_assoc]
      · cases k with
        | zero =>
            exact List.mem_append_right _
              (List.mem_cons_of_mem _ (test.start_mem_origins _ _))
        | succ k =>
            have hnumber := hnumbers k (by omega)
            rw [closeLoop_loopCount, openLoop_loopCount] at hnumber
            rw [show c.loopCount + (k + 1) + 1 = c.loopCount + 1 + k + 1 by omega]
            exact List.mem_append_left _ hnumber

theorem not_nodup_idling (c : Compilation) :
    ¬ (LowerM.block env enter (List.replicate (0x100000000 + 1) idling) c).origins.Nodup := by
  obtain ⟨test, hloop⟩ := reporting_idling env enter c
  obtain ⟨added, hadded, hnumbers⟩ := origins_idling env enter 0x100000000
    ((c.openLoop test).closeLoop c.store.current c.nextLoop)
  have hlast := hnumbers 0xffffffff (by omega)
  rw [closeLoop_loopCount, openLoop_loopCount] at hlast
  have hnumber : loopNumber (c.loopCount + 1 + 0xffffffff + 1) = c.nextLoop := by
    rw [nextLoop_eq, loopNumber, loopNumber]
    omega
  rw [hnumber] at hlast
  have hfirst : (c.store.current, loopName c.nextLoop "start") ∈
      ((c.openLoop test).closeLoop c.store.current c.nextLoop).origins := by
    refine List.mem_cons_of_mem _ ?_
    change _ ∈ (c.openLoop test).origins
    rw [origins_openLoop]
    exact List.mem_append_left _ (test.start_mem_origins _ _)
  rw [List.replicate_succ, LowerM.block, hloop, hadded]
  exact fun hnodup => (List.nodup_append.mp hnodup).2.2 _ hlast _ hfirst rfl

end idling

/-- With one loop more than there are numbers, two loops have the same labels. -/
theorem loops_share_origin :
    ¬ (compileModules ⟨⟨[], .empty []⟩, .empty⟩ none
      [⟨List.replicate (0x100000000 + 1) idling, default⟩]).origins.Nodup := by
  -- the bound on the depth is a large number, which is not to be computed
  have hblock (env : Environment) (m : Module) :
      ∃ enter, compileModules env none [m] = LowerM.block env enter m.body (.start none) := by
    obtain ⟨n, hn⟩ : ∃ n, (Compilation.start none).depthBound env m.body = n + 1 := by
      unfold depthBound
      exact ⟨_, rfl⟩
    refine ⟨LowerM.body env n, ?_⟩
    rw [compileModules, List.foldl_cons, List.foldl_nil, addModule, hn, LowerM.body]
  obtain ⟨enter, heq⟩ := hblock ⟨⟨[], .empty []⟩, .empty⟩
    ⟨List.replicate (0x100000000 + 1) idling, default⟩
  rw [heq]
  exact not_nodup_idling _ enter _

end P16
