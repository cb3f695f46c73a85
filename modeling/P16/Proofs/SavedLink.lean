import P16.Proofs.Course
import P16.Proofs.LoopCode

/-!
# Where calls save the return address

A subroutine that calls another one has to keep its own return address, which the call writes to
`J`, on the stack. Whether a call does so is read off the scope. That is right for the statements of
a body, but a file that is imported inside a body has a scope of its own, which belongs to no
function, and its statements are lowered into the body all the same.
-/

namespace P16

open Compilation

/-- Extensions leave the segment active that they find. -/
def Registry.KeepsSegment (r : Registry) : Prop :=
  r.Each fun t t' => t'.program.active = t.program.active

theorem Registry.OnlyBundled.keepsSegment {r : Registry} (hr : r.OnlyBundled) : r.KeepsSegment :=
  hr.each fun _ _ _ h => h.program.active

section segment

variable {env : Environment} (hr : env.registry.KeepsSegment)
include hr

theorem Compilation.begun_active (dotted : String) (c : Compilation) :
    (c.begun env dotted).program.active = c.program.active := by
  unfold begun
  dsimp only
  cases he : env.registry.find? dotted with
  | none => rfl
  | some e => exact Registry.Each.install hr he (fun _ _ _ h g => g.trans h) (fun _ => rfl) _

theorem Acts.active {code : List Stmt} {c c' : Compilation} (h : Acts env code c c') :
    c'.program.active = c.program.active := by
  cases h with
  | report failure => rfl
  | line hl => exact Program.active_write _ _
  | number hc hb hn => rfl
  | declare hm hd => rfl
  | giveBack hm hk ho hs =>
      change (Program.jumpBack _).active = _
      rw [Program.giveBack_eq, Program.active_writeAll, hs.program]
  | beginImport hi hd hs => exact begun_active hr _ c
  | hook hc he hl hh hp hk => exact hr.hooks hh _ _

theorem framed_active :
    Framed env fun c pending => c.program.active = .footer ↔
      ∃ key f before, Pending.body key f before ∈ pending where
  act ha h := by rw [ha.active hr, h]
  beginCall _ _ _ _ h := by simpa using h
  endCall hs h := by
    change (Program.callSequence ..).active = _ ↔ _
    rw [Program.callSequence_eq, Program.active_writeAll, hs.program]
    simpa using h
  beginLoop _ _ h := by
    rw [openLoop_active]
    simpa using h
  endLoop h := by
    rw [closeLoop_active]
    simpa using h
  beginBody key f _ := by
    rw [openBody_program, Program.active_writeAll]
    exact ⟨fun _ => ⟨key, f, _, List.mem_cons_self⟩, fun _ => rfl⟩
  endBody _ h := by
    rw [closeBody_program, Program.active_leaveFooter]
    exact h
  beginFile {c} _ _ _ _ h := by
    change c.program.active = _ ↔ _
    simpa using h
  endFile {c} _ _ _ _ h := by
    change c.program.active = _ ↔ _
    simpa using h

end segment

/-- The current statement belongs to a file that is imported inside the body of a function. -/
def Moment.ImportedInBody (m : Moment) : Prop :=
  Pending.owner? m.pending = none ∧ ∃ key, m.Writes key

/-- A call that is written to the footer saves `J`, except in a file that is imported inside a
body. -/
theorem callFunction_saves_link_iff (env : Environment) (hr : env.registry.KeepsSegment)
    (file? : Option String) (modules : List Module) :
    Passes env (modules.flatMap Module.body) (.start file?)
      ⟨compileModules env file? modules, []⟩ ∧
    ∀ moments, Course env (modules.flatMap Module.body) (.start file?) moments →
      ∀ m ∈ moments, m.now.program.active = .footer →
        ∀ depth key shown f site targets c',
          LowerM.callFunction (LowerM.body env depth) key shown f site targets m.now = .ok () c' →
        ∃ nested arguments results, site.args.mapM m.now.operand = .ok arguments ∧
          targets.mapM m.now.target = .ok results ∧
          c'.program = (m.now.ensureEmitted (LowerM.body env depth) key).program.writeAll
            (callLines nested f.label arguments results) ∧
          (nested = true ↔ ¬ m.ImportedInBody) := by
  refine ⟨compileModules_passes env file? modules, ?_⟩
  intro moments hcourse m hm hfooter depth key shown f site targets c' hcall
  obtain ⟨arguments, results, c₁, -, ha, hres, hs, rfl⟩ :=
    (LowerM.callFunction_meets m.now _ key shown f site targets).ok hcall
  have hscope : c₁.scope.function? = (Pending.owner? m.pending).map Prod.fst := by
    rw [hs.scope, ensureEmitted_scope, hcourse.scope_eq hm]
  have hwrites : ∃ key, m.Writes key := by
    have hstart : (Compilation.start file?).program.active = .footer ↔
        ∃ key f before, Pending.body key f before ∈ [] := ⟨nofun, by simp⟩
    exact ((framed_active hr).of_course hcourse hstart m hm).mp hfooter
  refine ⟨c₁.scope.function?.isSome, arguments, results, ha, hres, ?_, ?_⟩
  · change Program.callSequence .. = _
    rw [Program.callSequence_eq, hs.program]
  · rw [hscope, Option.isSome_map]
    unfold Moment.ImportedInBody
    cases Pending.owner? m.pending with
    | none => simp [hwrites]
    | some owner => simp

/-- `f()` -/
def callsF : Stmt := .expr (.call (.name ⟨"f", default⟩) [] [] default) default

/-- A file `m.p16` with `def g(): pass` and `g()`. -/
def besideFile : Environment :=
  let g : Ident := ⟨"g", default⟩
  let m : Module := ⟨[.define g [] [] [.pass default] default,
    .expr (.call (.name g) [] [] default) default], default⟩
  ⟨⟨[.directory "."], ⟨[], [(["m.p16"], .ok m)], []⟩⟩, .empty⟩

/-- `def f(): import m` -/
def importsInside : Stmt :=
  .define ⟨"f", default⟩ [] []
    [.importNames [⟨⟨[⟨"m", default⟩], default⟩, none, default⟩] default] default

/-- The call of `g` is among the lines of `f`, and `f` jumps back through what the call has left in
`J`. -/
theorem imported_call_loses_link :
    let m := ((Moment.start none).lowered besideFile 3 importsInside).lowered besideFile 3 callsF
    m.now.diagnostics.isEmpty ∧ m.now.program.lines =
      [.call "f", .jump "builtin_halt", .label "builtin_halt", .jump "builtin_halt",
       .label "f", .pop (.reg .J), .call "m__g", .jumpBack,
       .label "m__g", .pop (.reg .J), .jumpBack] := by
  decide +kernel

/-- `def f(): f()` -/
def callsInside : FunctionDef := ⟨⟨"f", default⟩, [], [], [callsF], default⟩

def insideBody : Moment :=
  let c := (Compilation.start none).declare callsInside
  let f := (Compilation.start none).declared callsInside
  ⟨c.openBody ⟨.root, "f"⟩ f, [.body ⟨.root, "f"⟩ f c]⟩

theorem passes_insideBody (code : List Stmt)
    (h : .define callsInside.name [] [] callsInside.body callsInside.span ∈ code) :
    Passes .bare code (.start none) insideBody := by
  have hd : (Compilation.start none).Declares callsInside := ⟨rfl, rfl, by decide, rfl, rfl⟩
  have hdeclared : Passes .bare code (.start none)
      ⟨(Compilation.start none).declare callsInside, []⟩ :=
    (Passes.refl _).tail (.act (.declare h hd))
  exact hdeclared.tail (.beginBody rfl rfl)

theorem callFunction_saves_link_iff_insideBody :
    let entry := [.define callsInside.name [] [] callsInside.body callsInside.span]
    let f := { (Compilation.start none).declared callsInside with emitted := true }
    Environment.bare.registry.KeepsSegment ∧ Passes .bare entry (.start none) insideBody ∧
      insideBody.now.program.active = .footer ∧ ∃ c',
      LowerM.callFunction (LowerM.body .bare 0) ⟨.root, "f"⟩ "f" f
        ⟨.name ⟨"f", default⟩, [], [], default⟩ [] insideBody.now = .ok () c' ∧
      c'.program = insideBody.now.program.writeAll (callLines true "f" [] []) := by
  intro entry f
  have hr : Environment.bare.registry.KeepsSegment := Registry.onlyBundled_empty.keepsSegment
  obtain ⟨past, hcourse⟩ := passes_insideBody entry List.mem_cons_self
  obtain ⟨nested, arguments, results, ha, hres, hprogram, hnested⟩ :=
    (callFunction_saves_link_iff .bare hr none [⟨entry, default⟩]).2 _ hcourse insideBody
      List.mem_cons_self rfl 0 ⟨.root, "f"⟩ "f" f ⟨.name ⟨"f", default⟩, [], [], default⟩ [] _ rfl
  have hsaved : nested = true := hnested.mpr fun himported => nomatch himported.1
  cases ha
  cases hres
  rw [hsaved] at hprogram
  exact ⟨hr, ⟨past, hcourse⟩, rfl, _, rfl, hprogram⟩

end P16
