import P16.Proofs.ImportedOnce

/-!
# Failing imports are reported once

An import fails if the name is given a new one, if there is no such module, if its extension cannot
be installed, if its file cannot be read or parsed, or if an error is recorded while the file is
lowered, however deep. The importing file then gets one error at the imported name, behind all that
was recorded inside the module. An import that does not fail adds no error.
-/

namespace P16

open Compilation

namespace Compilation

/-- What the extension of a module says when it cannot be installed. -/
def installFault? (env : Environment) (dotted : String) (c : Compilation) : Option String :=
  match env.registry.find? dotted with
  | none => none
  | some e =>
    match e.install dotted ⟨c.program, c.store.enter (.ofDotted dotted), c.notes⟩ with
    | .ok .. => none
    | .error message _ => some message

/-- The body that is lowered for an imported name, and the state in which it begins. -/
def importedBody? (env : Environment) (name : ImportName) (c : Compilation) :
    Option (List Stmt × Compilation) :=
  match name.newName?, c.installFault? env name.path.text,
      env.sources.find? (.ofDotted name.path.text) with
  | none, none, some (file, .ok m) =>
    some (m.body, (c.begun env name.path.text).openModule name.path.text file)
  | _, _, _ => none

/-- What is recorded while the body of an imported module is lowered. -/
def bodyDiagnostics (env : Environment) (enter : Enter) (name : ImportName) (c : Compilation) :
    List Diagnostic :=
  match c.importedBody? env name with
  | none => []
  | some (stmts, opened) => (enter stmts opened).diagnostics.toList.drop c.diagnostics.size

inductive ImportFails (env : Environment) (enter : Enter) (name : ImportName) (c : Compilation) :
    Prop where
  | renamed {newName : Ident} (h : name.newName? = some newName)
  | unknown (h : ¬ env.Provides name.path.text)
  | extension {message : String} (h : c.installFault? env name.path.text = some message)
  | unreadable {file : String} {fault : LoadFault}
      (h : env.sources.find? (.ofDotted name.path.text) = some (file, .error fault))
  | inside {d : Diagnostic} (hd : d ∈ c.bodyDiagnostics env enter name) (he : d.isError = true)

end Compilation

section growth

variable {env : Environment} {code : List Stmt} {c c' : Compilation}

theorem Acts.diagnostics_grow (h : Acts env code c c') :
    c.diagnostics.toList <+: c'.diagnostics.toList := by
  cases h with
  | report failure =>
      change _ <+: (c.diagnostics.push _).toList
      rw [Array.toList_push]
      exact List.prefix_append _ _
  | giveBack _ _ _ hs => exact hs.diagnostics ▸ List.prefix_rfl
  | @beginImport dotted _ _ _ => exact c.diagnostics_begun env dotted ▸ List.prefix_rfl
  | _ => exact List.prefix_rfl

theorem Lowers.diagnostics_grow (h : Lowers env code c c') :
    c.diagnostics.toList <+: c'.diagnostics.toList := by
  induction h with
  | refl code c => exact List.prefix_rfl
  | trans _ _ ih ih' => exact ih.trans ih'
  | act h => exact h.diagnostics_grow
  | call _ _ _ _ _ _ _ _ hs ih => exact hs.diagnostics ▸ ih
  | loop _ _ _ ih => exact ih
  | body _ _ _ ih => exact ih
  | @loadModule _ c _ dotted _ _ _ _ _ _ ih => exact c.diagnostics_begun env dotted ▸ ih

end growth

namespace LowerM

section results

variable {α β : Type} {act : LowerM α} {f : α → LowerM β} {c c' : Compilation} {failure : Failure}

theorem bind_of_ok {a : α} (h : act c = .ok a c') : (act >>= f) c = f a c' := by
  simp only [Bind.bind, EStateM.bind, h]

theorem bind_of_error (h : act c = .error failure c') : (act >>= f) c = .error failure c' := by
  simp only [Bind.bind, EStateM.bind, h]

end results

section install

variable {dotted message : String} {span : Span} {c : Compilation} {path : ModulePath}
  {e : Extension} {t : Target}

theorem installExtension_of_ok
    (h : e.install dotted ⟨c.program, c.store.enter path, c.notes⟩ = .ok () t) :
    installExtension path dotted e span c =
      .ok () ((c.record (.install dotted)).afterHook path (e.install dotted)) := by
  have hrun : runHook path (e.install dotted) (c.record (.install dotted)) =
      .ok (.ok ()) ((c.record (.install dotted)).afterHook path (e.install dotted)) := by
    simp only [runHook, afterHook, HookM.finish, Compilation.record, h]
  exact bind_of_ok hrun

theorem installExtension_of_error
    (h : e.install dotted ⟨c.program, c.store.enter path, c.notes⟩ = .error message t) :
    installExtension path dotted e span c = .error ⟨.hookFailed dotted message, span⟩
      ((c.record (.install dotted)).afterHook path (e.install dotted)) := by
  have hrun : runHook path (e.install dotted) (c.record (.install dotted)) =
      .ok (.error message) ((c.record (.install dotted)).afterHook path (e.install dotted)) := by
    simp only [runHook, afterHook, HookM.finish, Compilation.record, h]
  exact bind_of_ok hrun

end install

section fresh

variable (env : Environment) (enter : Enter) (dotted : String) (span : Span) (c : Compilation)

theorem importFresh_of_not_provides (h : ¬ env.Provides dotted) :
    importFresh env enter dotted span c = .error ⟨.moduleNotFound dotted none, span⟩ c := by
  simp only [Environment.Provides, not_or, Bool.not_eq_true, Option.isSome_eq_false_iff] at h
  unfold importFresh
  simp only [h.1, h.2, Bool.and_self, if_true]
  rfl

/-- The last part of an import, after the extension. -/
def importFile (errorsBefore : Nat) : LowerM Unit := do
  if let some (file, loaded) := env.sources.find? (.ofDotted dotted) then
    lowerFile enter (.ofDotted dotted) dotted file loaded span
  if errorsBefore < (← get).errorCount then fail (.importFailed dotted) span

theorem importFresh_eq (h : env.Provides dotted) :
    importFresh env enter dotted span c =
      match c.installFault? env dotted with
      | some message => .error ⟨.hookFailed dotted message, span⟩ (c.begun env dotted)
      | none => importFile env enter dotted span c.errorCount (c.begun env dotted) := by
  have hfound : ((env.registry.find? dotted).isNone &&
      (env.sources.find? (.ofDotted dotted)).isNone) = false := by
    rcases h with h | h
    · simp [Option.isNone_eq_false_iff.mpr h]
    · simp [Option.isNone_eq_false_iff.mpr h]
  unfold importFresh
  dsimp only
  rw [hfound]
  unfold installFault? begun
  cases he : env.registry.find? dotted with
  | none => rfl
  | some e =>
      change (installExtension (.ofDotted dotted) dotted e span >>= fun _ =>
        importFile env enter dotted span c.errorCount)
          { c with imported := dotted :: c.imported } = _
      dsimp only
      cases hi : e.install dotted ⟨c.program, c.store.enter (.ofDotted dotted), c.notes⟩ with
      | ok _ t => exact bind_of_ok (installExtension_of_ok hi)
      | error message t => exact bind_of_error (installExtension_of_error hi)

theorem importFile_of_none (hs : env.sources.find? (.ofDotted dotted) = none) :
    importFile env enter dotted span c.errorCount c = .ok () c := by
  unfold importFile
  rw [hs]
  change (if c.errorCount < c.errorCount then fail (.importFailed dotted) span else pure () :
    LowerM Unit) c = _
  rw [if_neg (Nat.lt_irrefl _)]
  rfl

theorem importFile_of_fault {file : String} {fault : LoadFault} (n : Nat)
    (hs : env.sources.find? (.ofDotted dotted) = some (file, .error fault)) :
    importFile env enter dotted span n c =
      .error ⟨.moduleNotFound dotted (some (fault.message file)), span⟩ c := by
  unfold importFile
  rw [hs]
  rfl

theorem importFile_of_module {file : String} {m : Module} (n : Nat)
    (hs : env.sources.find? (.ofDotted dotted) = some (file, .ok m)) :
    importFile env enter dotted span n c =
      let after := c.leaveScope (enter m.body (c.openModule dotted file))
      if n < after.errorCount then .error ⟨.importFailed dotted, span⟩ after else .ok () after := by
  unfold importFile
  rw [hs]
  change (if n < (c.leaveScope (enter m.body (c.openModule dotted file))).errorCount then
    fail (.importFailed dotted) span else pure () : LowerM Unit)
      (c.leaveScope (enter m.body (c.openModule dotted file))) = _
  dsimp only
  split <;> rfl

end fresh

section name

variable {env : Environment} {enter : Enter} {name : ImportName} {c c' : Compilation}

theorem importName_of_newName {newName : Ident} (hn : name.newName? = some newName) :
    importName env enter name c = .error ⟨.unsupportedSyntax
      ("import " ++ name.path.text ++ " as " ++ newName.text), name.span⟩ c := by
  unfold importName
  rw [hn]
  rfl

theorem importName_of_not_mem (hn : name.newName? = none) (hd : name.path.text ∉ c.imported) :
    importName env enter name c = importFresh env enter name.path.text name.span c := by
  unfold importName
  simp only [hn]
  change (if name.path.text ∈ c.imported then pure () else
    importFresh env enter name.path.text name.span : LowerM Unit) c = _
  rw [if_neg hd]

end name

end LowerM

namespace Compilation

variable {env : Environment} {enter : Enter} {name : ImportName} {c c' inner : Compilation}
  {inside : List Diagnostic}

theorem errorCount_begun (env : Environment) (dotted : String) (c : Compilation) :
    (c.begun env dotted).errorCount = c.errorCount := by
  unfold errorCount
  rw [diagnostics_begun]

/-- The diagnostics inside and behind them one at the imported name, in the importing file. -/
def AddsOne (c c' : Compilation) (inside : List Diagnostic) (span : Span) : Prop :=
  ∃ cause : Cause, cause.severity = .error ∧
    c'.diagnostics.toList = c.diagnostics.toList ++ inside ++ [⟨⟨cause, span⟩, c.scope.file?⟩]

theorem AddsOne.of_error {act : LowerM Unit} {cause : Cause} {span : Span}
    (hd : inner.diagnostics.toList = c.diagnostics.toList ++ inside) (hs : inner.scope = c.scope)
    (h : act c = .error ⟨cause, span⟩ inner) (hc : cause.severity = .error) :
    c.AddsOne (LowerM.reporting act c) inside span := by
  refine ⟨cause, hc, ?_⟩
  unfold LowerM.reporting
  rw [h]
  simp [report, hd, hs]

theorem lt_errorCount_iff (hd : c'.diagnostics.toList = c.diagnostics.toList ++ inside) :
    c.errorCount < c'.errorCount ↔ ∃ d ∈ inside, d.isError = true := by
  unfold errorCount
  rw [hd, List.filter_append, List.length_append, Nat.lt_add_right_iff_pos,
    List.length_pos_iff_exists_mem]
  simp only [List.mem_filter]

theorem bodyDiagnostics_of_none (h : c.importedBody? env name = none) :
    c.bodyDiagnostics env enter name = [] := by
  unfold bodyDiagnostics
  rw [h]

theorem diagnostics_importedBody (henter : ∀ stmts c, Lowers env stmts c (enter stmts c))
    {stmts : List Stmt} {opened : Compilation}
    (h : c.importedBody? env name = some (stmts, opened))
    (ho : opened.diagnostics = c.diagnostics) :
    (enter stmts opened).diagnostics.toList =
      c.diagnostics.toList ++ c.bodyDiagnostics env enter name := by
  have hprefix := (henter stmts opened).diagnostics_grow
  rw [ho] at hprefix
  unfold bodyDiagnostics
  rw [h]
  exact List.prefix_iff_eq_append.mp hprefix |>.symm

/-- The import fails and adds one error of its own, or it does not fail and adds none. -/
def Reported (env : Environment) (enter : Enter) (name : ImportName) (c : Compilation) : Prop :=
  c.ImportFails env enter name ∧ c.AddsOne (LowerM.reporting (LowerM.importName env enter name) c)
      (c.bodyDiagnostics env enter name) name.span ∨
    ¬ c.ImportFails env enter name ∧
      (LowerM.reporting (LowerM.importName env enter name) c).diagnostics.toList =
        c.diagnostics.toList ++ c.bodyDiagnostics env enter name

theorem Reported.of_error {cause : Cause} (hc : c.ImportFails env enter name)
    (hb : c.importedBody? env name = none)
    (he : LowerM.importName env enter name c = .error ⟨cause, name.span⟩ inner)
    (hd : inner.diagnostics = c.diagnostics) (hs : inner.scope = c.scope)
    (hseverity : cause.severity = .error) : c.Reported env enter name := by
  left
  refine ⟨hc, ?_⟩
  rw [bodyDiagnostics_of_none hb]
  exact .of_error (by rw [hd, List.append_nil]) hs he hseverity

theorem Reported.of_importFile (henter : ∀ stmts c, Lowers env stmts c (enter stmts c))
    (hn : name.newName? = none) (hp : env.Provides name.path.text)
    (hi : c.installFault? env name.path.text = none)
    (hfile : LowerM.importName env enter name c = LowerM.importFile env enter name.path.text
      name.span c.errorCount (c.begun env name.path.text)) : c.Reported env enter name := by
  have hbegun := c.diagnostics_begun env name.path.text
  have hscope := c.begun_scope env name.path.text
  -- Only an error inside the body is left as a reason.
  have honly (hs : ∀ file fault, env.sources.find? (.ofDotted name.path.text) ≠
        some (file, .error fault)) (hc : c.ImportFails env enter name) :
      ∃ d ∈ c.bodyDiagnostics env enter name, d.isError = true := by
    cases hc with
    | renamed h => cases hn.symm.trans h
    | unknown h => exact absurd hp h
    | extension h => cases hi.symm.trans h
    | unreadable h => exact absurd h (hs _ _)
    | @inside d hd he => exact ⟨d, hd, he⟩
  rcases hs : env.sources.find? (.ofDotted name.path.text) with - | ⟨file, fault | m⟩
  · have hnone : c.bodyDiagnostics env enter name = [] :=
      bodyDiagnostics_of_none (by simp [importedBody?, hs])
    rw [← c.errorCount_begun env name.path.text, LowerM.importFile_of_none _ _ _ _ _ hs] at hfile
    right
    constructor
    · intro hc
      obtain ⟨d, hd, -⟩ := honly (by simp [hs]) hc
      rw [hnone] at hd
      cases hd
    · unfold LowerM.reporting
      rw [hfile, hnone, hbegun, List.append_nil]
  · rw [LowerM.importFile_of_fault _ _ _ _ _ _ hs] at hfile
    exact .of_error (.unreadable hs) (by simp [importedBody?, hs]) hfile hbegun hscope rfl
  · have hbody : c.importedBody? env name =
        some (m.body, (c.begun env name.path.text).openModule name.path.text file) := by
      simp [importedBody?, hn, hi, hs]
    have hinside : ((c.begun env name.path.text).leaveScope (enter m.body
        ((c.begun env name.path.text).openModule name.path.text file))).diagnostics.toList =
          c.diagnostics.toList ++ c.bodyDiagnostics env enter name :=
      diagnostics_importedBody henter hbody hbegun
    rw [LowerM.importFile_of_module _ _ _ _ _ _ hs] at hfile
    dsimp only at hfile
    have hcount := lt_errorCount_iff hinside
    by_cases herror : ∃ d ∈ c.bodyDiagnostics env enter name, d.isError = true
    · rw [if_pos (hcount.mpr herror)] at hfile
      obtain ⟨d, hd, he⟩ := herror
      exact .inl ⟨.inside hd he, .of_error hinside hscope hfile rfl⟩
    · rw [if_neg (fun hlt => herror (hcount.mp hlt))] at hfile
      right
      constructor
      · exact fun hc => herror (honly (by simp [hs]) hc)
      · unfold LowerM.reporting
        rw [hfile]
        exact hinside

theorem importName_reported (henter : ∀ stmts c, Lowers env stmts c (enter stmts c))
    (h : name.newName? ≠ none ∨ name.path.text ∉ c.imported) : c.Reported env enter name := by
  cases hn : name.newName? with
  | some newName =>
      exact .of_error (.renamed hn) (by simp [importedBody?, hn]) (LowerM.importName_of_newName hn)
        rfl rfl rfl
  | none =>
      have hd : name.path.text ∉ c.imported := by simpa [hn] using h
      have hfresh : LowerM.importName env enter name c = _ := LowerM.importName_of_not_mem hn hd
      by_cases hp : env.Provides name.path.text
      · rw [LowerM.importFresh_eq _ _ _ _ _ hp] at hfresh
        cases hi : c.installFault? env name.path.text with
        | none =>
            rw [hi] at hfresh
            exact .of_importFile henter hn hp hi hfresh
        | some message =>
            rw [hi] at hfresh
            exact .of_error (.extension hi) (by simp [importedBody?, hi]) hfresh
              (c.diagnostics_begun env _) (c.begun_scope env _) rfl
      · have hs : env.sources.find? (.ofDotted name.path.text) = none := by
          simpa using (not_or.mp hp).2
        rw [LowerM.importFresh_of_not_provides _ _ _ _ _ hp] at hfresh
        exact .of_error (.unknown hp) (by simp [importedBody?, hs]) hfresh rfl rfl rfl

theorem mem_imported_importedBody {stmts : List Stmt} {opened : Compilation}
    (h : c.importedBody? env name = some (stmts, opened)) : name.path.text ∈ opened.imported := by
  unfold importedBody? at h
  split at h
  · cases h
    change _ ∈ (c.begun env name.path.text).imported
    simp
  · cases h

end Compilation

/-- A failing import adds the diagnostics of the module's own lowering and then one error, at the
imported name and in the importing file. An import that does not fail adds no error. While the
module is lowered, no other import of it adds anything, so the site that is being reported is not
reported from within. -/
theorem failing_import_reported_once (env : Environment) (depth : Nat) (c : Compilation)
    (name : ImportName) (h : name.newName? ≠ none ∨ name.path.text ∉ c.imported) :
    let enter := LowerM.body env depth
    let after := LowerM.reporting (LowerM.importName env enter name) c
    let inside := c.bodyDiagnostics env enter name
    (c.ImportFails env enter name → c.AddsOne after inside name.span) ∧
      (¬ c.ImportFails env enter name →
        after.diagnostics.toList = c.diagnostics.toList ++ inside ∧
          ∀ d ∈ inside, d.isError = false) ∧
      ∀ stmts opened, c.importedBody? env name = some (stmts, opened) →
        ∀ code inner, Lowers env code opened inner →
          ∀ (other : ImportName) (n : Nat), other.newName? = none →
            other.path.text = name.path.text →
              LowerM.reporting (LowerM.importName env (LowerM.body env n) other) inner = inner := by
  have hreported := importName_reported (LowerM.body_lowers env depth) h
  refine ⟨?_, ?_, ?_⟩
  · intro hfails
    rcases hreported with ⟨-, hone⟩ | ⟨hnot, -⟩
    · exact hone
    · exact absurd hfails hnot
  · intro hnot
    rcases hreported with ⟨hfails, -⟩ | ⟨-, hsame⟩
    · exact absurd hfails hnot
    · refine ⟨hsame, fun d hd => ?_⟩
      by_contra he
      exact hnot (.inside hd (by simpa using he))
  · intro stmts opened hbody code inner hinner other n hn hother
    have hmem : other.path.text ∈ inner.imported :=
      hother ▸ hinner.imported_subset (mem_imported_importedBody hbody)
    unfold LowerM.reporting
    rw [LowerM.importName_of_mem hn hmem]

def importedAt (dotted : String) (line : Nat) : ImportName :=
  ⟨⟨[⟨dotted, default⟩], default⟩, none, ⟨0, 0, line, 0⟩⟩

/-- `device` imports `bus`. This imports `device` back and then a module that does not exist. -/
def besideBrokenBus : Environment :=
  ⟨⟨[.directory "."],
      ⟨[], [(["device.p16"], .ok ⟨[.importNames [importedAt "bus" 3] default], default⟩),
        (["bus.p16"], .ok ⟨[.importNames [importedAt "device" 5, importedAt "clock" 7] default],
          default⟩)], []⟩⟩, .empty⟩

/-- The file that imports `device` hears of it once, after the reports from inside. -/
theorem failing_import_reported_once_chain :
    (importedAt "device" 1).path.text ∉ (Compilation.start (some "main.p16")).imported ∧
      ∃ cause : Cause, cause.severity = .error ∧
        (LowerM.reporting (LowerM.importName besideBrokenBus (LowerM.body besideBrokenBus 3)
          (importedAt "device" 1)) (.start (some "main.p16"))).diagnostics.toList =
          [⟨⟨.moduleNotFound "clock" none, ⟨0, 0, 7, 0⟩⟩, some "./bus.p16"⟩,
            ⟨⟨.importFailed "bus", ⟨0, 0, 3, 0⟩⟩, some "./device.p16"⟩,
            ⟨⟨cause, ⟨0, 0, 1, 0⟩⟩, some "main.p16"⟩] := by
  have hfresh : (importedAt "device" 1).path.text ∉
      (Compilation.start (some "main.p16")).imported := List.not_mem_nil
  have hinside : (Compilation.start (some "main.p16")).bodyDiagnostics besideBrokenBus
      (LowerM.body besideBrokenBus 3) (importedAt "device" 1) =
        [⟨⟨.moduleNotFound "clock" none, ⟨0, 0, 7, 0⟩⟩, some "./bus.p16"⟩,
          ⟨⟨.importFailed "bus", ⟨0, 0, 3, 0⟩⟩, some "./device.p16"⟩] := by
    decide +kernel
  obtain ⟨hone, -, -⟩ := failing_import_reported_once besideBrokenBus 3 (.start (some "main.p16"))
    (importedAt "device" 1) (.inr hfresh)
  rw [hinside] at hone
  have hmem : (⟨⟨.importFailed "bus", ⟨0, 0, 3, 0⟩⟩, some "./device.p16"⟩ : Diagnostic) ∈
      (Compilation.start (some "main.p16")).bodyDiagnostics besideBrokenBus
        (LowerM.body besideBrokenBus 3) (importedAt "device" 1) := by
    simp [hinside]
  exact ⟨hfresh, hone (.inside hmem rfl)⟩

end P16
