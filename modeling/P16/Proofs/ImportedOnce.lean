import P16.Proofs.Lowers

/-!
# Modules are imported once

A module is marked when its import begins, before its extension is installed and before its file is
lowered. Marks are never taken away. So nothing of a module is done a second time, whatever came of
the first time: an extension may have failed to start, and a file may have failed to load, or it may
not be lowered to its end yet.

Installing and loading are on record as events (`Event.module?`), one for each time that the
start-up code of an extension is run or a file is lowered (`Brings.on_record`).
`Compilation.ImportsOnce` counts them; every run keeps it.
-/

namespace P16

open Compilation

/-- The module of which the event is a part of the import. -/
def Event.module? : Event → Option String
  | install dotted => some dotted
  | load dotted => some dotted
  | _ => none

/-- No part of an import has been done twice, and only marked modules have been imported. -/
structure Compilation.ImportsOnce (c : Compilation) : Prop where
  once : ∀ event, event.module?.isSome → c.events.count event ≤ 1
  marked : ∀ event ∈ c.events, ∀ dotted, event.module? = some dotted → dotted ∈ c.imported

namespace Compilation

variable (env : Environment) (dotted : String) (c : Compilation)

@[simp] theorem imported_begun : (c.begun env dotted).imported = dotted :: c.imported := by
  unfold begun
  dsimp only
  split <;> rfl

theorem events_begun :
    (c.begun env dotted).events =
      if (env.registry.find? dotted).isSome then .install dotted :: c.events else c.events := by
  unfold begun
  cases env.registry.find? dotted <;> rfl

namespace ImportsOnce

variable {env dotted c} {c' : Compilation}

theorem start (file? : Option String) : (Compilation.start file?).ImportsOnce := by
  constructor
  case once =>
      intro event hevent
      have hlabel : event ≠ .label .root Program.haltLabel := by
        rintro rfl
        cases hevent
      simp [Compilation.start, hlabel.symm]
  case marked =>
      intro event hmem dotted hevent
      cases List.mem_singleton.mp hmem
      cases hevent

theorem of_append (h : c.ImportsOnce) (new : List Event) (he : c'.events = new ++ c.events)
    (hn : ∀ event ∈ new, event.module? = none) (hi : c.imported ⊆ c'.imported) :
    c'.ImportsOnce := by
  constructor
  case once =>
      intro event hevent
      have hnot : event ∉ new := by
        intro hmem
        simp [hn event hmem] at hevent
      have hzero : new.count event = 0 := List.count_eq_zero_of_not_mem hnot
      rw [he, List.count_append, hzero, Nat.zero_add]
      exact h.once event hevent
  case marked =>
      intro event hmem dotted hevent
      rw [he] at hmem
      rcases List.mem_append.mp hmem with hnew | hold
      · simp [hn event hnew] at hevent
      · exact hi (h.marked event hold dotted hevent)

theorem of_eq (h : c.ImportsOnce) (he : c'.events = c.events) (hi : c'.imported = c.imported) :
    c'.ImportsOnce :=
  h.of_append [] he nofun (hi ▸ List.Subset.refl _)

theorem of_cons (h : c.ImportsOnce) {event : Event} (he : c'.events = event :: c.events)
    (hn : event.module? = none) (hi : c'.imported = c.imported) : c'.ImportsOnce :=
  h.of_append [event] he (fun _ hmem => List.mem_singleton.mp hmem ▸ hn)
    (hi ▸ List.Subset.refl _)

theorem of_first (h : c.ImportsOnce) {event : Event} (he : c'.events = event :: c.events)
    (hm : event.module? = some dotted) (hn : event ∉ c.events) (hd : dotted ∈ c.imported)
    (hi : c'.imported = c.imported) : c'.ImportsOnce := by
  have hzero : c.events.count event = 0 := List.count_eq_zero_of_not_mem hn
  constructor
  case once =>
      intro other hother
      rw [he, List.count_cons]
      by_cases heq : event = other
      · subst heq
        simp [hzero]
      · simpa [heq] using h.once other hother
  case marked =>
      intro other hmem name hname
      rw [he] at hmem
      rw [hi]
      rcases List.mem_cons.mp hmem with rfl | hold
      · cases hm.symm.trans hname
        exact hd
      · exact h.marked other hold name hname

theorem not_mem (h : c.ImportsOnce) {event : Event} (hm : event.module? = some dotted)
    (hd : dotted ∉ c.imported) : event ∉ c.events :=
  fun hmem => hd (h.marked event hmem dotted hm)

theorem begun (h : c.ImportsOnce) (hd : dotted ∉ c.imported) :
    (c.begun env dotted).ImportsOnce := by
  have hmark : ({ c with imported := dotted :: c.imported }).ImportsOnce :=
    h.of_append [] rfl nofun (List.subset_cons_self _ _)
  have hnew : Event.install dotted ∉ c.events := h.not_mem rfl hd
  have he := c.events_begun env dotted
  split at he
  · exact hmark.of_first he rfl hnew List.mem_cons_self (c.imported_begun env dotted)
  · exact hmark.of_eq he (c.imported_begun env dotted)

theorem openModule (h : c.ImportsOnce) (hd : dotted ∉ c.imported) (file : String) :
    ((c.begun env dotted).openModule dotted file).ImportsOnce := by
  have hbegun : (c.begun env dotted).ImportsOnce := h.begun hd
  have hold : Event.load dotted ∉ c.events := h.not_mem rfl hd
  have hnew : Event.load dotted ∉ (c.begun env dotted).events := by
    rw [events_begun]
    split <;> simp [hold]
  exact hbegun.of_first rfl rfl hnew (by simp) rfl

end ImportsOnce

end Compilation

section runs

variable {env : Environment} {code : List Stmt} {c c' : Compilation}

theorem Compilation.Settles.imported {key : FunctionKey} {count : Nat}
    (h : c.Settles key count c') : c'.imported = c.imported := by
  cases h <;> rfl

theorem LoopTest.module?_labelEvents (test : LoopTest) (path : ModulePath) (n : Nat) :
    ∀ event ∈ test.labelEvents path n, event.module? = none := by
  intro event hmem
  unfold LoopTest.labelEvents at hmem
  split at hmem <;> simp only [List.mem_cons, List.not_mem_nil, or_false] at hmem
  · rcases hmem with rfl | rfl <;> rfl
  · cases hmem
    rfl

theorem Acts.importsOnce (h : Acts env code c c') (hc : c.ImportsOnce) : c'.ImportsOnce := by
  cases h with
  | giveBack hm hk ho hs =>
      have hsettled := hc.of_eq hs.events hs.imported
      exact hsettled.of_cons rfl rfl rfl
  | beginImport hi hd hs => exact hc.begun hd
  | _ => exact hc.of_eq rfl rfl

theorem Lowers.importsOnce (h : Lowers env code c c') (hc : c.ImportsOnce) : c'.ImportsOnce := by
  induction h with
  | refl code c => exact hc
  | trans _ _ ih ih' => exact ih' (ih hc)
  | act h => exact h.importsOnce hc
  | call _ _ _ _ _ _ _ _ hs ih =>
      have hsettled := (ih hc).of_eq hs.events hs.imported
      exact hsettled.of_cons rfl rfl rfl
  | @loop _ _ c _ _ _ test _ _ _ ih =>
      have hopen : (c.openLoop test).ImportsOnce :=
        hc.of_append _ rfl (test.module?_labelEvents _ _) (List.Subset.refl _)
      exact (ih hopen).of_cons rfl rfl rfl
  | body _ _ _ ih => exact (ih (hc.of_cons rfl rfl rfl)).of_eq rfl rfl
  | @loadModule _ _ _ _ file _ _ hd _ _ ih => exact (ih (hc.openModule hd file)).of_eq rfl rfl

theorem Acts.imported_subset (h : Acts env code c c') : c.imported ⊆ c'.imported := by
  cases h with
  | giveBack hm hk ho hs => exact hs.imported ▸ List.Subset.refl _
  | beginImport hi hd hs => simp
  | _ => exact List.Subset.refl _

/-- Marks are never taken away. -/
theorem Lowers.imported_subset (h : Lowers env code c c') : c.imported ⊆ c'.imported := by
  induction h with
  | refl code c => exact List.Subset.refl _
  | trans _ _ ih ih' => exact List.Subset.trans ih ih'
  | act h => exact h.imported_subset
  | call _ _ _ _ _ _ _ _ hs ih => exact hs.imported ▸ ih
  | loop _ _ _ ih => exact ih
  | body _ _ _ ih => exact ih
  | @loadModule _ c _ dotted _ _ _ _ _ _ ih =>
      have hbegun : c.imported ⊆ (c.begun env dotted).imported := by simp
      exact List.Subset.trans hbegun ih

end runs

section attempts

variable {env : Environment} {enter : Enter} {c c' : Compilation} {name : ImportName}

/-- An import that does anything is one of a module that is not marked. The start-up code of its
extension is run in `begun`, if there is one, and its file is lowered from `openModule` on. Both are
recorded there, and nowhere else. -/
theorem Brings.on_record (h : Brings env enter c name c') :
    let dotted := name.path.text
    let begun := c.begun env dotted
    c' = c ∨ dotted ∉ c.imported ∧
      begun.events =
        (if (env.registry.find? dotted).isSome then .install dotted :: c.events else c.events) ∧
      (c' = begun ∨ ∃ file m, env.sources.find? (.ofDotted dotted) = some (file, .ok m) ∧
        (begun.openModule dotted file).events = .load dotted :: begun.events ∧
        c' = begun.leaveScope (enter m.body (begun.openModule dotted file))) := by
  have hevents := c.events_begun env name.path.text
  cases h with
  | nothing => exact .inl rfl
  | begun hd hs => exact .inr ⟨hd, hevents, .inl rfl⟩
  | loaded hd hs => exact .inr ⟨hd, hevents, .inr ⟨_, _, hs, rfl, rfl⟩⟩

/-- An import of a module that exists leaves it marked, also if it fails. -/
theorem Brings.mem_imported (henter : ∀ stmts c, Lowers env stmts c (enter stmts c))
    (h : Brings env enter c name c') (hn : name.newName? = none)
    (hp : env.Provides name.path.text) : name.path.text ∈ c'.imported := by
  cases h with
  | nothing hreason =>
      rcases hreason with hnew | hd | hnot
      · exact absurd hn hnew
      · exact hd
      · exact absurd hp hnot
  | begun hd hs => simp
  | loaded hd hs =>
      apply (henter _ _).imported_subset
      change _ ∈ (c.begun env name.path.text).imported
      simp

theorem LowerM.importName_of_mem (hn : name.newName? = none) (hd : name.path.text ∈ c.imported) :
    importName env enter name c = .ok () c := by
  unfold importName
  simp only [hn]
  change (if name.path.text ∈ c.imported then pure () else
    importFresh env enter name.path.text name.span : LowerM Unit) c = _
  rw [if_pos hd]
  rfl

theorem LowerM.importNames_of_mem {names : List ImportName}
    (h : ∀ name ∈ names, name.newName? = none ∧ name.path.text ∈ c.imported) :
    importNames env enter names c = c := by
  unfold importNames
  induction names with
  | nil => rfl
  | cons name names ih =>
      obtain ⟨hn, hd⟩ := h name List.mem_cons_self
      have hfirst : reporting (importName env enter name) c = c := by
        unfold reporting
        rw [importName_of_mem hn hd]
      rw [List.foldl_cons, hfirst]
      exact ih fun name hname => h name (List.mem_cons_of_mem _ hname)

end attempts

/-- In a run no extension is installed twice and no file is lowered twice, and what the record says
of an import is what the import does, whether it fails or not. An import of modules that are marked
does nothing at all. A module that exists is marked from its first import on, whatever came of
it. -/
theorem modules_imported_once (env : Environment) (file? : Option String)
    (modules : List Module) :
    Lowers env (modules.flatMap Module.body) (.start file?) (compileModules env file? modules) ∧
    (∀ code c, Lowers env code (.start file?) c → ∀ dotted,
      c.events.count (.install dotted) ≤ 1 ∧ c.events.count (.load dotted) ≤ 1) ∧
    (∀ (name : ImportName) (c c' : Compilation) (depth : Nat),
      let act := LowerM.importName env (LowerM.body env depth) name
      act c = .ok () c' ∨ (∃ failure, act c = .error failure c') →
        let dotted := name.path.text
        let begun := c.begun env dotted
        c' = c ∨ dotted ∉ c.imported ∧
          begun.events =
            (if (env.registry.find? dotted).isSome then .install dotted :: c.events
              else c.events) ∧
          (c' = begun ∨ ∃ file m, env.sources.find? (.ofDotted dotted) = some (file, .ok m) ∧
            (begun.openModule dotted file).events = .load dotted :: begun.events ∧
            c' = begun.leaveScope
              (LowerM.body env depth m.body (begun.openModule dotted file)))) ∧
    (∀ names span c depth,
      (∀ name ∈ names, name.newName? = none ∧ name.path.text ∈ c.imported) →
        LowerM.stmt env (LowerM.body env depth) (.importNames names span) c = .ok () c) ∧
    ∀ name : ImportName, name.newName? = none → env.Provides name.path.text →
      ∀ c depth code later,
        Lowers env code (LowerM.reporting (LowerM.importName env (LowerM.body env depth) name) c)
          later → name.path.text ∈ later.imported := by
  refine ⟨compileModules_lowers env file? modules, fun code c hlowers dotted => ?_, ?_,
    fun names span c depth hnames => ?_, fun name hn hp c depth code later hlater => ?_⟩
  · have honce := hlowers.importsOnce (.start file?)
    exact ⟨honce.once (.install dotted) rfl, honce.once (.load dotted) rfl⟩
  · intro name c c' depth act hend
    have hbrings := LowerM.importName_brings env (LowerM.body env depth) c name
    rcases hend with hok | ⟨failure, herror⟩
    · exact (hbrings.ok hok).on_record
    · exact (hbrings.error herror).on_record
  · rw [LowerM.stmt]
    exact congrArg (EStateM.Result.ok ()) (LowerM.importNames_of_mem hnames)
  · have hattempt := (LowerM.importName_brings env (LowerM.body env depth) c name).imp fun _ h =>
      h.mem_imported (LowerM.body_lowers env depth) hn hp
    exact hlater.imported_subset (hattempt.reporting fun _ _ h => h)

/-- An extension `dev` that fails to start, with a file `dev.p16`. -/
def besideFailingDevice : Environment :=
  ⟨⟨[.directory "."], ⟨[], [(["dev.p16"], .ok ⟨[], default⟩)], []⟩⟩,
    .insert .empty "dev" ⟨[], [], [], some (throw "no device")⟩⟩

def deviceName : ImportName := ⟨⟨[⟨"dev", default⟩], default⟩, none, default⟩

def afterFailedImport : Compilation :=
  LowerM.reporting (LowerM.importName besideFailingDevice (LowerM.body besideFailingDevice 1)
    deviceName) (.start none)

/-- The first import of `dev` fails, and the second one does not even report that. -/
theorem modules_imported_once_failing :
    deviceName.newName? = none ∧ besideFailingDevice.Provides deviceName.path.text ∧
      afterFailedImport.diagnostics.size = 1 ∧
      .install "dev" ∈ afterFailedImport.events ∧ .load "dev" ∉ afterFailedImport.events ∧
      LowerM.stmt besideFailingDevice (LowerM.body besideFailingDevice 1)
        (.importNames [deviceName] default) afterFailedImport = .ok () afterFailedImport := by
  have hprovided : besideFailingDevice.Provides deviceName.path.text := .inl (by decide +kernel)
  obtain ⟨-, -, -, hagain, hmarked⟩ := modules_imported_once besideFailingDevice none []
  have hmem : deviceName.path.text ∈ afterFailedImport.imported :=
    hmarked deviceName rfl hprovided (.start none) 1 [] _ (.refl _ _)
  have hnames : ∀ name ∈ [deviceName], name.newName? = none ∧
      name.path.text ∈ afterFailedImport.imported := by
    intro name hname
    cases List.mem_singleton.mp hname
    exact ⟨rfl, hmem⟩
  refine ⟨rfl, hprovided, ?_, ?_, ?_, hagain [deviceName] default afterFailedImport 1 hnames⟩
  · decide +kernel
  · decide +kernel
  · decide +kernel

end P16
