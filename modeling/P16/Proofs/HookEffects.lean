import P16.Extension.Bundled
import P16.Proofs.Lines
import P16.Proofs.Resolve
import P16.Proofs.Symbols

/-!
# What the bundled hooks do

The hooks of the bundled extensions add lines to the program and put hooks, numbers and labels into
the current module. The labels to which the new lines refer are arguments of the hook or are written
with them; the labels put into the store are written at the same time. Label lines are written for a
few names only.
-/

namespace P16

def Operand.labels : Operand → List String
  | label name => [name]
  | mem address => address.labels
  | memOffset base offset => base.labels ++ offset.labels
  | _ => []

def Line.operands : Line → List Operand
  | label _ => []
  | instruction i => i.operands

def labelOperands (lines : List Line) : List String :=
  lines.flatMap fun line => line.operands.flatMap Operand.labels

theorem mem_labelOperands {name : String} {lines : List Line} :
    name ∈ labelOperands lines ↔ ∃ line ∈ lines, ∃ a ∈ line.operands, name ∈ a.labels := by
  simp [labelOperands, List.mem_flatMap]

@[simp] theorem labelOperands_append (first rest : List Line) :
    labelOperands (first ++ rest) = labelOperands first ++ labelOperands rest :=
  List.flatMap_append

theorem labelOperands_basic (op : BasicOpcode) (target source : Operand) :
    labelOperands [.instruction (.basic op target source)] = target.labels ++ source.labels := by
  simp [labelOperands, Line.operands, Instruction.operands]

theorem labelOperands_set (target source : Operand) :
    labelOperands [.set target source] = target.labels ++ source.labels :=
  labelOperands_basic .set target source

namespace Program

/-- More lines have been written. The labels to which they refer are given or are among theirs. -/
structure Extends (given : String → Prop) (p p' : Program) : Prop where
  lines : ∃ new, p'.everyLine.Perm (p.everyLine ++ new) ∧
    ∀ name ∈ labelOperands new, given name ∨ name ∈ labelNames new
  active : p'.active = p.active
  openBlocks : p'.openBlocks = p.openBlocks
  counters : p'.counters = p.counters
  setAside : p.openBlocks = 0 → p.setAside = #[] → p'.setAside = #[]
  body : p.active = .footer → p'.body = p.body
  continues : Continues p p'

variable {given : String → Prop} {p p₁ p₂ : Program}

theorem Extends.refl (p : Program) : Extends given p p :=
  ⟨⟨[], by simp, by simp [labelOperands]⟩, rfl, rfl, rfl, fun _ h => h, fun _ => rfl,
    .refl p⟩

theorem Extends.trans (h : Extends given p p₁) (g : Extends given p₁ p₂) : Extends given p p₂ := by
  obtain ⟨first, hfirst, hclosed⟩ := h.lines
  obtain ⟨rest, hrest, hclosed'⟩ := g.lines
  refine ⟨⟨first ++ rest, ?_, ?_⟩, g.active.trans h.active, g.openBlocks.trans h.openBlocks,
    g.counters.trans h.counters, fun ho hs => ?_, fun ha => ?_, h.continues.trans g.continues⟩
  · rw [← List.append_assoc]
    exact hrest.trans (hfirst.append_right rest)
  · intro name hname
    rw [labelOperands_append, List.mem_append] at hname
    rw [labelNames_append, List.mem_append]
    rcases hname with hname | hname
    · exact (hclosed name hname).imp_right .inl
    · exact (hclosed' name hname).imp_right .inr
  · exact g.setAside (h.openBlocks.trans ho) (h.setAside ho hs)
  · exact (g.body (h.active.trans ha)).trans (h.body ha)

theorem extends_writeAll {lines : List Line}
    (h : ∀ name ∈ labelOperands lines, given name ∨ name ∈ labelNames lines) :
    Extends given p (p.writeAll lines) :=
  ⟨⟨lines, p.everyLine_writeAll lines, h⟩, by simp, by simp, by simp, by simp,
    p.body_writeAll lines, p.continues_writeAll lines⟩

theorem everyLine_inFooter (p : Program) (lines : List Line) :
    (p.inFooter fun p => p.writeAll lines).everyLine.Perm (p.everyLine ++ lines) := by
  refine (everyLine_leaveFooter _ _).trans ?_
  refine ((everyLine_writeAll _ lines).append_right _).trans ?_
  refine .trans ?_ (p.everyLine_enterFooter.append_right lines)
  simp only [List.append_assoc]
  exact .append_left _ List.perm_append_comm

end Program

/-- A symbol that an extension may put into the store when the given labels are written. -/
inductive Symbol.Provided (labels : List String) : Symbol → Prop where
  | hook (ref : HookRef) : Provided labels (.hook ref)
  | number (n : Int) : Provided labels (.constant (.number n))
  | label {name : String} (h : name ∈ labels) : Provided labels (.constant (.label name))

/-- The names for which the search for devices writes label lines. -/
def Drivers.words : List String :=
  ["initialize", "loop_start", "continue"] ++ devices.flatMap fun device =>
    [device.detected, device.cell]

structure HookEffect (given : String → Prop) (t t' : Target) : Prop where
  program : Program.Extends given t.program t'.program
  symbols : ∀ path name, t'.store.lookup? path name = t.store.lookup? path name ∨
    ∃ symbol, t'.store.lookup? path name = some symbol ∧
      symbol.Provided (labelNames t'.program.everyLine)
  others : t.store.KeepsOthers t'.store
  names : ∀ name ∈ labelNames t'.program.everyLine, name ∈ labelNames t.program.everyLine ∨
    ∃ word ∈ Drivers.words, name = t.store.current.mangle word

section HookEffect

variable {given : String → Prop} {t t₁ t₂ : Target}

theorem Program.Extends.labelNames_subset {p p' : Program} (h : Program.Extends given p p') :
    labelNames p.everyLine ⊆ labelNames p'.everyLine := by
  obtain ⟨new, hnew, -⟩ := h.lines
  intro name hname
  rw [(labelNames_perm hnew).mem_iff, labelNames_append]
  exact List.mem_append_left _ hname

theorem Symbol.Provided.mono {labels labels' : List String} {symbol : Symbol}
    (h : symbol.Provided labels) (hs : labels ⊆ labels') : symbol.Provided labels' := by
  cases h with
  | hook ref => exact .hook ref
  | number n => exact .number n
  | label h => exact .label (hs h)

theorem HookEffect.refl (t : Target) : HookEffect given t t :=
  ⟨.refl _, fun _ _ => .inl rfl, .refl _, fun _ => .inl⟩

theorem HookEffect.trans (h : HookEffect given t t₁) (g : HookEffect given t₁ t₂) :
    HookEffect given t t₂ := by
  constructor
  case program => exact h.program.trans g.program
  case symbols =>
    intro path name
    rcases g.symbols path name with hsame | hnew
    · rw [hsame]
      rcases h.symbols path name with hold | ⟨symbol, hl, hp⟩
      · exact .inl hold
      · exact .inr ⟨symbol, hl, hp.mono g.program.labelNames_subset⟩
    · exact .inr hnew
  case others => exact h.others.trans g.others
  case names =>
    intro name hname
    rcases g.names name hname with hold | hnew
    · exact h.names name hold
    · rw [h.others.current] at hnew
      exact .inr hnew

end HookEffect

namespace HookM

variable {α β : Type} {given : String → Prop}

/-- The state in which an action ends, whether it fails or not. -/
def finish (act : HookM α) (t : Target) : Target :=
  match act t with
  | .ok _ t => t
  | .error _ t => t

def Does (given : String → Prop) (act : HookM α) : Prop :=
  ∀ t, HookEffect given t (act.finish t)

theorem Does.pure (a : α) : Does given (pure a : HookM α) := fun t => .refl t

theorem Does.bind {act : HookM α} {f : α → HookM β} (h : Does given act)
    (hf : ∀ a, Does given (f a)) : Does given (act >>= f) := by
  intro t
  have hact := h t
  unfold finish at hact ⊢
  simp only [Bind.bind, EStateM.bind]
  cases he : act t with
  | ok a t₁ =>
      rw [he] at hact
      exact hact.trans (hf a t₁)
  | error message t₁ =>
      rw [he] at hact
      exact hact

theorem Does.check_bind {x : Except String α} {f : α → HookM β}
    (hf : ∀ a, x = .ok a → Does given (f a)) :
    Does given ((MonadExcept.ofExcept x : HookM α) >>= f) := by
  cases x with
  | error message => exact fun t => .refl t
  | ok a => exact hf a rfl

theorem Does.getStore : Does given getStore := fun t => .refl t

theorem Does.write (lines : List Line) (hn : labelNames lines = [])
    (h : ∀ name ∈ labelOperands lines, given name) :
    Does given (write fun p => p.writeAll lines) := by
  refine fun t => ⟨Program.extends_writeAll fun name hname => .inl (h name hname),
    fun _ _ => .inl rfl, .refl _, fun name hname => .inl ?_⟩
  have hperm := t.program.labelNames_writeAll lines []
  rw [List.append_nil, List.append_nil, hn] at hperm
  exact hperm.mem_iff.mp hname

theorem Does.updateStore {f : Store → Store} (ho : ∀ s : Store, s.KeepsOthers (f s))
    (h : ∀ s path name, (f s).lookup? path name = s.lookup? path name ∨
      ∃ symbol, (f s).lookup? path name = some symbol ∧ symbol.Provided []) :
    Does given (updateStore f) := by
  refine fun t => ⟨.refl _, fun path name => ?_, ho t.store, fun _ => .inl⟩
  rcases h t.store path name with hsame | ⟨symbol, hl, hp⟩
  · exact .inl hsame
  · exact .inr ⟨symbol, hl, hp.mono (List.nil_subset _)⟩

end HookM

/-- A label among the arguments of a hook. -/
def CallArguments.Gives (args : CallArguments) (label : String) : Prop :=
  ∃ place name, args.find? place name = some (.label label)

theorem Value.labels_operand? {value : Value} {a : Operand} (h : value.operand? = some a)
    {name : String} (hn : name ∈ a.labels) : value = .label name := by
  cases value with
  | number n =>
      obtain ⟨w, -, rfl⟩ := Option.map_eq_some_iff.mp h
      cases hn
  | register x =>
      cases h
      cases hn
  | label other =>
      cases h
      rw [List.mem_singleton.mp hn]
  | _ => cases h

section bundled

variable (args : CallArguments)

theorem CallArguments.find?_of_get {args : CallArguments} {place : Nat} {name : String}
    {value : Value} (h : args.get place name = .ok value) : args.find? place name = some value := by
  unfold get at h
  split at h
  · rename_i found hf
    cases h
    exact hf
  · cases h

theorem CallArguments.gives_of_operand {args : CallArguments} {place : Nat} {name : String}
    {a : Operand} (h : args.operand place name = .ok a) {label : String} (hl : label ∈ a.labels) :
    args.Gives label := by
  obtain ⟨value, hv, h⟩ := exists_of_bind_eq_ok h
  unfold Value.expectOperand at h
  split at h
  · rename_i operand ho
    cases h
    cases Value.labels_operand? ho hl
    exact ⟨place, name, find?_of_get hv⟩
  · cases h

theorem ScreenText.write_does {given : String → Prop} (colors : ScreenText.Colors) (location : Int)
    (text : List Char) : (ScreenText.write colors location text).Does given := by
  induction text generalizing location with
  | nil => exact .pure ()
  | cons c text ih =>
      refine .check_bind fun word _ => .check_bind fun target ht => ?_
      have hlabels : target.labels = [] := by
        unfold ScreenText.address at ht
        split at ht <;> cases ht
        rfl
      refine .bind (.write [.set target (.lit word)] rfl fun name hname => ?_) fun _ => ih _
      rw [labelOperands_set, hlabels] at hname
      cases hname

theorem Memory.set_does : (Memory.set args).Does args.Gives := by
  refine .check_bind fun _ _ => .check_bind fun location hl => .check_bind fun value hv => ?_
  refine .write [.set (.mem location) value] rfl fun name hname => ?_
  rw [labelOperands_set, List.mem_append] at hname
  rcases hname with hname | hname
  · exact CallArguments.gives_of_operand hl hname
  · exact CallArguments.gives_of_operand hv hname

theorem Memory.setString_does : (Memory.setString args).Does args.Gives := by
  refine .check_bind fun _ _ => .check_bind fun start _ => .check_bind fun text _ => ?_
  exact .check_bind fun foreground _ => .check_bind fun background _ => ScreenText.write_does _ _ _

theorem Cpu.gives_of_hardware {args : CallArguments} {device : Operand}
    (h : (args.get 0 "hardware" >>= Cpu.hardware) = .ok device) {label : String}
    (hl : label ∈ device.labels) : args.Gives label := by
  obtain ⟨value, hv, h⟩ := exists_of_bind_eq_ok h
  suffices value = .label label from ⟨0, "hardware", this ▸ CallArguments.find?_of_get hv⟩
  unfold Cpu.hardware at h
  split at h
  · cases h
    rw [List.mem_singleton.mp hl]
  · unfold Value.expectOperand at h
    split at h
    · rename_i ho
      cases h
      exact Value.labels_operand? ho hl
    · cases h

theorem Cpu.interrupt_does : (Cpu.interrupt args).Does args.Gives := by
  refine .check_bind fun _ _ => .check_bind fun device hd => .check_bind fun message hm => ?_
  refine .write [.push (.reg .A), .set (.reg .A) message,
    .instruction (.special .hwi device), .pop (.reg .A)] rfl fun name hname => ?_
  have hlabels : name ∈ message.labels ++ device.labels := by
    simpa [labelOperands, Line.push, Line.pop, Line.set, Line.operands, Instruction.operands,
      Operand.labels] using hname
  rcases List.mem_append.mp hlabels with hname | hname
  · exact CallArguments.gives_of_operand hm hname
  · exact gives_of_hardware hd hname

theorem Display.configure_does : (Display.configure args).Does args.Gives := by
  refine .check_bind fun _ _ => .updateStore (fun s => ?_) fun s path name => .inl ?_
  · exact .foldl (fun s _ => .configure s _ _) _ s
  · rw [Store.lookup?_foldl_configure]

theorem Display.writeStatic_does : (Display.writeStatic args).Does args.Gives := by
  refine .check_bind fun _ _ => .check_bind fun text _ => .check_bind fun location _ => ?_
  refine .bind .getStore fun store => ?_
  exact .check_bind fun foreground _ => .check_bind fun background _ => ScreenText.write_does _ _ _

end bundled

namespace Drivers

variable (path : ModulePath)

/-- The lines by which importing the module calls the routine. -/
def startUpLines : List Line :=
  (clobbered.map fun x => .push (.reg x)) ++ .call (path.mangle "initialize") ::
    clobbered.reverse.map fun x => .pop (.reg x)

def recogniseLines (device : Device) : List Line :=
  [.instruction (.basic .ife (.reg .A) (.lit device.idLow)),
   .instruction (.basic .ife (.reg .B) (.lit device.idHigh)), .jump (path.mangle device.detected)]

def keepLines (device : Device) : List Line :=
  [.label (path.mangle device.detected), .set (.mem (.label (path.mangle device.cell))) (.reg .J),
   .jump (path.mangle "continue"), .label (path.mangle device.cell),
   .instruction (.data [.lit 0xffff])]

def routineLines : List Line :=
  [.label (path.mangle "initialize"), .instruction (.special .hwn (.reg .I)),
   .set (.reg .J) (.lit 0), .label (path.mangle "loop_start"),
   .instruction (.basic .ife (.reg .J) (.reg .I)), .pop (.special .pc),
   .instruction (.special .hwq (.reg .J))] ++ devices.flatMap (recogniseLines path) ++
  [.label (path.mangle "continue"), .instruction (.basic .add (.reg .J) (.lit 1)),
   .jump (path.mangle "loop_start")] ++ devices.flatMap (keepLines path)

theorem labelNames_routineLines :
    labelNames (routineLines path) = words.map path.mangle := by
  rfl

theorem mem_labelNames_startUp {p : Program} {name : String}
    (h : name ∈ labelNames ((p.writeAll (startUpLines path)).inFooter fun p =>
      p.writeAll (routineLines path)).everyLine) :
    name ∈ labelNames p.everyLine ∨ ∃ word ∈ words, name = path.mangle word := by
  have hperm := labelNames_perm ((Program.everyLine_inFooter _ _).trans
    ((p.everyLine_writeAll (startUpLines path)).append_right (routineLines path)))
  have hstart : labelNames (startUpLines path) = [] := rfl
  rw [labelNames_append, labelNames_append, hstart, List.append_nil, labelNames_routineLines]
    at hperm
  rcases List.mem_append.mp (hperm.mem_iff.mp h) with hold | hnew
  · exact .inl hold
  · obtain ⟨word, hword, rfl⟩ := List.mem_map.mp hnew
    exact .inr ⟨word, hword, rfl⟩

/-- The routine and its call refer to labels of the routine only. -/
theorem labelOperands_subset :
    labelOperands (startUpLines path ++ routineLines path) ⊆ labelNames (routineLines path) := by
  have hoperands : labelOperands (startUpLines path ++ routineLines path) =
      ("initialize" :: (devices.map Device.detected ++ "loop_start" ::
        devices.flatMap fun device => [device.cell, "continue"])).map path.mangle := by
    rfl
  rw [hoperands, labelNames_routineLines]
  exact List.map_subset _ (by decide)

theorem extends_startUp {given : String → Prop} (p : Program) :
    Program.Extends given p ((p.writeAll (startUpLines path)).inFooter fun p =>
      p.writeAll (routineLines path)) := by
  constructor
  · refine ⟨startUpLines path ++ routineLines path, ?_, fun name hname => .inr ?_⟩
    · rw [← List.append_assoc]
      exact (Program.everyLine_inFooter _ _).trans ((p.everyLine_writeAll _).append_right _)
    · rw [labelNames_append]
      exact List.mem_append_right _ (labelOperands_subset path hname)
  · simp [Program.inFooter, Program.enterFooter, Program.openBlock, Program.switch]
  · simp [Program.inFooter, Program.enterFooter, Program.openBlock, Program.switch]
  · simp [Program.inFooter, Program.enterFooter, Program.openBlock, Program.switch]
  · intro ho _
    refine Program.setAside_leaveFooter _ _ ?_
    rw [Program.openBlocks_writeAll]
    change (p.writeAll (startUpLines path)).openBlocks + 1 = 1
    rw [Program.openBlocks_writeAll, ho]
  · intro ha
    rw [Program.inFooter, Program.body_leaveFooter, Program.body_writeAll _ _ rfl]
    exact p.body_writeAll (startUpLines path) ha
  · exact (p.continues_writeAll _).trans (.inFooter (Program.continues_writeAll _ _))

end Drivers

theorem Extension.define_keepsOthers (e : Extension) (name : String) (s : Store) :
    s.KeepsOthers (e.define name s) := by
  have hhooks :=
    Store.foldl_define_keepsOthers Hook.name (fun _ h => .hook ⟨name, h.name⟩) e.hooks s
  have hconstants := Store.foldl_define_keepsOthers Prod.fst (fun _ c => .constant c.2) e.constants
    (e.hooks.foldl (fun s h => s.define h.name (.hook ⟨name, h.name⟩)) s)
  refine (hhooks.trans hconstants).trans ?_
  exact Store.foldl_define_keepsOthers id (fun path cell => .constant (.label (path.mangle cell)))
    e.cells _

/-- A symbol that the extension itself puts into the module `path`. -/
inductive Extension.Defines (e : Extension) (path : ModulePath) : Symbol → Prop where
  | hook (ref : HookRef) : e.Defines path (.hook ref)
  | constant {entry : String × Value} (h : entry ∈ e.constants) :
      e.Defines path (.constant entry.2)
  | cell {name : String} (h : name ∈ e.cells) :
      e.Defines path (.constant (.label (path.mangle name)))

theorem Extension.lookup?_define (e : Extension) (name : String) (s : Store) (path : ModulePath)
    (key : String) :
    (e.define name s).lookup? path key = s.lookup? path key ∨
      ∃ symbol, (e.define name s).lookup? path key = some symbol ∧ e.Defines s.current symbol := by
  let hooked := e.hooks.foldl (fun s h => s.define h.name (.hook ⟨name, h.name⟩)) s
  let filled := e.constants.foldl (fun s c => s.define c.1 (.constant c.2)) hooked
  have hhooked : hooked.current = s.current :=
    Store.current_foldl_define Hook.name (fun _ h => .hook ⟨name, h.name⟩) e.hooks s
  have hfilled : filled.current = hooked.current :=
    Store.current_foldl_define Prod.fst (fun _ c => .constant c.2) e.constants hooked
  rcases Store.lookup?_foldl_define id (fun path cell => .constant (.label (path.mangle cell)))
    e.cells filled path key with ⟨-, hc⟩ | ⟨-, cell, hcell, hc⟩
  · rcases Store.lookup?_foldl_define Prod.fst (fun _ c => .constant c.2) e.constants hooked path
      key with ⟨-, hn⟩ | ⟨-, entry, hentry, hn⟩
    · rcases Store.lookup?_foldl_define Hook.name (fun _ h => .hook ⟨name, h.name⟩) e.hooks s
        path key with ⟨-, hk⟩ | ⟨-, hook, -, hk⟩
      · exact .inl ((hc.trans hn).trans hk)
      · exact .inr ⟨_, (hc.trans hn).trans hk, .hook _⟩
    · exact .inr ⟨_, hc.trans hn, .constant hentry⟩
  · refine .inr ⟨_, hc, ?_⟩
    rw [hfilled, hhooked]
    exact .cell hcell

namespace Registry

/-- Every extension of the registry is the bundled one of its name. -/
def OnlyBundled (r : Registry) : Prop :=
  ∀ name e, r.find? name = some e → bundled.find? name = some e

theorem onlyBundled_bundled : bundled.OnlyBundled := fun _ _ h => h

theorem onlyBundled_empty : empty.OnlyBundled := nofun

theorem mem_bundled {name : String} {e : Extension} (h : bundled.find? name = some e) :
    e ∈ [Cpu.extension, Display.extension, Drivers.extension, Memory.extension] := by
  have hentries : bundled.entries = [("dev.cpu", Cpu.extension), ("dev.display", Display.extension),
      ("dev.drivers", Drivers.extension), ("mem", Memory.extension)] := by
    rfl
  unfold find? at h
  obtain ⟨entry, hentry, rfl⟩ := Option.map_eq_some_iff.mp h
  have hmem := List.mem_of_find?_eq_some hentry
  rw [hentries] at hmem
  exact List.mem_map_of_mem (f := Prod.snd) hmem

end Registry

theorem Drivers.startedUp {given : String → Prop} (t : Target) :
    HookEffect given t ⟨(t.program.writeAll (startUpLines t.store.current)).inFooter fun p =>
      p.writeAll (routineLines t.store.current), t.store, t.notes⟩ := by
  constructor
  case program =>
    dsimp only
    exact extends_startUp t.store.current t.program
  case symbols => exact fun _ _ => .inl rfl
  case others => exact .refl _
  case names =>
    dsimp only
    exact fun _ hname => mem_labelNames_startUp t.store.current hname

/-- The words of the devices are written when their labels become constants. -/
theorem Drivers.installed {given : String → Prop} (name : String) (t : Target) (path : ModulePath)
    (hpath : path = t.store.current) :
    HookEffect given t ⟨(t.program.writeAll (startUpLines path)).inFooter fun p =>
      p.writeAll (routineLines path), Drivers.extension.define name t.store, t.notes⟩ := by
  constructor
  case program =>
    dsimp only
    exact extends_startUp path t.program
  case others => exact Drivers.extension.define_keepsOthers name t.store
  case names =>
    dsimp only
    rw [← hpath]
    exact fun _ hname => mem_labelNames_startUp path hname
  intro other key
  rcases Drivers.extension.lookup?_define name t.store other key with h | ⟨symbol, hl, hd⟩
  · exact .inl h
  refine .inr ⟨symbol, hl, ?_⟩
  cases hd with
  | hook ref => exact .hook ref
  | constant hentry => cases hentry
  | cell hcell =>
    obtain ⟨device, hdevice, rfl⟩ := List.mem_map.mp hcell
    have hlabel : path.mangle device.cell ∈ labelNames (routineLines path) := by
      rw [labelNames_routineLines]
      refine List.mem_map_of_mem (List.mem_append_right _ ?_)
      exact List.mem_flatMap.mpr ⟨device, hdevice, by simp⟩
    have hperm := labelNames_perm
      ((t.program.writeAll (startUpLines path)).everyLine_inFooter (routineLines path))
    rw [labelNames_append] at hperm
    refine .label ?_
    dsimp only
    rw [← hpath]
    exact hperm.mem_iff.mpr (List.mem_append_right _ hlabel)

section bundled

variable {e : Extension}
  (he : e ∈ [Cpu.extension, Display.extension, Drivers.extension, Memory.extension])
include he

theorem hook_does {name : String} {hook : Hook} (hh : e.hook? name = some hook)
    (args : CallArguments) : (hook.run args).Does args.Gives := by
  have hmem : hook ∈ e.hooks := List.mem_reverse.mp (List.mem_of_find?_eq_some hh)
  simp only [List.mem_cons, List.not_mem_nil, or_false] at he
  rcases he with rfl | rfl | rfl | rfl
  · rcases hmem with ⟨⟩ | ⟨_, ⟨⟩⟩
    exact Cpu.interrupt_does args
  · rcases hmem with ⟨⟩ | ⟨_, ⟨⟩ | ⟨_, ⟨⟩⟩⟩
    · exact Display.configure_does args
    · exact Display.writeStatic_does args
  · cases hmem
  · rcases hmem with ⟨⟩ | ⟨_, ⟨⟩ | ⟨_, ⟨⟩⟩⟩
    · exact Memory.set_does args
    · exact Memory.setString_does args

theorem constants_number : ∀ entry ∈ e.constants, ∃ n, entry.2 = .number n := by
  simp only [List.mem_cons, List.not_mem_nil, or_false] at he
  intro entry hentry
  rcases he with rfl | rfl | rfl | rfl
  · cases hentry
  · obtain ⟨color, -, rfl⟩ := List.mem_map.mp hentry
    exact ⟨_, rfl⟩
  · cases hentry
  · cases hentry

theorem install_does {given : String → Prop} (name : String) : (e.install name).Does given := by
  have hdefine (hc : e.cells = []) : (HookM.updateStore (e.define name)).Does given := by
    refine .updateStore (e.define_keepsOthers name) fun s path key => ?_
    rcases e.lookup?_define name s path key with h | ⟨symbol, hl, hd⟩
    · exact .inl h
    refine .inr ⟨symbol, hl, ?_⟩
    cases hd with
    | hook ref => exact .hook ref
    | @constant entry hentry =>
        obtain ⟨n, hn⟩ := constants_number he entry hentry
        rw [hn]
        exact .number n
    | cell hcell => simp [hc] at hcell
  simp only [List.mem_cons, List.not_mem_nil, or_false] at he
  rcases he with rfl | rfl | rfl | rfl
  · exact .bind (hdefine rfl) fun _ => .pure ()
  · exact .bind (hdefine rfl) fun _ => .pure ()
  · intro t
    exact Drivers.installed name t _ (Drivers.extension.define_keepsOthers name t.store).current
  · exact .bind (hdefine rfl) fun _ => .pure ()

theorem startUp_does {given : String → Prop} {startUp : HookM Unit}
    (hs : e.startUp? = some startUp) : startUp.Does given := by
  simp only [List.mem_cons, List.not_mem_nil, or_false] at he
  rcases he with rfl | rfl | rfl | rfl
  · cases hs
  · cases hs
  · cases hs
    exact fun t => Drivers.startedUp t
  · cases hs

end bundled

namespace Registry

/-- Every hook and every start-up relates what it finds to what it leaves. -/
structure Each (r : Registry) (R : Target → Target → Prop) : Prop where
  hooks : ∀ {ref : HookRef} {hook : Hook}, r.hook? ref = some hook →
    ∀ args t, R t ((hook.run args).finish t)
  startUps : ∀ {name : String} {e : Extension} {startUp : HookM Unit}, r.find? name = some e →
    e.startUp? = some startUp → ∀ t, R t (startUp.finish t)

variable {r : Registry} {R : Target → Target → Prop}

theorem Each.install (h : r.Each R) {name : String} {e : Extension} (he : r.find? name = some e)
    (htrans : ∀ t₁ t₂ t₃, R t₁ t₂ → R t₂ t₃ → R t₁ t₃)
    (hdefine : ∀ t, R t { t with store := e.define name t.store }) (t : Target) :
    R t ((e.install name).finish t) := by
  unfold Extension.install
  cases hs : e.startUp? with
  | none => exact hdefine t
  | some startUp => exact htrans _ _ _ (hdefine t) (h.startUps he hs _)

theorem OnlyBundled.hook_does (hr : r.OnlyBundled) {ref : HookRef} {hook : Hook}
    (h : r.hook? ref = some hook) (args : CallArguments) : (hook.run args).Does args.Gives := by
  obtain ⟨e, he, hh⟩ := Option.bind_eq_some_iff.mp h
  exact P16.hook_does (mem_bundled (hr _ e he)) hh args

theorem OnlyBundled.each (hr : r.OnlyBundled)
    (hR : ∀ given t t', HookEffect given t t' → R t t') : r.Each R where
  hooks h args t := hR _ _ _ (hr.hook_does h args t)
  startUps he hs t := hR (fun _ => False) _ _ (startUp_does (mem_bundled (hr _ _ he)) hs t)

end Registry

end P16
