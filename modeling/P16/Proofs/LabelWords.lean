import Mathlib.Data.List.Basic
import P16.Proofs.LabelOrigins
import P16.Proofs.ParsedNames
import P16.Proofs.Spellings

/-!
# Labels are words

The label lines of a program are written for names of modules, and in sources that have been read
from text these names are words. So all labels are words, which do not begin with a digit. A label
may still be spelled like a register: that happens exactly if a function of the root is named so and
its body is written.
-/

namespace P16

open Compilation

section words

namespace IsWord

variable {text : String}

theorem isWordRest (h : IsWord text) : ∀ c ∈ text.toList, Scan.isWordRest c := by
  obtain ⟨c, cs, htext, hstart, hrest⟩ := h
  rw [htext]
  exact List.forall_mem_cons.mpr ⟨Scan.isWordRest_of_isWordStart hstart, hrest⟩

theorem append (h : IsWord text) {more : String} (hm : ∀ c ∈ more.toList, Scan.isWordRest c) :
    IsWord (text ++ more) := by
  obtain ⟨c, cs, htext, hstart, hrest⟩ := h
  refine ⟨c, cs ++ more.toList, ?_, hstart, List.forall_mem_append.mpr ⟨hrest, hm⟩⟩
  rw [String.toList_append, htext, List.cons_append]

theorem not_mem (h : IsWord text) {c : Char} (hc : Scan.isWordRest c = false) :
    c ∉ text.toList := by
  intro hmem
  rw [h.isWordRest c hmem] at hc
  cases hc

end IsWord

theorem isWord_intercalate {pieces : List String} (hne : pieces ≠ [])
    (h : ∀ piece ∈ pieces, IsWord piece) : IsWord ("__".intercalate pieces) := by
  induction pieces with
  | nil => exact absurd rfl hne
  | cons piece rest ih =>
      obtain ⟨hpiece, hrest⟩ := List.forall_mem_cons.mp h
      cases rest with
      | nil => rwa [String.intercalate_singleton]
      | cons next rest =>
          rw [String.intercalate_cons_cons]
          have hunderscores : ∀ c ∈ "__".toList, Scan.isWordRest c :=
            List.all_eq_true.mp (by decide)
          exact (hpiece.append hunderscores).append (ih (List.cons_ne_nil _ _) hrest).isWordRest

theorem isWord_loopName (n : Nat) {part : String} (h : ∀ c ∈ part.toList, Scan.isWordRest c) :
    IsWord (loopName n part) := by
  have hdigits : ∀ c ∈ Nat.toDigits 10 n, Scan.isWordRest c := by
    intro c hc
    have hdigit := Nat.isDigit_of_mem_toDigits (by decide) (by decide) hc
    simp [Scan.isWordRest, Char.isAlphanum, hdigit]
  refine ⟨'b', "uiltin_loop_".toList ++ (Nat.toDigits 10 n ++ '_' :: part.toList), ?_, by decide,
    ?_⟩
  · rw [toList_loopName]
    rfl
  · rw [List.forall_mem_append, List.forall_mem_append, List.forall_mem_cons]
    exact ⟨List.all_eq_true.mp (by decide), hdigits, by decide, h⟩

theorem splitChars_eq_splitOn (separator : Char) (cs : List Char) :
    splitChars separator cs = cs.splitOn separator := by
  induction cs with
  | nil => rfl
  | cons c cs ih =>
      rw [splitChars, ih, List.splitOn_eq_splitOnP, List.splitOn_eq_splitOnP,
        List.splitOnP_cons_eq_if_modifyHead]
      by_cases hc : c = separator
      · simp [hc]
      · simp only [hc, beq_iff_eq, if_false]
        cases hs : cs.splitOnP (· == separator) with
        | nil => exact absurd hs (List.splitOnP_ne_nil _ _)
        | cons piece rest => rfl

theorem splitText_intercalate {pieces : List String} (hne : pieces ≠ [])
    (h : ∀ piece ∈ pieces, '.' ∉ piece.toList) :
    splitText '.' (".".intercalate pieces) = pieces := by
  have hdots : ∀ piece ∈ pieces.map String.toList, '.' ∉ piece := by
    simpa only [List.forall_mem_map] using h
  have hchars : ".".toList = ['.'] := rfl
  rw [splitText, splitChars_eq_splitOn, String.toList_intercalate, hchars,
    List.splitOn_intercalate '.' hdots (by simpa using hne), List.map_map]
  simp [Function.comp_def]

namespace ModulePath

/-- All parts of the path are words. -/
def Named (path : ModulePath) : Prop := ∀ segment ∈ path.segments, IsWord segment

theorem named_root : root.Named := nofun

theorem mangle_root (name : String) : root.mangle name = name := String.intercalate_singleton

theorem Named.isWord_mangle {path : ModulePath} (h : path.Named) {name : String}
    (hn : IsWord name) : IsWord (path.mangle name) :=
  isWord_intercalate (by simp)
    (List.forall_mem_append.mpr ⟨h, List.forall_mem_singleton.mpr hn⟩)

/-- Dots do not occur in words, so the parts of an imported name are those of its path. -/
theorem named_ofDotted {name : DottedName} (h : name.Named) : (ofDotted name.text).Named := by
  unfold ofDotted
  split
  · exact named_root
  · have hsegments : name.segments.map Ident.text ≠ [] := by simpa using h.1
    have hwords : ∀ segment ∈ name.segments.map Ident.text, IsWord segment := by
      simpa only [List.forall_mem_map] using h.2
    intro segment hsegment
    rw [DottedName.text,
      splitText_intercalate hsegments fun piece hpiece => (hwords piece hpiece).not_mem (by decide)]
      at hsegment
    exact hwords segment hsegment

end ModulePath

/-- How registers and special operands are spelled. -/
def operandNames : List String :=
  Register.all.map Register.name ++ SpecialOperand.all.map SpecialOperand.name

/-- Only names of the root keep their spelling, as there are underscores in all other labels. -/
theorem ModulePath.eq_root_of_mangle_mem {path : ModulePath} {name : String}
    (h : path.mangle name ∈ operandNames) : path = root := by
  have hplain : ∀ text ∈ operandNames, '_' ∉ text.toList := by decide
  by_contra hne
  apply hplain _ h
  have hsegments : path.segments ≠ [] := by
    intro hnil
    exact hne (by cases path; simp_all [root])
  rw [mangle, String.intercalate_append_of_ne_nil hsegments (List.cons_ne_nil _ _)]
  simp

theorem Drivers.isWord_of_mem_words : ∀ word ∈ words, IsWord word := by decide

end words

/-- Symbols belong to modules named by words. A function is named by a word as well, has the label
of its name, and its body is lowered in its module. -/
def Symbol.Named (path : ModulePath) (name : String) (symbol : Symbol) : Prop :=
  path.Named ∧ ∀ f, symbol = .function f → IsWord name ∧ f.label = path.mangle name ∧
    f.path = path ∧ Stmt.AllNamed f.definition.body

namespace Compilation

/-- The label is that of a name for which a label line has been written, or it belongs to the search
for devices. -/
def Marks (c : Compilation) (label : String) : Prop :=
  ∃ path name, label = path.mangle name ∧
    ((path, name) ∈ c.origins ∨ path.Named ∧ name ∈ Drivers.words)

/-- All names are words, those of the label lines in the program and in `held` included. -/
structure WellNamed (c : Compilation) (held : List Line) : Prop where
  current : c.store.current.Named
  origins : ∀ o ∈ c.origins, o.1.Named ∧ IsWord o.2
  labels : ∀ label ∈ labelNames (c.program.everyLine ++ held), c.Marks label
  symbols : c.store.All Symbol.Named

namespace WellNamed

variable {env : Environment} {held held' : List Line} {c c' : Compilation}

theorem isWord (h : c.WellNamed held) {label : String}
    (hl : label ∈ labelNames (c.program.everyLine ++ held)) : IsWord label := by
  obtain ⟨path, name, rfl, hmem | ⟨hpath, hword⟩⟩ := h.labels label hl
  · exact (h.origins _ hmem).1.isWord_mangle (h.origins _ hmem).2
  · exact hpath.isWord_mangle (Drivers.isWord_of_mem_words name hword)

theorem mem_origins (h : c.WellNamed held) {label : String}
    (hl : label ∈ labelNames (c.program.everyLine ++ held)) (ho : label ∈ operandNames) :
    (.root, label) ∈ c.origins := by
  obtain ⟨path, name, rfl, hmem⟩ := h.labels label hl
  obtain rfl := ModulePath.eq_root_of_mangle_mem ho
  rw [ModulePath.mangle_root] at ho ⊢
  rcases hmem with hmem | ⟨-, hword⟩
  · exact hmem
  · have hother : ∀ word ∈ Drivers.words, word ∉ operandNames := by decide
    exact absurd ho (hother name hword)

theorem grow (h : c.WellNamed held) {new : List Origin} (ho : c'.origins = new ++ c.origins)
    (hnew : ∀ o ∈ new, o.1.Named ∧ IsWord o.2)
    (hl : ∀ label ∈ labelNames (c'.program.everyLine ++ held'),
      (∃ o ∈ new, label = o.1.mangle o.2) ∨ label ∈ labelNames (c.program.everyLine ++ held))
    (hc : c'.store.current.Named) (hs : c'.store.All Symbol.Named) : c'.WellNamed held' := by
  refine ⟨hc, ?_, fun label hlabel => ?_, hs⟩
  · rw [ho]
    exact List.forall_mem_append.mpr ⟨hnew, h.origins⟩
  · rcases hl label hlabel with ⟨o, ho', rfl⟩ | hold
    · refine ⟨o.1, o.2, rfl, .inl ?_⟩
      rw [ho]
      exact List.mem_append_left _ ho'
    · obtain ⟨path, name, rfl, hmem⟩ := h.labels label hold
      refine ⟨path, name, rfl, hmem.imp_left fun hmem => ?_⟩
      rw [ho]
      exact List.mem_append_right _ hmem

theorem keep (h : c.WellNamed held) (ho : c'.origins = c.origins)
    (hl : labelNames (c'.program.everyLine ++ held') ⊆ labelNames (c.program.everyLine ++ held))
    (hc : c'.store.current.Named) (hs : c'.store.All Symbol.Named) : c'.WellNamed held' :=
  h.grow (ho.trans (List.nil_append _).symm) (by simp) (fun _ hlabel => .inr (hl hlabel)) hc hs

theorem writeAll (h : c.WellNamed held) (lines : List Line) (hl : labelNames lines = []) :
    (c.write fun p => p.writeAll lines).WellNamed held := by
  refine h.keep rfl (fun label hlabel => ?_) h.current h.symbols
  have hmem := (c.program.labelNames_writeAll lines held).mem_iff.mp hlabel
  rwa [hl] at hmem

theorem updateStore (h : c.WellNamed held) {f : Store → Store}
    (hc : (f c.store).current = c.store.current) (hs : (f c.store).All Symbol.Named) :
    (c.updateStore f).WellNamed held :=
  h.keep rfl (List.Subset.refl _) (hc ▸ h.current) hs

theorem function (h : c.WellNamed held) {key : FunctionKey} {f : FunctionSymbol}
    (hf : c.function? key = some f) :
    key.path.Named ∧ IsWord key.name ∧ f.label = key.path.mangle key.name ∧ f.path = key.path ∧
      Stmt.AllNamed f.definition.body := by
  obtain ⟨hpath, hfunction⟩ := h.symbols _ _ _ ((c.store.functionIn?_eq_some _ _).mp hf)
  exact ⟨hpath, hfunction f rfl⟩

theorem updateFunction (h : c.WellNamed held) (key : FunctionKey)
    {g : FunctionSymbol → FunctionSymbol}
    (hg : ∀ f, (g f).label = f.label ∧ (g f).path = f.path ∧ (g f).definition = f.definition) :
    (c.updateFunction key g).WellNamed held := by
  refine h.updateStore (Store.current_updateFunction ..) ?_
  refine h.symbols.updateFunction fun f hf => ?_
  have hfound : c.function? key = some f := hf
  obtain ⟨hpath, hfunction⟩ := h.function hfound
  refine ⟨hpath, ?_⟩
  rintro _ ⟨⟩
  obtain ⟨hlabel, hmodule, hdefinition⟩ := hg f
  rw [hlabel, hmodule, hdefinition]
  exact hfunction

theorem settles (h : c.WellNamed held) {key : FunctionKey} {count : Nat}
    (hs : c.Settles key count c') : c'.WellNamed held := by
  cases hs with
  | agrees _ => exact h
  | fixes _ => exact h.updateFunction key fun f => ⟨rfl, rfl, rfl⟩

theorem record (h : c.WellNamed held) (event : Event) (he : event.origin? = none) :
    (c.record event).WellNamed held := by
  refine h.keep ?_ (List.Subset.refl _) h.current h.symbols
  simp [Compilation.origins, Compilation.record, he]

theorem number (h : c.WellNamed held) (names : List String) :
    (c.updateStore (LowerM.defineNumbers names)).WellNamed held := by
  refine h.updateStore (current_defineNumbers names c.store) fun path name symbol hl => ?_
  rcases lookup?_defineNumbers names c.store path name with ⟨-, he⟩ | ⟨⟨rfl, -⟩, n, he⟩
  · exact h.symbols _ _ _ (he ▸ hl)
  · rw [he] at hl
    cases hl
    exact ⟨h.current, nofun⟩

theorem declare (h : c.WellNamed held) {d : FunctionDef} (hname : IsWord d.name.text)
    (hbody : Stmt.AllNamed d.body) : (c.declare d).WellNamed held := by
  refine h.updateStore rfl (h.symbols.define ⟨h.current, ?_⟩)
  rintro _ ⟨⟩
  exact ⟨hname, rfl, rfl, hbody⟩

theorem enterScope (h : c.WellNamed held) {path : ModulePath} (hp : path.Named) (scope : Scope) :
    (c.enterScope path scope).WellNamed held :=
  h.keep rfl (List.Subset.refl _) hp h.symbols.enter

theorem exists_origin_of_headerLines {test : LoopTest} {path : ModulePath} {n : Nat}
    {label : String} (h : label ∈ labelNames
      (test.headerLines (.numbered path n) (path.mangle (loopName n "body")))) :
    ∃ o ∈ test.origins path n, label = o.1.mangle o.2 := by
  rw [LoopTest.labelNames_headerLines] at h
  obtain ⟨part, hpart, rfl⟩ := List.mem_map.mp h
  refine ⟨(path, loopName n part), ?_, rfl⟩
  unfold LoopTest.origins
  by_cases hg : test.op = .ifg
  · rw [if_pos hg] at hpart ⊢
    rcases List.mem_pair.mp hpart with rfl | rfl <;> simp
  · rw [if_neg hg] at hpart ⊢
    cases List.mem_singleton.mp hpart
    exact List.mem_singleton_self _

theorem openLoop (h : c.WellNamed held) (test : LoopTest) : (c.openLoop test).WellNamed held := by
  refine h.grow (origins_openLoop test c) ?_ (fun label hlabel => ?_) h.current h.symbols
  · have hword (part : String) (hp : part.toList.all Scan.isWordRest = true) :
        c.store.current.Named ∧ IsWord (loopName c.nextLoop part) :=
      ⟨h.current, isWord_loopName _ (List.all_eq_true.mp hp)⟩
    unfold LoopTest.origins
    split
    · exact List.forall_mem_cons.mpr ⟨hword _ rfl,
        List.forall_mem_singleton.mpr (hword _ rfl)⟩
    · exact List.forall_mem_singleton.mpr (hword _ rfl)
  · rw [openLoop_program] at hlabel
    have hmem := (Program.labelNames_writeAll _ _ held).mem_iff.mp hlabel
    refine (List.mem_append.mp hmem).imp_left fun hnew => ?_
    exact exists_origin_of_headerLines hnew

theorem closeLoop (h : c.WellNamed held) {path : ModulePath} (hp : path.Named) (n : Nat) :
    (c.closeLoop path n).WellNamed held := by
  have horigins : (c.closeLoop path n).origins = [(path, loopName n "end")] ++ c.origins := rfl
  refine h.grow horigins ?_ (fun label hlabel => ?_) h.current h.symbols
  · exact List.forall_mem_singleton.mpr ⟨hp, isWord_loopName n (List.all_eq_true.mp rfl)⟩
  · rw [closeLoop_program] at hlabel
    have hmem := (Program.labelNames_writeAll _ _ held).mem_iff.mp hlabel
    refine (List.mem_append.mp hmem).imp_left fun hnew => ?_
    cases List.mem_singleton.mp hnew
    exact ⟨_, List.mem_singleton_self _, rfl⟩

theorem openBody (h : c.WellNamed held) {key : FunctionKey} {f : FunctionSymbol}
    (hf : c.function? key = some f) :
    (c.openBody key f).WellNamed (c.program.footer.toList ++ held) := by
  obtain ⟨hpath, hname, hlabel, hmodule, -⟩ := h.function hf
  have horigins : (c.openBody key f).origins = [(key.path, key.name)] ++ c.origins := rfl
  have hmarked := h.updateFunction key (g := fun f => { f with emitted := true })
    fun f => ⟨rfl, rfl, rfl⟩
  refine h.grow horigins ?_ (fun label hmem => ?_) ?_ hmarked.symbols.enter
  · exact List.forall_mem_singleton.mpr ⟨hpath, hname⟩
  · rw [← List.append_assoc,
      (labelNames_perm ((everyLine_openBody c key f).append_right held)).mem_iff,
      List.append_assoc, labelNames_append, labelNames_append, labelNames_prologueLines] at hmem
    rw [labelNames_append]
    simp only [List.mem_append, List.mem_singleton] at hmem ⊢
    rcases hmem with hmem | rfl | hmem
    · exact .inr (.inl hmem)
    · exact .inl ⟨_, rfl, hlabel⟩
    · exact .inr (.inr hmem)
  · change f.path.Named
    rw [hmodule]
    exact hpath

theorem closeBody {before : Compilation} (key : FunctionKey)
    (h : c.WellNamed (before.program.footer.toList ++ held)) (hp : before.store.current.Named) :
    (closeBody key before c).WellNamed held := by
  have hback := (h.enterScope hp before.scope).writeAll [.jumpBack] rfl
  have hclosed : (((before.leaveScope c).write fun p => p.writeAll [.jumpBack]).write fun p =>
      p.leaveFooter before.program.enterFooter.1).WellNamed held := by
    refine hback.keep rfl (fun label hlabel => ?_) hback.current hback.symbols
    rw [← List.append_assoc]
    refine (labelNames_perm ?_).mem_iff.mp hlabel
    exact (Program.everyLine_leaveFooter _ _).append_right held
  exact hclosed.updateFunction key fun f => ⟨rfl, rfl, rfl⟩

theorem afterHook (h : c.WellNamed held) {path : ModulePath} (hp : path.Named)
    {given : String → Prop} {act : HookM Unit} (hd : act.Does given) :
    (c.afterHook path act).WellNamed held := by
  have heffect := hd ⟨c.program, c.store.enter path, c.notes⟩
  refine ⟨h.current, h.origins, fun label hlabel => ?_, fun other name symbol hl => ?_⟩
  · rw [labelNames_append, List.mem_append] at hlabel
    rcases hlabel with hlabel | hlabel
    · rcases heffect.names label hlabel with hold | ⟨word, hword, rfl⟩
      · exact h.labels label (by simp [hold])
      · exact ⟨path, word, rfl, .inr ⟨hp, hword⟩⟩
    · exact h.labels label (by simp [hlabel])
  · change (act.finish _).store.lookup? other name = some symbol at hl
    by_cases hother : other = path
    · subst hother
      refine ⟨hp, fun f hf => ?_⟩
      rcases heffect.symbols other name with hsame | ⟨new, hnew, hprovided⟩
      · rw [hl, Store.lookup?_enter] at hsame
        exact (h.symbols _ _ _ hsame.symm).2 f hf
      · cases hnew.symm.trans hl
        subst hf
        cases hprovided
    · have hsame := heffect.others.lookup? hother name
      rw [hl, Store.lookup?_enter] at hsame
      exact h.symbols _ _ _ hsame.symm

theorem begun (h : c.WellNamed held) (hr : env.registry.OnlyBundled) {dotted : String}
    (hd : (ModulePath.ofDotted dotted).Named) : (c.begun env dotted).WellNamed held := by
  unfold Compilation.begun
  dsimp only
  have hmarked : ({ c with imported := dotted :: c.imported }).WellNamed held :=
    ⟨h.current, h.origins, h.labels, h.symbols⟩
  split
  · exact hmarked
  · rename_i e he
    have hdoes : (e.install dotted).Does fun _ => False :=
      install_does (Registry.mem_bundled (hr dotted e he)) dotted
    exact (hmarked.record (.install dotted) rfl).afterHook hd hdoes

theorem named_of_imports {code : List Stmt} (hcode : Stmt.AllNamed code) {dotted : String}
    (h : Imports code dotted) : (ModulePath.ofDotted dotted).Named := by
  obtain ⟨names, span, hmem, name, hname, rfl⟩ := h
  exact ModulePath.named_ofDotted (Stmt.allNamed_iff.mp hcode _ hmem name hname)

theorem of_acts (h : c.WellNamed held) (hr : env.registry.OnlyBundled) {code : List Stmt}
    (hcode : Stmt.AllNamed code) (ha : Acts env code c c') : c'.WellNamed held := by
  cases ha with
  | report failure => exact ⟨h.current, h.origins, h.labels, h.symbols⟩
  | @line line hs =>
      refine h.writeAll [line] ?_
      cases hs <;> rfl
  | @number _ names hc hb hn => exact h.number names
  | declare hm hd =>
      obtain ⟨hname, hbody⟩ := Stmt.allNamed_iff.mp hcode _ hm
      exact h.declare hname hbody
  | @giveBack c₁ key _ _ operands hm hk ho hs =>
      have hwritten := (h.settles hs).writeAll _ (labelNames_giveBackLines operands)
      simp only [← Program.giveBack_eq] at hwritten
      exact hwritten.record _ rfl
  | beginImport hi hd hs => exact h.begun hr (named_of_imports hcode hi)
  | @hook key _ _ _ _ _ hc he hl hh hp hk =>
      exact h.afterHook (h.symbols _ _ _ hl).1 (hr.hook_does hh _)

theorem of_lowers (h : c.WellNamed held) (hr : env.registry.OnlyBundled)
    (hsources : ∃ files, env.sources.tree = .ofFiles files) {code : List Stmt}
    (hcode : Stmt.AllNamed code) (hl : Lowers env code c c') : c'.WellNamed held := by
  induction hl generalizing held with
  | refl code c => exact h
  | trans _ _ ih ih' => exact ih' (ih h hcode) hcode
  | act ha => exact h.of_acts hr hcode ha
  | @call _ c c₁ c₂ key f _ _ arguments results hc hk hf hn ha hres _ he hs ih =>
      have hwritten := ((ih h hcode).settles hs).writeAll _
        (labelNames_callLines c₂.scope.function?.isSome f.label arguments results)
      simp only [← Program.callSequence_eq] at hwritten
      exact hwritten.record _ rfl
  | @loop _ body c inner e _ test hm ht _ ih =>
      have hbody : Stmt.AllNamed body := Stmt.allNamed_iff.mp hcode _ hm
      exact (ih (h.openLoop test) hbody).closeLoop h.current _
  | @body _ c inner key f hf he _ ih =>
      obtain ⟨-, -, -, -, hbody⟩ := h.function hf
      exact (ih (h.openBody hf) hbody).closeBody key h.current
  | @loadModule _ c _ dotted file _ hi hd hs _ ih =>
      have hpath := named_of_imports hcode hi
      have hbegun := h.begun hr hpath
      have hopened := (hbegun.record (.load dotted) rfl).enterScope hpath (.ofFile (some file))
      exact (ih hopened (Sources.named_of_find? hsources hs)).enterScope hbegun.current _

theorem start (file? : Option String) : (Compilation.start file?).WellNamed [] := by
  refine ⟨ModulePath.named_root, ?_, fun label hlabel => ?_, fun path name symbol hl => ?_⟩
  · exact List.forall_mem_singleton.mpr ⟨ModulePath.named_root, by decide⟩
  · cases List.mem_singleton.mp hlabel
    exact ⟨.root, Program.haltLabel, rfl, .inl (List.mem_singleton_self _)⟩
  · rw [show (Compilation.start file?).store = .start from rfl, Store.lookup?_start] at hl
    cases hl

end WellNamed

end Compilation

end P16
