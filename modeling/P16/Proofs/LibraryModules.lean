import P16.Proofs.ImportedCalls
import P16.Proofs.MemoryImages
import P16.Proofs.ReachedFiles

/-!
# Modules of the bundled library

A module of the library is found whatever other roots and files there are, and a program that
imports nothing else is compiled as if there were no other file. `Entry.compileSource_call` says
what a program becomes that calls one function of such a module.

The library is written in its own language, so its modules are known by reading their texts. Texts
are read here from their characters, line by line.
-/

namespace P16

section characters

/-- Reads a module from the characters of its text. -/
def parseText (cs : List Char) : Except ParseError Module :=
  let index : LineIndex := ⟨0 :: lineStartsFrom 0 cs⟩
  let stop := (String.ofList cs).utf8ByteSize
  match Layout.tokensFrom (index.span stop stop) .start (Scan.tokensFrom index 0 cs) with
  | .error e => .error e
  | .ok tokens => parseTokens (endSpan (String.ofList cs) tokens) tokens

theorem parseModule_eq_parseText (source : String) :
    parseModule source = parseText source.toList := by
  unfold parseModule parseText lex scan LineIndex.ofString
  simp only [String.ofList_toList]
  cases Layout.tokensFrom _ _ _ <;> rfl

theorem Library.toList_unlines (lines : List String) :
    (Library.unlines lines).toList = lines.flatMap fun line => line.toList ++ ['\n'] := by
  unfold Library.unlines
  induction lines with
  | nil => rfl
  | cons line lines ih => simp_all [String.toList_join]

end characters

/-- The text is compiled without a diagnostic, and the machines with the program are as `P` says. -/
def CompilesInto (env : Environment) (file? : Option String) (source : String)
    (P : Machine → Prop) : Prop :=
  ∃ c, compileSource env file? source = .ok c ∧ c.diagnostics = #[] ∧
    ∀ m : Machine, m.lines = c.program.lines → P m

theorem CompilesInto.ofLines {env : Environment} {file? : Option String} {source : String}
    {P : Machine → Prop} {c : Compilation} (h : CompilesInto env file? source P)
    (hc : compileSource env file? source = .ok c)
    (hsmall : (imageUpTo c.program.lines c.program.lines.length).length < 0x10000)
    (compute : BasicOpcode → UInt16 → UInt16 → UInt16) :
    P (.ofLines c.program.lines compute hsmall) := by
  obtain ⟨c', hc', -, hP⟩ := h
  cases hc.symm.trans hc'
  exact hP _ rfl

namespace Library

def moduleOf (source : String) : Module := (parseModule source).toOption.getD default

theorem parseModule_eq_moduleOf {source : String}
    (h : (parseModule source).toOption.isSome = true) :
    parseModule source = .ok (moduleOf source) := by
  unfold moduleOf
  cases hm : parseModule source with
  | error e => cases hm ▸ h
  | ok m => rfl

theorem loadContent_text {source : String} {m : Module} (h : parseModule source = .ok m) :
    loadContent (.text source) = .ok m := by
  unfold loadContent
  change Except.mapError LoadFault.malformed (parseModule source) = _
  rw [h]
  rfl

/-- A module of the library, with the place of its file. -/
structure Entry where
  path : List String
  segments : List String
  content : Module

namespace Entry

variable (e : Entry)

def dotted : String := ".".intercalate e.path

def file : String := "/".intercalate (root :: e.segments)

/-- The bundled extensions, with this file only. -/
def alone : Environment :=
  ⟨⟨[.directory root], ⟨[], [(root :: e.segments, .ok e.content)], []⟩⟩, .bundled⟩

/-- Enough for bodies that enter bodies of three functions inside each other. -/
def enter : Enter := LowerM.body e.alone 4

def imported : Compilation :=
  (Compilation.start none).afterImport e.alone e.enter e.dotted e.file e.content

/-- The library has the module, and it is found there. -/
structure Found : Prop where
  library : ∀ roots tree, (Environment.bundled (.library :: roots) tree).sources.find?
    (.ofDotted e.dotted) = some (e.file, .ok e.content)
  alone : e.alone.sources.find? (.ofDotted e.dotted) = some (e.file, .ok e.content)

/-- The module can be imported, and imports nothing itself. -/
@[mk_iff]
structure Ready : Prop where
  imports : Stmt.importTextsOf e.content.body = []
  functions : (Stmt.definedIn e.content.body).length ≤ 3
  installs : (Compilation.start none).installFault? e.alone e.dotted = none
  quiet : e.imported.errorCount = 0

instance : Decidable e.Ready := decidable_of_iff' _ (ready_iff e)

/-- What can be reached from a program that imports the module. -/
def reach : Reach :=
  ⟨((Stmt.definedIn e.content.body).map fun name => ⟨.ofDotted e.dotted, name⟩).toFinset,
    {e.dotted}⟩

variable {e}

theorem found_of_lookup {source : String} (hname : (ModulePath.ofDotted e.dotted).isRoot = false)
    (hfile : PathText.moduleFile root (.ofDotted e.dotted) = e.file)
    (hlookup : sources.lookup e.file = .file (loadContent (.text source)))
    (halone : e.alone.sources.find? (.ofDotted e.dotted) = some (e.file, .ok e.content))
    (hread : parseModule source = .ok e.content) : e.Found := by
  refine ⟨fun roots tree => ?_, halone⟩
  rw [loadContent_text hread] at hlookup
  have hunder : (Sources.mk (.library :: roots) tree).findUnder? (.ofDotted e.dotted) .library =
      some (e.file, .ok e.content) := by
    simp only [Sources.findUnder?, SearchRoot.path, hfile, Sources.treeOf, hlookup]
    rfl
  simp only [Environment.bundled, Sources.find?, hname, Bool.false_eq_true, if_false,
    List.findSome?_cons, hunder]

theorem Ready.size_reach_le (h : e.Ready) : e.reach.size ≤ 4 := by
  have hcard := List.toFinset_card_le
    ((Stmt.definedIn e.content.body).map fun name => (⟨.ofDotted e.dotted, name⟩ : FunctionKey))
  rw [List.length_map] at hcard
  calc e.reach.size
    _ ≤ (Stmt.definedIn e.content.body).length + 1 :=
      Nat.add_le_add hcard (Finset.card_singleton _).le
    _ ≤ 4 := Nat.succ_le_succ h.functions

section programs

variable (hfound : e.Found) (hready : e.Ready)
include hfound hready

theorem closed_reach (roots : List SearchRoot) (tree : SourceTree) :
    e.reach.Closed (.bundled (.library :: roots) tree) := by
  refine .of_files Registry.onlyBundled_bundled.addsNoFunction fun dotted hdotted file m hm => ?_
  obtain rfl := Finset.mem_singleton.mp hdotted
  cases (hfound.library roots tree).symm.trans hm
  refine ⟨by simp [hready.imports], fun name hname => ?_⟩
  exact List.mem_toFinset.mpr (List.mem_map_of_mem hname)

/-- Other files do not matter to a program that imports this module only. -/
theorem compileModule_eq {m : Module} (hi : Stmt.importTextsOf m.body = [e.dotted])
    (hd : Stmt.definedIn m.body = []) (roots : List SearchRoot) (tree : SourceTree)
    (file? : Option String) :
    compileModule (.bundled (.library :: roots) tree) file? m =
      LowerM.block e.alone e.enter m.body (.start file?) := by
  have hcovers : e.reach.Covers m.body (.start file?) :=
    .start file? (by simp [hi, reach]) (by simp [hd])
  have hsame : (Environment.bundled (.library :: roots) tree).SameFor (· ∈ e.reach.modules)
      e.alone := by
    refine ⟨rfl, fun dotted hdotted => ?_⟩
    obtain rfl := Finset.mem_singleton.mp hdotted
    rw [hfound.alone, hfound.library roots tree]
  have hclosed := closed_reach hfound hready roots tree
  have hbody := compileModules_eq_body Registry.onlyBundled_bundled.addsNoFunction hclosed hcovers
    (Nat.lt_succ_of_le hready.size_reach_le)
  rw [compileModules, List.foldl_cons, List.foldl_nil] at hbody
  rw [compileModule, hbody, ← LowerM.body_of_sameFor hclosed hsame hcovers, LowerM.body, enter]

/-- A program that imports the module and calls one of its functions. -/
theorem compileSource_call {label source : String} {key : FunctionKey} {operands : List Operand}
    {registers : List Register} {footer : List Line} {s : Stmt}
    (hoffers : e.imported.Offers e.enter key label operands.length registers.length footer)
    (hread : ReadAs source [Stmt.importing e.path, s]) (hs : s.Calls key operands registers)
    (roots : List SearchRoot) (tree : SourceTree) (file? : Option String) :
    ∃ c, compileSource (.bundled (.library :: roots) tree) file? source = .ok c ∧
      c.diagnostics = #[] ∧
      c.program.lines = callLines false label operands registers ++ footer := by
  obtain ⟨m, i, s', hm, hbody, hi, hs'⟩ := hread.pair
  have hcalls := hs.of_bare hs'
  have himports : Stmt.importTextsOf m.body = [e.dotted] := by
    obtain ⟨name, span, rfl, -, htext⟩ := Stmt.eq_of_bare_importing hi
    rw [hbody]
    simp [Stmt.importTextsOf, Stmt.importTexts, hcalls.importTexts_eq, htext, dotted]
  have hdefined : Stmt.definedIn m.body = [] := by
    obtain ⟨name, span, rfl, -, -⟩ := Stmt.eq_of_bare_importing hi
    rw [hbody]
    simp [Stmt.definedIn, Stmt.defined, hcalls.defined_eq]
  obtain ⟨hlines, hdiagnostics⟩ := LowerM.block_imported_call rfl hfound.alone hready.installs
    hready.quiet hoffers hi hcalls file?
  refine ⟨compileModule (.bundled (.library :: roots) tree) file? m, ?_, ?_⟩
  · rw [compileSource, hm]
    rfl
  · rw [compileModule_eq hfound hready himports hdefined, hbody]
    exact ⟨hdiagnostics, hlines⟩

end programs

end Entry

end Library

end P16
