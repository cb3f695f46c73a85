import P16.Lowering.Function

/-!
# Imports

An imported name stands for an extension, for a source file, or for both; the extension is installed
first. A module is imported once. It is marked before its file is lowered, so modules may import
each other.
-/

namespace P16.LowerM

def installExtension (path : ModulePath) (dotted : String) (e : Extension) (span : Span) :
    LowerM Unit := do
  modify fun c => c.record (.install dotted)
  match ← runHook path (e.install dotted) with
  | .ok _ => return
  | .error message => fail (.hookFailed dotted message) span

def lowerFile (enter : Enter) (path : ModulePath) (dotted file : String)
    (loaded : Except LoadFault Module) (span : Span) : LowerM Unit := do
  match loaded with
  | .error fault => fail (.moduleNotFound dotted (some (fault.message file))) span
  | .ok m =>
    modify fun c =>
      c.leaveScope (enter m.body ((c.record (.load dotted)).enterScope path (.ofFile (some file))))

def importFresh (env : Environment) (enter : Enter) (dotted : String) (span : Span) :
    LowerM Unit := do
  let path := ModulePath.ofDotted dotted
  let extension? := env.registry.find? dotted
  let source? := env.sources.find? path
  if extension?.isNone && source?.isNone then fail (.moduleNotFound dotted none) span
  modify fun c => { c with imported := dotted :: c.imported }
  let errorsBefore := (← get).errorCount
  if let some e := extension? then installExtension path dotted e span
  if let some (file, loaded) := source? then lowerFile enter path dotted file loaded span
  if errorsBefore < (← get).errorCount then fail (.importFailed dotted) span

def importName (env : Environment) (enter : Enter) (name : ImportName) : LowerM Unit := do
  let dotted := name.path.text
  if let some newName := name.newName? then
    fail (.unsupportedSyntax ("import " ++ dotted ++ " as " ++ newName.text)) name.span
  if dotted ∈ (← get).imported then return
  importFresh env enter dotted name.span

/-- Imports the names of one statement; a name that fails does not keep the others back. -/
def importNames (env : Environment) (enter : Enter) (names : List ImportName)
    (c : Compilation) : Compilation :=
  names.foldl (fun c name => reporting (importName env enter name) c) c

end P16.LowerM
