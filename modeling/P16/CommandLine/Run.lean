import P16.CommandLine.Arguments
import P16.Compile
import P16.Tree.Outline

/-!
# Running a command

What a command does, as a value: the diagnostics it shows and how it ends. Only the writing of a
file is left to whoever runs it.
-/

namespace P16.CommandLine

def versionText : String := "p16c 0.1.0\n"

def helpText : String :=
  "P16 compiler for the 16-bit interrupt-bus CPU\n\n" ++
    "Usage: p16c parse PATH\n" ++
    "       p16c check [-I DIR] [--no-stdlib] PATH\n" ++
    "       p16c build [-I DIR] [--no-stdlib] [-o FILE] PATH\n"

inductive Ending where
  | misuse
  | failed (message : String)
  | shown (text : String)
  | saved (path text : String)
deriving DecidableEq, Inhabited

def savedText (path : String) : String := "built " ++ path ++ "\n"

structure Outcome where
  diagnostics : List Diagnostic
  ending : Ending

def SearchOptions.roots (search : SearchOptions) (path : String) : List SearchRoot :=
  (if search.noLibrary then [] else [.library]) ++
    .directory (PathText.parent path) :: search.includes.map .directory

def compileFile (sources : SourceTree) (path : String) (search : SearchOptions) :
    Except LoadFault Output := do
  let m ← sources.load path
  return (compileModule (.bundled (search.roots path) sources) (some path) m).output

/-- The outcome of compiling a file, where `finish` tells how a compilation without errors ends. -/
def compileOutcome (sources : SourceTree) (path : String) (search : SearchOptions)
    (finish : Output → Ending) : Outcome :=
  match compileFile sources path search with
  | .error fault => ⟨[], .failed (fault.message path)⟩
  | .ok output =>
    if output.failed then
      ⟨output.diagnostics,
        .failed ("compilation failed with " ++ toString output.errors.length ++ " error(s)")⟩
    else ⟨output.diagnostics, finish output⟩

def run (sources : SourceTree) : Option Command → Outcome
  | none => ⟨[], .misuse⟩
  | some .version => ⟨[], .shown versionText⟩
  | some .help => ⟨[], .shown helpText⟩
  | some (.parse path) =>
    match sources.load path with
    | .error fault => ⟨[], .failed (fault.message path)⟩
    | .ok m => ⟨[], .shown (m.outlineText ++ "\n")⟩
  | some (.check path search) => compileOutcome sources path search fun _ => .shown "ok\n"
  | some (.build path search out?) =>
    compileOutcome sources path search fun output =>
      match out? with
      | none => .shown output.assembly
      | some out => .saved out output.assembly

/-- What is left of a run when files are only a tree: exit status, standard output, files. -/
structure Finished where
  status : Nat
  output : String
  files : FileTree FileContent

def Ending.apply (files : FileTree FileContent) : Ending → Finished
  | misuse => ⟨2, "", files⟩
  | failed _ => ⟨1, "", files⟩
  | shown text => ⟨0, text, files⟩
  | saved path text =>
    match files.write? path (.text text) with
    | some files => ⟨0, savedText path, files⟩
    | none => ⟨1, "", files⟩

end P16.CommandLine
