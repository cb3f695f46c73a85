import P16.CommandLine.Run
import P16.Files.Imports

/-!
# The command-line tool

Reads the files that a command may need, runs the command on them, and carries out its ending.
-/

namespace P16.CommandLine

abbrev Files := FileTree FileContent

def isDirectory (path : String) : IO Bool := do
  ((← IO.currentDir) / path).isDir

def readInto (files : Files) (path : String) : IO Files := do
  try
    let bytes ← IO.FS.readBinFile path
    let content := match String.fromUTF8? bytes with
      | some text => FileContent.text text
      | none => .binary
    return (files.insertWay path).insertFile path content
  catch _ =>
    if ← isDirectory path then return (files.insertWay path).insertDirectory path
    else return files

def importsAt (files : Files) (path : String) : List ModulePath :=
  match (files.lookup path).file?.map loadContent with
  | some (.ok m) => m.imports
  | _ => []

/-- Reads the files of the `pending` modules and of those that they import. -/
partial def readModules (roots : List String) (files : Files) (seen : List ModulePath) :
    List ModulePath → IO Files
  | [] => return files
  | path :: pending => do
    if path ∈ seen then readModules roots files seen pending
    else
      let names := roots.map fun root => PathText.moduleFile root path
      let files ← names.foldlM readInto files
      readModules roots files (path :: seen) (names.flatMap (importsAt files) ++ pending)

def readProgram (files : Files) (path : String) (search : SearchOptions) : IO Files := do
  let roots := (search.roots path).filter (· ≠ .library)
  let files ← readInto files path
  readModules (roots.map SearchRoot.path) files [] (importsAt files path)

def readFor (files : Files) : Option Command → IO Files
  | some (.parse path) => readInto files path
  | some (.check path search) => readProgram files path search
  | some (.build path search _) => readProgram files path search
  | _ => return files

def finish : Ending → IO UInt32
  | .misuse => do
    IO.eprint helpText
    return 2
  | .failed message => do
    IO.eprintln ("error: " ++ message)
    return 1
  | .shown text => do
    IO.print text
    return 0
  | .saved path text => do
    try
      IO.FS.writeFile path text
      IO.print (savedText path)
      return 0
    catch e =>
      IO.eprintln ("error: failed to write " ++ path ++ ": " ++ toString e)
      return 1

end P16.CommandLine

open P16 P16.CommandLine in
def main (args : List String) : IO UInt32 := do
  let command? := Command.ofArguments args
  let home := (splitText '/' (← IO.currentDir).toString).filter (· ≠ "")
  let outcome := run (.ofFiles (← readFor (.empty home) command?)) command?
  for d in outcome.diagnostics do
    IO.eprintln d.render
  finish outcome.ending
