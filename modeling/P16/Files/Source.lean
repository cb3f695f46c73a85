import P16.Diagnostic
import P16.Files.PathText
import P16.Files.Tree
import P16.Parse.Stmt

/-!
# Source files

Modules are looked for under search roots, in order; the first root that holds a file for the module
decides. A file that is found may still fail to load.
-/

namespace P16

inductive FileContent where
  | text (text : String)
  | binary
deriving DecidableEq, Inhabited

inductive ReadFault where
  | notText
  | isDirectory
  | absent (fault : PathFault)
deriving DecidableEq, Inhabited

def ReadFault.message : ReadFault → String
  | notText => "stream did not contain valid UTF-8"
  | isDirectory => "Is a directory (os error 21)"
  | absent .missing => "No such file or directory (os error 2)"
  | absent .notDirectory => "Not a directory (os error 20)"
  | absent .tooLong => "File name too long (os error 36)"
  | absent .nullCharacter => "file name contained an unexpected NUL byte"

def FileContent.read : FileContent → Except ReadFault String
  | text s => .ok s
  | binary => .error .notText

inductive LoadFault where
  | unreadable (fault : ReadFault)
  | malformed (error : ParseError)
deriving DecidableEq

namespace LoadFault

def message (path : String) : LoadFault → String
  | unreadable fault => "failed to read " ++ path ++ ": " ++ fault.message
  | malformed error => withContext path error.message

def span : LoadFault → Span
  | unreadable _ => default
  | malformed error => error.span

end LoadFault

def loadContent (content : FileContent) : Except LoadFault Module := do
  let source ← content.read.mapError LoadFault.unreadable
  (parseModule source).mapError LoadFault.malformed

abbrev SourceTree := FileTree (Except LoadFault Module)

def SourceTree.ofFiles (files : FileTree FileContent) : SourceTree :=
  files.map loadContent

def SourceTree.load (tree : SourceTree) (path : String) : Except LoadFault Module :=
  match tree.lookup path with
  | .file loaded => loaded
  | .directory => .error (.unreadable .isDirectory)
  | .nothing fault => .error (.unreadable (.absent fault))

end P16
