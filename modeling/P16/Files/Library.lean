import P16.Files.Source

/-!
# The bundled library

Modules that come with the tool, written in its own language, and the search roots they are found
under.
-/

namespace P16

namespace Library

def root : String := "@stdlib"

def unlines (lines : List String) : String :=
  String.join (lines.map (· ++ "\n"))

def mathSource : String :=
  unlines
    ["\"\"\"Unsigned arithmetic helpers.\"\"\"",
     "",
     "",
     "def max(a, b):",
     "    while a < b:",
     "        a = b",
     "    return a",
     "",
     "",
     "def min(a, b):",
     "    while a > b:",
     "        a = b",
     "    return a",
     "",
     "",
     "def clamp(value, low, high):",
     "    value = max(value, low)",
     "    value = min(value, high)",
     "    return value"]

def displaySource : String :=
  unlines
    ["\"\"\"Helpers for the memory-mapped display.",
     "",
     "The dev.display extension supplies configure, write_static and the",
     "color_* constants in the same namespace.",
     "\"\"\"",
     "",
     "",
     "def fill(cell):",
     "    I = 0",
     "    while I != 384:",
     "        builtin_memset(I + 0x8000, cell)",
     "        I += 1",
     "",
     "",
     "def clear():",
     "    I = 0",
     "    while I != 384:",
     "        builtin_memset(I + 0x8000, 0)",
     "        I += 1"]

def files : FileTree FileContent :=
  ((FileTree.empty []).insertFile (root ++ "/math.p16") (.text mathSource)).insertFile
    (root ++ "/dev/display.p16") (.text displaySource)

def sources : SourceTree := SourceTree.ofFiles files

end Library

inductive SearchRoot where
  | library
  | directory (path : String)
deriving DecidableEq, Inhabited

def SearchRoot.path : SearchRoot → String
  | library => Library.root
  | directory path => path

structure Sources where
  roots : List SearchRoot
  tree : SourceTree

namespace Sources

def treeOf (s : Sources) : SearchRoot → SourceTree
  | .library => Library.sources
  | .directory _ => s.tree

def findUnder? (s : Sources) (path : ModulePath) (root : SearchRoot) :
    Option (String × Except LoadFault Module) :=
  let file := PathText.moduleFile root.path path
  ((s.treeOf root).lookup file).file?.map fun loaded => (file, loaded)

/-- The first file of a module, with what loading it gives. The root module has no file. -/
def find? (s : Sources) (path : ModulePath) : Option (String × Except LoadFault Module) :=
  if path.isRoot then none else s.roots.findSome? (s.findUnder? path)

end Sources

end P16
