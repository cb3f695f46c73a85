import P16.Symbol.ModulePath

/-!
# File trees

Files by location, each with what it holds, and a working directory in which relative paths begin.
A path is followed part by part, and every part but the last must be a directory. A path holds no
null character and is at most 4095 bytes long, and each of its parts at most 255.
-/

namespace P16

inductive PathFault where
  | missing
  /-- A part of the path before the last is a file. -/
  | notDirectory
  /-- The path, or a part of it in a directory that is there, is too long. -/
  | tooLong
  | nullCharacter
deriving DecidableEq, Inhabited

inductive Found (α : Type) where
  | file (content : α)
  | directory
  | nothing (fault : PathFault)
deriving Inhabited

namespace Found

variable {α : Type}

def file? : Found α → Option α
  | file content => some content
  | _ => none

def isDirectory : Found α → Bool
  | directory => true
  | _ => false

end Found

/-- A location is the list of parts that lead to it from the top. -/
structure FileTree (α : Type) where
  home : List String
  files : List (List String × α)
  /-- Directories that are there even if no file is below them. -/
  directories : List (List String)
deriving Inhabited

namespace FileTree

variable {α β : Type}

def empty (home : List String) : FileTree α := ⟨home, [], []⟩

def map (f : α → β) (tree : FileTree α) : FileTree β :=
  ⟨tree.home, tree.files.map fun entry => (entry.1, f entry.2), tree.directories⟩

def origin (tree : FileTree α) (path : String) : List String :=
  if path.startsWith "/" then [] else tree.home

def step (location : List String) (part : String) : List String :=
  if part.isEmpty || part = "." then location
  else if part = ".." then location.dropLast
  else location ++ [part]

/-- The location of a path, whether or not it can be followed. -/
def location (tree : FileTree α) (path : String) : List String :=
  (splitText '/' path).foldl step (tree.origin path)

def insertAt (tree : FileTree α) (location : List String) (content : α) : FileTree α :=
  { tree with files := (location, content) :: tree.files.filter (·.1 ≠ location) }

def insertFile (tree : FileTree α) (path : String) (content : α) : FileTree α :=
  tree.insertAt (tree.location path) content

def insertDirectory (tree : FileTree α) (path : String) : FileTree α :=
  { tree with directories := tree.location path :: tree.directories }

/-- Adds the directories that a path leads through. -/
def insertWay (tree : FileTree α) (path : String) : FileTree α :=
  let parts := splitText '/' path
  let way := (List.range parts.length).map fun n =>
    (parts.take n).foldl step (tree.origin path)
  { tree with directories := way ++ tree.directories }

/-- Whether a location leads to the working directory, a directory or a file, or is one of them. -/
def leadsSomewhere (tree : FileTree α) (location : List String) : Bool :=
  location.isPrefixOf tree.home || tree.files.any (fun entry => location.isPrefixOf entry.1) ||
    tree.directories.any (location.isPrefixOf ·)

def at? (tree : FileTree α) (location : List String) : Found α :=
  match tree.files.find? (·.1 = location) with
  | some (_, content) => .file content
  | none => if tree.leadsSomewhere location then .directory else .nothing .missing

def maxPartSize : Nat := 255

def maxPathSize : Nat := 4095

/-- The location reached from another one by the parts of a path. -/
def follow (tree : FileTree α) : List String → List String → Except PathFault (List String)
  | location, [] => .ok location
  | location, part :: rest =>
    match tree.at? location with
    | .directory =>
      if maxPartSize < part.utf8ByteSize then .error .tooLong
      else follow tree (step location part) rest
    | .file _ => .error .notDirectory
    | .nothing fault => .error fault

def resolve (tree : FileTree α) (path : String) : Except PathFault (List String) :=
  if path.toList.contains '\x00' then .error .nullCharacter
  else if path.isEmpty then .error .missing
  else if maxPathSize < path.utf8ByteSize then .error .tooLong
  else tree.follow (tree.origin path) (splitText '/' path)

def lookup (tree : FileTree α) (path : String) : Found α :=
  match tree.resolve path with
  | .ok location => tree.at? location
  | .error fault => .nothing fault

/-- Writes a file, in a directory that is there already. -/
def write? (tree : FileTree α) (path : String) (content : α) : Option (FileTree α) :=
  let name := (splitText '/' path).getLastD ""
  if name.isEmpty || name = "." || name = ".." then none
  else
    match tree.resolve path with
    | .ok location =>
      if (tree.at? location).isDirectory then none else some (tree.insertAt location content)
    | .error _ => none

end FileTree

end P16
