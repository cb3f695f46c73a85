import P16.Symbol.ModulePath

/-!
# Path texts

Operations on the text of a file path. A path keeps the spelling it was given: repeated slashes and
parts that mean nothing stay, except where an operation below says otherwise.
-/

namespace P16.PathText

/-- The path below `path` named `part`. A part that begins with a slash stands for itself. -/
def push (path part : String) : String :=
  if part.startsWith "/" then part
  else if path.isEmpty || path.endsWith "/" then path ++ part
  else path ++ "/" ++ part

/-- Drops slashes and parts `.` from the end of a path, which is given backwards. -/
def trimBackwards : List Char → List Char
  | [] => []
  | c :: cs =>
    if c = '/' then trimBackwards cs
    else if c = '.' && (cs.isEmpty || cs.head? = some '/') then trimBackwards cs
    else c :: cs

/-- The name of a file without what follows its last dot, backwards. A dot in front of the name does
not count. -/
def stemBackwards (name : List Char) : List Char :=
  match name.dropWhile (· ≠ '.') with
  | [] | [_] => name
  | _ :: stem => stem

/-- Puts `extension` in place of the one of the last part. A path without a last part, or with `..`
as its last part, stays as it is. -/
def setExtension (path extension : String) : String :=
  let backwards := trimBackwards path.toList.reverse
  let name := backwards.takeWhile (· ≠ '/')
  if name.isEmpty || name = ['.', '.'] then path
  else
    let directory := backwards.dropWhile (· ≠ '/')
    String.ofList (stemBackwards name ++ directory).reverse ++ "." ++ extension

/-- Drops slashes and parts `.` from the end of a directory, which is given backwards and is never
empty. A leading slash or a leading `.` stays. -/
def trimDirectoryBackwards : List Char → List Char
  | [] => []
  | c :: cs =>
    if c = '/' && !cs.isEmpty then trimDirectoryBackwards cs
    else if c = '.' && cs.head? = some '/' then trimDirectoryBackwards cs
    else c :: cs

/-- The directory part of a path; empty for a bare name. -/
def parent (path : String) : String :=
  let directory := (trimBackwards path.toList.reverse).dropWhile (· ≠ '/')
  String.ofList (trimDirectoryBackwards directory).reverse

def sourceExtension : String := "p16"

def moduleFile (root : String) (path : ModulePath) : String :=
  setExtension (path.segments.foldl push root) sourceExtension

end P16.PathText
