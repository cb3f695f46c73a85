/-!
# Module paths

A module is known by the parts of its dotted name; the entry program is the root. Names of a module
become labels of the assembled program by joining the parts in front.
-/

namespace P16

/-- The pieces of a text between the occurrences of a separator; at least one. -/
def splitChars (separator : Char) : List Char → List (List Char)
  | [] => [[]]
  | c :: cs =>
    if c = separator then [] :: splitChars separator cs
    else
      match splitChars separator cs with
      | [] => [[c]]
      | piece :: rest => (c :: piece) :: rest

def splitText (separator : Char) (s : String) : List String :=
  (splitChars separator s.toList).map String.ofList

structure ModulePath where
  segments : List String
deriving DecidableEq, Inhabited

namespace ModulePath

def root : ModulePath := ⟨[]⟩

/-- The path written with dots; the empty text is the root. -/
def ofDotted (dotted : String) : ModulePath :=
  if dotted.isEmpty then root else ⟨splitText '.' dotted⟩

def isRoot (path : ModulePath) : Bool := path.segments.isEmpty

def dotted (path : ModulePath) : String := ".".intercalate path.segments

def mangle (path : ModulePath) (name : String) : String :=
  "__".intercalate (path.segments ++ [name])

end ModulePath

end P16
