/-!
# Arguments of the command line

```text
p16c parse PATH
p16c check [-I DIR]… [--no-stdlib] PATH
p16c build [-I DIR]… [--no-stdlib] [-o FILE] PATH
```

The value of an option may follow it as the next argument or be joined to it. After `--` everything
is a path.
-/

namespace P16.CommandLine

structure SearchOptions where
  includes : List String
  noLibrary : Bool
deriving DecidableEq, Inhabited

inductive Command where
  | version
  | help
  | parse (path : String)
  | check (path : String) (search : SearchOptions)
  | build (path : String) (search : SearchOptions) (out? : Option String)
deriving DecidableEq, Inhabited

structure Accepts where
  search : Bool
  out : Bool
deriving DecidableEq, Inhabited

/-- Options and path read so far. -/
structure Given where
  path? : Option String
  search : SearchOptions
  out? : Option String
deriving DecidableEq, Inhabited

inductive OptionName where
  | includeDir
  | noLibrary
  | out
  | help
deriving DecidableEq, Inhabited

inductive Piece where
  | path (text : String)
  /-- The end of the options. -/
  | dashes
  | option (name : OptionName) (value? : Option String)
  | unknown
deriving DecidableEq, Inhabited

namespace Piece

def ofLong (name : String) (value? : Option String) : Piece :=
  if name = "include" then option .includeDir value?
  else if name = "no-stdlib" then option .noLibrary value?
  else if name = "out" then option .out value?
  else if name = "help" then option .help value?
  else unknown

def joined : List Char → Option String
  | [] => none
  | c :: cs => some (String.ofList (if c = '=' then cs else c :: cs))

def ofShort (letter : Char) (rest : List Char) : Piece :=
  if letter = 'I' then option .includeDir (joined rest)
  else if letter = 'o' then option .out (joined rest)
  else if letter = 'h' then option .help none
  else unknown

def ofArgument (argument : String) : Piece :=
  match argument.toList with
  | ['-', '-'] => dashes
  | '-' :: '-' :: cs =>
    let name := String.ofList (cs.takeWhile (· ≠ '='))
    match cs.dropWhile (· ≠ '=') with
    | [] => ofLong name none
    | _ :: value => ofLong name (some (String.ofList value))
  | '-' :: letter :: rest => ofShort letter rest
  | _ => path argument

end Piece

namespace Given

def start : Given := ⟨none, ⟨[], false⟩, none⟩

def addPath (g : Given) (path : String) : Option Given :=
  if path.isEmpty || g.path?.isSome then none else some { g with path? := some path }

def addValue (g : Given) (name : OptionName) (value : String) : Option Given :=
  if value.isEmpty then none
  else
    match name with
    | .includeDir =>
      some { g with search := { g.search with includes := g.search.includes ++ [value] } }
    | .out => if g.out?.isSome then none else some { g with out? := some value }
    | .noLibrary | .help => none

def addNoLibrary (g : Given) : Option Given :=
  if g.search.noLibrary then none
  else some { g with search := { g.search with noLibrary := true } }

end Given

def Accepts.allows (a : Accepts) : OptionName → Bool
  | .includeDir | .noLibrary => a.search
  | .out => a.out
  | .help => true

/-- Whether an argument can be the value of the option before it. -/
def isValue (argument : String) : Bool :=
  match Piece.ofArgument argument with
  | .path _ => true
  | _ => false

/-- What the arguments after a command give; `none` if they are wrong. The inner `none` asks for
help. -/
def readGiven (a : Accepts) : Given → List String → Option (Option Given)
  | g, [] => some (some g)
  | g, argument :: rest =>
    match Piece.ofArgument argument with
    | .path path => (g.addPath path).bind fun g => readGiven a g rest
    | .dashes => (rest.foldlM Given.addPath g).map some
    | .unknown => none
    | .option name value? =>
      if a.allows name then
        match name, value? with
        | .help, none => some none
        | .help, some _ => none
        | .noLibrary, none => g.addNoLibrary.bind fun g => readGiven a g rest
        | .noLibrary, some _ => none
        | name, some value => (g.addValue name value).bind fun g => readGiven a g rest
        | name, none =>
          match rest with
          | [] => none
          | value :: rest =>
            if isValue value then (g.addValue name value).bind fun g => readGiven a g rest
            else none
      else none

def Command.ofGiven (make : String → Given → Command) : Option Given → Option Command
  | none => some help
  | some g => g.path?.map fun path => make path g

def hasLetter (letter : Char) (argument : String) : Bool :=
  ['-', letter].isPrefixOf argument.toList

def helpTopics : List String := ["parse", "check", "build", "help"]

def Command.ofHelpTopics : List String → Option Command
  | [] => some help
  | [topic] => if topic ∈ helpTopics then some help else none
  | _ => none

/-- The command that the arguments ask for; `none` if they are wrong. -/
def Command.ofArguments : List String → Option Command
  | [] => none
  | first :: rest =>
    if first = "--version" || hasLetter 'V' first then some version
    else if first = "--help" || hasLetter 'h' first then some help
    else if first = "help" then ofHelpTopics rest
    else if first = "parse" then
      (readGiven ⟨false, false⟩ .start rest).bind (ofGiven fun path _ => parse path)
    else if first = "check" then
      (readGiven ⟨true, false⟩ .start rest).bind (ofGiven fun path g => check path g.search)
    else if first = "build" then
      (readGiven ⟨true, true⟩ .start rest).bind (ofGiven fun path g => build path g.search g.out?)
    else none

end P16.CommandLine
