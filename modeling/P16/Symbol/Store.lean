import P16.Symbol.ModulePath
import P16.Table
import P16.Tree.Stmt
import P16.Value

/-!
# Symbols

Every module has one table in which constants, functions and hooks share their names, and a second
one for settings of extensions. Definitions go to the module that is current.
-/

namespace P16

/-- A hook, by the extension that provides it and its name there. -/
structure HookRef where
  extension : String
  name : String
deriving DecidableEq, Inhabited

structure FunctionSymbol where
  label : String
  params : List String
  /-- How many values a call leaves on the stack, once it is known. -/
  returns? : Option Nat
  definition : FunctionDef
  path : ModulePath
  file? : Option String
  /-- Whether the body has been written, or is being written. -/
  emitted : Bool
deriving Inhabited

def FunctionSymbol.arity (f : FunctionSymbol) : Nat := f.params.length

inductive Symbol where
  | constant (value : Value)
  | function (function : FunctionSymbol)
  | hook (ref : HookRef)
deriving Inhabited

namespace Symbol

def kindName : Symbol → String
  | constant _ => "constant"
  | function _ => "function"
  | hook _ => "macro"

def constant? : Symbol → Option Value
  | constant value => some value
  | _ => none

def function? : Symbol → Option FunctionSymbol
  | function f => some f
  | _ => none

def hook? : Symbol → Option HookRef
  | hook ref => some ref
  | _ => none

end Symbol

structure Namespace where
  symbols : Table String Symbol
  settings : Table String Value
deriving Inhabited

structure Store where
  namespaces : Table ModulePath Namespace
  current : ModulePath

namespace Store

def start : Store := ⟨Table.empty.insert .root default, .root⟩

def has (s : Store) (path : ModulePath) : Bool := s.namespaces.contains path

/-- Makes `path` current, with an empty module if there is none. -/
def enter (s : Store) (path : ModulePath) : Store :=
  { namespaces := if s.has path then s.namespaces else s.namespaces.insert path default
    current := path }

def restore (s : Store) (path : ModulePath) : Store := { s with current := path }

def update (s : Store) (path : ModulePath) (f : Namespace → Namespace) : Store :=
  { s with namespaces := s.namespaces.insert path (f ((s.namespaces.find? path).getD default)) }

def expand (s : Store) (name : String) : String := s.current.mangle name

def lookup? (s : Store) (path : ModulePath) (name : String) : Option Symbol :=
  (s.namespaces.find? path).bind fun n => n.symbols.find? name

def define (s : Store) (name : String) (symbol : Symbol) : Store :=
  s.update s.current fun n => { n with symbols := n.symbols.insert name symbol }

def constantIn? (s : Store) (path : ModulePath) (name : String) : Option Value :=
  (s.lookup? path name).bind Symbol.constant?

def constant? (s : Store) (name : String) : Option Value := s.constantIn? s.current name

def functionIn? (s : Store) (path : ModulePath) (name : String) : Option FunctionSymbol :=
  (s.lookup? path name).bind Symbol.function?

def hook? (s : Store) (name : String) : Option HookRef :=
  (s.lookup? s.current name).bind Symbol.hook?

/-- Changes a function; nothing happens if the name stands for something else. -/
def updateFunction (s : Store) (path : ModulePath) (name : String)
    (f : FunctionSymbol → FunctionSymbol) : Store :=
  match s.functionIn? path name with
  | none => s
  | some function =>
    s.update path fun n => { n with symbols := n.symbols.insert name (.function (f function)) }

def setting? (s : Store) (key : String) : Option Value :=
  (s.namespaces.find? s.current).bind fun n => n.settings.find? key

def configure (s : Store) (key : String) (value : Value) : Store :=
  s.update s.current fun n => { n with settings := n.settings.insert key value }

end Store

end P16
