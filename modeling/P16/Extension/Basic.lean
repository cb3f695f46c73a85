import P16.Assembly.Program
import P16.Symbol.Store

/-!
# Extensions

An extension is code of the host that is linked into the compiler under the name of a module. When
the module is imported, the extension puts its hooks, constants and data cells into the module's
table and writes its start-up code. A call of a hook runs the hook at compile time.

A hook that fails leaves what it has done so far.
-/

namespace P16

structure Target where
  program : Program
  store : Store
  /-- Remarks left for the host. -/
  notes : Array String

abbrev HookM := EStateM String Target

namespace HookM

variable {α : Type}

def write (f : Program → Program) : HookM Unit :=
  modify fun t => { t with program := f t.program }

def updateStore (f : Store → Store) : HookM Unit :=
  modify fun t => { t with store := f t.store }

def note (remark : String) : HookM Unit :=
  modify fun t => { t with notes := t.notes.push remark }

def getStore : HookM Store :=
  return (← get).store

/-- Runs `after` at the end of `act`, also when `act` fails. -/
def ending (act : HookM α) (after : HookM Unit) : HookM α := do
  let result ← tryCatch (Except.ok <$> act) fun message => pure (Except.error message)
  after
  match result with
  | .ok a => return a
  | .error message => throw message

def preserve (registers : List Register) (act : HookM α) : HookM α := do
  write fun p => p.pushAll (registers.map .reg)
  ending act (write fun p => p.popAll (registers.map .reg))

def inFooter (act : HookM α) : HookM α := do
  let (mark, program) := (← get).program.enterFooter
  write fun _ => program
  ending act (write fun p => p.leaveFooter mark)

end HookM

structure CallArguments where
  positional : List Value
  keywords : Table String Value
deriving Inhabited

structure Hook where
  name : String
  run : CallArguments → HookM Unit

structure Extension where
  hooks : List Hook
  constants : List (String × Value)
  /-- Names of data words. The extension writes the words itself. -/
  cells : List String
  startUp? : Option (HookM Unit)
deriving Inhabited

namespace Extension

def empty : Extension := ⟨[], [], [], none⟩

/-- The hook of a name; the last one if there are several. -/
def hook? (e : Extension) (name : String) : Option Hook :=
  e.hooks.reverse.find? fun h => h.name = name

/-- What the extension defines in the current module, under its registered name. -/
def define (e : Extension) (name : String) (s : Store) : Store :=
  let s := e.hooks.foldl (fun s h => s.define h.name (.hook ⟨name, h.name⟩)) s
  let s := e.constants.foldl (fun s c => s.define c.1 (.constant c.2)) s
  e.cells.foldl (fun s cell => s.define cell (.constant (.label (s.expand cell)))) s

def install (e : Extension) (name : String) : HookM Unit := do
  HookM.updateStore (e.define name)
  match e.startUp? with
  | some startUp => startUp
  | none => return

end Extension

/-- Extensions by name, in ascending order of their names. -/
structure Registry where
  entries : List (String × Extension)
deriving Inhabited

namespace Registry

def empty : Registry := ⟨[]⟩

def insertIn (name : String) (e : Extension) : List (String × Extension) → List (String × Extension)
  | [] => [(name, e)]
  | entry :: rest =>
    if name = entry.1 then (name, e) :: rest
    else if name < entry.1 then (name, e) :: entry :: rest
    else entry :: insertIn name e rest

/-- Registers an extension, in place of one of the same name. -/
def insert (r : Registry) (name : String) (e : Extension) : Registry :=
  ⟨insertIn name e r.entries⟩

def find? (r : Registry) (name : String) : Option Extension :=
  (r.entries.find? fun entry => entry.1 = name).map (·.2)

def names (r : Registry) : List String := r.entries.map (·.1)

def hook? (r : Registry) (ref : HookRef) : Option Hook :=
  (r.find? ref.extension).bind fun e => e.hook? ref.name

end Registry

def quotedList (texts : List String) : String :=
  "[" ++ ", ".intercalate (texts.map Text.quoted) ++ "]"

def Extension.summary (e : Extension) : String :=
  "NativeModule \x7b macros: " ++ quotedList (e.hooks.map Hook.name) ++
    ", constants: " ++ toString e.constants.length ++
    ", data_labels: " ++ quotedList e.cells ++
    ", init: " ++ (if e.startUp?.isSome then "true" else "false") ++ " \x7d"

def HookRef.summary (ref : HookRef) : String :=
  "Macro \x7b name: " ++ Text.quoted ref.name ++ ", .. \x7d"

end P16
