import P16.Extension.Bundled
import P16.Lowering.Stmt

/-!
# Compiling modules

`Compilation.addModule` lowers a module into a compilation; later modules see the symbols of earlier
ones. `Compilation.output` is the assembled program with the diagnostics.

Bodies are entered inside each other: a call enters the body of a function, an import that of a
module. `Compilation.depthBound` bounds how deep this can go: a body is entered at most once for
each function and each imported name, and functions and names come from the module itself, from
functions waiting to be called, and from the source files.
-/

namespace P16

namespace Stmt

mutual

/-- How many functions and imported names a statement holds, at any depth. -/
def weight : Stmt → Nat
  | importNames names _ => names.length
  | define _ _ _ body _ => 1 + weights body
  | whileLoop _ body _ => weights body
  | _ => 0

def weights : List Stmt → Nat
  | [] => 0
  | s :: rest => s.weight + weights rest

end

end Stmt

def loadedWeight : Except LoadFault Module → Nat
  | .ok m => Stmt.weights m.body
  | .error _ => 0

def SourceTree.weight (tree : SourceTree) : Nat :=
  tree.files.foldl (fun total entry => total + loadedWeight entry.2) 0

def Symbol.weight : Symbol → Nat
  | .function f => if f.emitted then 0 else 1 + Stmt.weights f.definition.body
  | _ => 0

def Namespace.weight (n : Namespace) : Nat :=
  n.symbols.entries.foldl (fun total entry => total + entry.2.weight) 0

def Store.weight (s : Store) : Nat :=
  s.namespaces.entries.foldl (fun total entry => total + entry.2.weight) 0

structure Output where
  assembly : String
  diagnostics : List Diagnostic

namespace Output

def errors (o : Output) : List Diagnostic := o.diagnostics.filter Diagnostic.isError

def warnings (o : Output) : List Diagnostic := o.diagnostics.filter fun d => !d.isError

def failed (o : Output) : Bool := o.diagnostics.any Diagnostic.isError

end Output

namespace Compilation

/-- How deep bodies can be entered inside each other when `stmts` are lowered. -/
def depthBound (env : Environment) (stmts : List Stmt) (c : Compilation) : Nat :=
  let own := Stmt.weights stmts + c.store.weight
  let files := env.sources.tree.weight + Library.sources.weight
  own + (own + files) * (1 + files) + 1

def addModule (env : Environment) (m : Module) (c : Compilation) : Compilation :=
  LowerM.body env (c.depthBound env m.body) m.body c

def output (c : Compilation) : Output :=
  ⟨c.program.assemble, c.diagnostics.toList⟩

end Compilation

def compileModule (env : Environment) (file? : Option String) (m : Module) : Compilation :=
  (Compilation.start file?).addModule env m

def compileSource (env : Environment) (file? : Option String) (source : String) :
    Except ParseError Compilation :=
  (parseModule source).map (compileModule env file?)

def Environment.bundled (roots : List SearchRoot) (tree : SourceTree) : Environment :=
  ⟨⟨roots, tree⟩, .bundled⟩

end P16
