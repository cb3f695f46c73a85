import P16.Symbol.ModulePath
import P16.Tree.Stmt

/-!
# Imported names

Which modules a module may bring in, found without lowering it.
-/

namespace P16

namespace Stmt

mutual

def imports : Stmt → List ModulePath
  | importNames names _ => names.map fun name => .ofDotted name.path.text
  | define _ _ _ body _ => importsOf body
  | whileLoop _ body _ => importsOf body
  | _ => []

def importsOf : List Stmt → List ModulePath
  | [] => []
  | s :: rest => s.imports ++ importsOf rest

end

end Stmt

def Module.imports (m : Module) : List ModulePath := Stmt.importsOf m.body

end P16
