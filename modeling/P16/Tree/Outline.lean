import P16.Text.Quoted
import P16.Tree.Stmt

/-!
# Outlines

The structure of a module as indented text: a line for each field of a record and each item of a
list, four more blanks for each level, a comma after each part.
-/

namespace P16

inductive Outline where
  | leaf (text : String)
  | record (name : String) (fields : List (String × Outline))
  | wrap (name : String) (parts : List Outline)
  | list (items : List Outline)

namespace Outline

mutual

/-- The text of an outline whose first line is already indented by `margin`. -/
def render (margin : String) : Outline → String
  | leaf text => text
  | record name fields =>
    name ++ " \x7b\n" ++ renderFields (margin ++ "    ") fields ++ margin ++ "\x7d"
  | wrap name parts => name ++ "(\n" ++ renderParts (margin ++ "    ") parts ++ margin ++ ")"
  | list [] => "[]"
  | list (first :: rest) =>
    "[\n" ++ renderParts (margin ++ "    ") (first :: rest) ++ margin ++ "]"

def renderFields (margin : String) : List (String × Outline) → String
  | [] => ""
  | (name, part) :: rest =>
    margin ++ name ++ ": " ++ render margin part ++ ",\n" ++ renderFields margin rest

def renderParts (margin : String) : List Outline → String
  | [] => ""
  | part :: rest => margin ++ render margin part ++ ",\n" ++ renderParts margin rest

end

def ofNat (n : Nat) : Outline := leaf (toString n)

def ofText (s : String) : Outline := leaf (Text.quoted s)

def ofOption : Option Outline → Outline
  | none => leaf "None"
  | some part => wrap "Some" [part]

end Outline

def Span.outline (span : Span) : Outline :=
  .record "Span" [("start", .ofNat span.start), ("end", .ofNat span.stop),
    ("line", .ofNat span.line), ("column", .ofNat span.column)]

def Ident.outline (ident : Ident) : Outline :=
  .record "Spanned" [("item", .ofText ident.text), ("span", ident.span.outline)]

def DottedName.outline (name : DottedName) : Outline :=
  .record "Path" [("segments", .list (name.segments.map Ident.outline)),
    ("span", name.span.outline)]

namespace Expr

mutual

def outline : Expr → Outline
  | name ident => .wrap "Name" [ident.outline]
  | member value attr span =>
    .wrap "Attribute" [.record "AttributeExpr"
      [("value", value.outline), ("attr", attr.outline), ("span", span.outline)]]
  | number value span =>
    .wrap "Number" [.record "NumberExpr"
      [("value", .leaf (toString value)), ("span", span.outline)]]
  | text value span =>
    .wrap "Str" [.record "StrExpr" [("value", .ofText value), ("span", span.outline)]]
  | tuple items span =>
    .wrap "Tuple" [.record "SeqExpr"
      [("elts", .list (outlines items)), ("span", span.outline)]]
  | list items span =>
    .wrap "List" [.record "SeqExpr"
      [("elts", .list (outlines items)), ("span", span.outline)]]
  | dict entries span =>
    .wrap "Dict" [.record "DictExpr"
      [("entries", .list (entryOutlines entries)), ("span", span.outline)]]
  | call callee args keywords span =>
    .wrap "Call" [.record "CallExpr"
      [("func", callee.outline), ("args", .list (outlines args)),
       ("keywords", .list (keywordOutlines keywords)), ("span", span.outline)]]
  | binary op left right span =>
    .wrap "Binary" [.record "BinaryExpr"
      [("op", .leaf op.name), ("left", left.outline), ("right", right.outline),
       ("span", span.outline)]]
  | unary op operand span =>
    .wrap "Unary" [.record "UnaryExpr"
      [("op", .leaf op.name), ("operand", operand.outline), ("span", span.outline)]]
  | compare left links span =>
    .wrap "Compare" [.record "CompareExpr"
      [("left", left.outline), ("ops", .list (links.map fun link => .leaf link.1.name)),
       ("comparators", .list (linkOutlines links)), ("span", span.outline)]]
  | subscript value index span =>
    .wrap "Subscript" [.record "SubscriptExpr"
      [("value", value.outline), ("index", index.outline), ("span", span.outline)]]

def outlines : List Expr → List Outline
  | [] => []
  | e :: es => e.outline :: outlines es

def entryOutlines : List (Expr × Expr) → List Outline
  | [] => []
  | (key, value) :: rest => .wrap "" [key.outline, value.outline] :: entryOutlines rest

def keywordOutlines : List (Keyword Expr) → List Outline
  | [] => []
  | ⟨ident, value, span⟩ :: rest =>
    .record "Keyword" [("name", ident.outline), ("value", value.outline), ("span", span.outline)] ::
      keywordOutlines rest

def linkOutlines : List (CompareOp × Expr) → List Outline
  | [] => []
  | (_, right) :: rest => right.outline :: linkOutlines rest

end

end Expr

def ImportName.outline (name : ImportName) : Outline :=
  .record "ImportName"
    [("path", name.path.outline), ("alias", .ofOption (name.newName?.map Ident.outline)),
     ("span", name.span.outline)]

namespace Stmt

mutual

def outline : Stmt → Outline
  | importNames names span =>
    .wrap "Import" [.record "ImportStmt"
      [("names", .list (names.map ImportName.outline)), ("span", span.outline)]]
  | assign targets value span =>
    .wrap "Assign" [.record "AssignStmt"
      [("targets", .list (Expr.outlines targets)), ("value", value.outline),
       ("span", span.outline)]]
  | augAssign target op value span =>
    .wrap "AugAssign" [.record "AugAssignStmt"
      [("target", target.outline), ("op", .leaf op.name), ("value", value.outline),
       ("span", span.outline)]]
  | expr e span =>
    .wrap "Expr" [.record "ExprStmt" [("expr", e.outline), ("span", span.outline)]]
  | define name params decorators body span =>
    .wrap "FunctionDef" [.record "FunctionDef"
      [("name", name.outline), ("params", .list (params.map Ident.outline)),
       ("decorators", .list (Expr.outlines decorators)), ("body", .list (outlines body)),
       ("span", span.outline)]]
  | giveBack value? span =>
    .wrap "Return" [.record "ReturnStmt"
      [("value", .ofOption (value?.map Expr.outline)), ("span", span.outline)]]
  | whileLoop test body span =>
    .wrap "While" [.record "WhileStmt"
      [("test", test.outline), ("body", .list (outlines body)), ("span", span.outline)]]
  | breakLoop span => .wrap "Break" [span.outline]
  | continueLoop span => .wrap "Continue" [span.outline]
  | pass span => .wrap "Pass" [span.outline]
  | unsupported form span =>
    .wrap "Unsupported" [.record "UnsupportedStmt"
      [("kind", .ofText form.name), ("span", span.outline)]]

def outlines : List Stmt → List Outline
  | [] => []
  | s :: rest => s.outline :: outlines rest

end

end Stmt

def Module.outline (m : Module) : Outline :=
  .record "Module" [("body", .list (Stmt.outlines m.body)), ("span", m.span.outline)]

def Module.outlineText (m : Module) : String :=
  m.outline.render ""

end P16
