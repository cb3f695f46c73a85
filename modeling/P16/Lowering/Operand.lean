import P16.Lowering.State

/-!
# Operands and values of expressions

Which register, operand, address or compile-time value an expression stands for. A name stands for a
parameter first, then for a register, then for a constant of the current module. Dotted names are
looked up from the root.
-/

namespace P16

def Failure.badOperand (e : Expr) : Failure :=
  ⟨.invalidOperand (e.kindName ++ " cannot be used here"), e.span⟩

/-- The module and the name there that a dotted name consists of. -/
def splitMember (e : Expr) : Except Failure (ModulePath × String) :=
  match e.toDottedName? with
  | none => .error (.badOperand e)
  | some name =>
    let segments := name.segments.map Ident.text
    .ok (⟨segments.dropLast⟩, segments.getLastD "")

def literalOperand (n : Int) (e : Expr) : Except Failure Operand :=
  match word? n with
  | some word => .ok (.lit word)
  | none =>
    .error ⟨.invalidOperand ("literal " ++ toString n ++ " does not fit in a word"), e.span⟩

def constantOperand (value : Value) (e : Expr) : Except Failure Operand :=
  match value.operand? with
  | some operand => .ok operand
  | none =>
    .error ⟨.invalidOperand (value.kindName ++ " constant " ++ value.render ++ " is not a word"),
      e.span⟩

namespace Compilation

def registerNamed? (c : Compilation) (name : String) : Option Register :=
  c.scope.aliases.find? name <|> Register.ofName? name

def target (c : Compilation) : Expr → Except Failure Register
  | .name ident =>
    match c.registerNamed? ident.text with
    | some register => .ok register
    | none =>
      .error ⟨.invalidTarget ("`" ++ ident.text ++ "` is not a register or parameter"), ident.span⟩
  | e => .error ⟨.invalidTarget ("cannot assign to " ++ e.kindName), e.span⟩

def namedConstant (c : Compilation) (ident : Ident) : Except Failure Value :=
  match c.store.constant? ident.text with
  | some value => .ok value
  | none => .error ⟨.undefinedName ident.text, ident.span⟩

def qualifiedConstant (c : Compilation) (e : Expr) : Except Failure Value := do
  let (path, name) ← splitMember e
  match c.store.constantIn? path name with
  | some value => return value
  | none => throw ⟨.undefinedName (path.dotted ++ "." ++ name), e.span⟩

def operand (c : Compilation) : Expr → Except Failure Operand
  | e@(.number n _) => literalOperand n e
  | e@(.unary .neg inner _) =>
    match inner with
    | .number n _ => literalOperand (-n) e
    | other => .error (.badOperand other)
  | e@(.name ident) =>
    match c.registerNamed? ident.text with
    | some register => .ok (.reg register)
    | none => do constantOperand (← c.namedConstant ident) e
  | e@(.member ..) => do constantOperand (← c.qualifiedConstant e) e
  | e => .error (.badOperand e)

mutual

def value (c : Compilation) : Expr → Except Failure Value
  | .number n _ => .ok (.number n)
  | .unary .neg inner _ =>
    match inner with
    | .number n _ => .ok (.number (-n))
    | other => .error (.badOperand other)
  | .text s _ => .ok (.text s)
  | .tuple items _ => do return .tuple (← c.values items)
  | .list items _ => do return .list (← c.values items)
  | .dict entries _ => do return .mapping (← c.entryValues entries)
  | .name ident =>
    match c.registerNamed? ident.text with
    | some register => .ok (.register register)
    | none => c.namedConstant ident
  | e@(.member ..) => c.qualifiedConstant e
  | e => .error (.badOperand e)

def values (c : Compilation) : List Expr → Except Failure (List Value)
  | [] => .ok []
  | e :: rest => do
    let first ← c.value e
    return first :: (← c.values rest)

def entryValues (c : Compilation) : List (Expr × Expr) → Except Failure (List (Value × Value))
  | [] => .ok []
  | (key, item) :: rest => do
    let k ← c.value key
    let v ← c.value item
    return (k, v) :: (← c.entryValues rest)

end

/-- The values of keyword arguments; of a repeated one the last counts, at the first's place. -/
def keywordValues (c : Compilation) (table : Table String Value) :
    List (Keyword Expr) → Except Failure (Table String Value)
  | [] => .ok table
  | k :: rest => do
    let v ← c.value k.value
    c.keywordValues (table.insert k.name.text v) rest

def addressSum (span : Span) : Operand → Operand → Except Failure Operand
  | .reg _, .reg _ => .error ⟨.invalidOperand "cannot add two registers in an address", span⟩
  | .lit a, .lit b =>
    let sum := a.toNat + b.toNat
    if sum < 0x10000 then .ok (.mem (.lit (UInt16.ofNat sum)))
    else .error ⟨.invalidOperand ("address " ++ Text.hexNumber sum ++ " is out of range"), span⟩
  | base, .reg offset => .ok (.memOffset (.reg offset) base)
  | base, offset => .ok (.memOffset base offset)

/-- The memory word at an operand or at the sum of two, of which at most one is a register. The
register is put first. -/
def address (c : Compilation) : Expr → Except Failure Operand
  | .binary op left right span =>
    if op = .add then do
      let l ← c.operand left
      let r ← c.operand right
      addressSum span l r
    else .error ⟨.unsupportedOperator op.symbol, span⟩
  | e => do return .mem (← c.operand e)

def callee (c : Compilation) : Expr → Except Failure FunctionKey
  | .name ident => .ok ⟨c.store.current, ident.text⟩
  | e@(.member ..) => do
    let (path, name) ← splitMember e
    return ⟨path, name⟩
  | e => .error ⟨.invalidOperand ("cannot call " ++ e.kindName), e.span⟩

/-- The name shown in messages: bare inside its own module. -/
def shownName (c : Compilation) (key : FunctionKey) : String :=
  if key.path = c.store.current then key.name else key.path.dotted ++ "." ++ key.name

end Compilation

end P16
