import P16.Extension.Basic

/-!
# Arguments of hooks

How the bundled hooks take their arguments: by place, or by name when the place is not given.
-/

namespace P16

namespace CallArguments

def find? (args : CallArguments) (place : Nat) (name : String) : Option Value :=
  args.positional[place]? <|> args.keywords.find? name

def get (args : CallArguments) (place : Nat) (name : String) : Except String Value :=
  match args.find? place name with
  | some value => .ok value
  | none => .error ("missing argument `" ++ name ++ "`")

def atMost (args : CallArguments) (most : Nat) : Except String Unit :=
  if args.positional.length ≤ most then .ok ()
  else
    .error ("expected at most " ++ toString most ++ " arguments, found " ++
      toString args.positional.length)

end CallArguments

namespace Value

def expectNumber (value : Value) (name : String) : Except String Int :=
  match value.number? with
  | some n => .ok n
  | none => .error ("`" ++ name ++ "` must be a number, found " ++ value.kindName)

def expectText (value : Value) (name : String) : Except String String :=
  match value.text? with
  | some s => .ok s
  | none => .error ("`" ++ name ++ "` must be a string, found " ++ value.kindName)

def expectOperand (value : Value) (name : String) : Except String Operand :=
  match value.operand? with
  | some operand => .ok operand
  | none => .error ("`" ++ name ++ "` cannot be used as an operand: " ++ value.render)

end Value

namespace CallArguments

def number (args : CallArguments) (place : Nat) (name : String) : Except String Int := do
  (← args.get place name).expectNumber name

def text (args : CallArguments) (place : Nat) (name : String) : Except String String := do
  (← args.get place name).expectText name

def operand (args : CallArguments) (place : Nat) (name : String) : Except String Operand := do
  (← args.get place name).expectOperand name

end CallArguments

end P16
