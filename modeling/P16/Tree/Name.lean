import P16.Source.Span

/-!
# Names in a module
-/

namespace P16

structure Ident where
  text : String
  span : Span
deriving DecidableEq, Inhabited

structure DottedName where
  segments : List Ident
  span : Span
deriving DecidableEq, Inhabited

namespace DottedName

def text (name : DottedName) : String :=
  ".".intercalate (name.segments.map Ident.text)

def ofIdent (ident : Ident) : DottedName :=
  ⟨[ident], ident.span⟩

def snoc (name : DottedName) (ident : Ident) : DottedName :=
  ⟨name.segments ++ [ident], name.span.through ident.span⟩

end DottedName

end P16
