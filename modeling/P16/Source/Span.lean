/-!
# Spans of source text

A span is a range of bytes together with the line and column at which it begins. Lines count from
one; columns count bytes from zero.
-/

namespace P16

structure Span where
  start : Nat
  stop : Nat
  line : Nat
  column : Nat
deriving DecidableEq, Inhabited

namespace Span

def through (a b : Span) : Span :=
  { a with stop := max b.stop a.stop }

def collapse (a : Span) : Span :=
  { a with stop := a.start }

@[simp] theorem start_through (a b : Span) : (a.through b).start = a.start := rfl

@[simp] theorem stop_through (a b : Span) : (a.through b).stop = max b.stop a.stop := rfl

@[simp] theorem line_through (a b : Span) : (a.through b).line = a.line := rfl

@[simp] theorem column_through (a b : Span) : (a.through b).column = a.column := rfl

theorem through_self (a : Span) : a.through a = a := by
  simp [through]

end Span

end P16
