import P16.Source.Span

/-!
# Line index

The byte offsets at which the lines of a text begin, and the line and column of any byte offset.
Offsets past the end of the text belong to its last line. Lines and columns are 32-bit numbers.
-/

namespace P16

/-- The offsets just after each line break, for a text that begins at `offset`. -/
def lineStartsFrom : Nat → List Char → List Nat
  | _, [] => []
  | offset, c :: cs =>
    if c = '\n' then (offset + 1) :: lineStartsFrom (offset + 1) cs
    else lineStartsFrom (offset + c.utf8Size) cs

structure LineIndex where
  starts : List Nat
deriving DecidableEq

namespace LineIndex

def ofString (source : String) : LineIndex :=
  ⟨0 :: lineStartsFrom 0 source.toList⟩

/-- The line, counted from one, and the byte column, counted from zero. Both are 32 bits wide, and
after the largest number they start again from zero. -/
def lineColumn (index : LineIndex) (offset : Nat) : Nat × Nat :=
  let before := index.starts.takeWhile (· ≤ offset)
  (before.length % 0x100000000, (offset - before.getLastD 0) % 0x100000000)

def span (index : LineIndex) (start stop : Nat) : Span :=
  let (line, column) := index.lineColumn start
  ⟨start, stop, line, column⟩

@[simp] theorem start_span (index : LineIndex) (start stop : Nat) :
    (index.span start stop).start = start := rfl

@[simp] theorem stop_span (index : LineIndex) (start stop : Nat) :
    (index.span start stop).stop = stop := rfl

end LineIndex

end P16
