import P16.Extension.Arguments

/-!
# Text in screen memory

A cell of the screen is a word with the character in its low byte, the background colour in bits 8
to 11 and the foreground colour in bits 12 to 15.
-/

namespace P16.ScreenText

structure Colors where
  foreground : Int
  background : Int
deriving DecidableEq, Inhabited

def checkColor (name : String) (color : Int) : Except String Unit :=
  if 0 ≤ color ∧ color < 16 then .ok ()
  else .error (name ++ " " ++ toString color ++ " is not in 0..16")

def cell (colors : Colors) (c : Char) : Except String UInt16 := do
  if 128 ≤ c.toNat then throw ("character " ++ Text.quotedChar c ++ " has no display glyph")
  checkColor "color" colors.foreground
  checkColor "highlight color" colors.background
  return UInt16.ofNat c.toNat ||| UInt16.ofNat colors.foreground.toNat <<< 12 |||
    UInt16.ofNat colors.background.toNat <<< 8

def address (location : Int) : Except String Operand :=
  match (word? location).filter fun _ => 0 ≤ location with
  | some word => .ok (.mem (.lit word))
  | none => .error ("address " ++ Text.hexSigned64 location ++ " is out of range")

def write (colors : Colors) : Int → List Char → HookM Unit
  | _, [] => return
  | location, c :: cs => do
    let word ← MonadExcept.ofExcept (cell colors c)
    let target ← MonadExcept.ofExcept (address location)
    HookM.write fun p => p.set target (.lit word)
    write colors (location + 1) cs

end P16.ScreenText
