/-!
# Hexadecimal text

Lower-case hexadecimal numerals: machine words with four digits, and numbers with as many digits as
they need.
-/

namespace P16.Text

def hexDigit (n : Nat) : Char :=
  if n < 10 then Char.ofNat ('0'.toNat + n) else Char.ofNat ('a'.toNat + (n - 10))

def hexDigits (n : Nat) : List Char :=
  if n < 16 then [hexDigit n] else hexDigits (n / 16) ++ [hexDigit (n % 16)]

def hexNumber (n : Nat) : String :=
  "0x" ++ String.ofList (hexDigits n)

def hexWord (w : UInt16) : String :=
  let n := w.toNat
  "0x" ++ String.ofList
    [hexDigit (n / 4096 % 16), hexDigit (n / 256 % 16), hexDigit (n / 16 % 16), hexDigit (n % 16)]

def hexSigned64 (n : Int) : String :=
  hexNumber (n % 0x10000000000000000).toNat

end P16.Text
