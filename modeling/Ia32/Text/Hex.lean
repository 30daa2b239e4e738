/-!
# Hexadecimal text

Numbers as hexadecimal digits, filled with zeros on the left up to a least
width.  Messages use upper case.
-/

namespace Ia32.Hex

/-- Fills a text with zeros on the left. -/
def pad (width : Nat) (digits : List Char) : String :=
  String.ofList (List.replicate (width - digits.length) '0' ++ digits)

/-- Lower-case digits, at least `width` of them. -/
def lower (width n : Nat) : String := pad width (Nat.toDigits 16 n)

/-- Upper-case digits, at least `width` of them. -/
def upper (width n : Nat) : String := pad width ((Nat.toDigits 16 n).map Char.toUpper)

end Ia32.Hex
