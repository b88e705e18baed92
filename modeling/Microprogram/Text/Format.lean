/-! Text as reports and messages set it out. Numbers and names stand in fixed fields:
hexadecimal with a least number of digits, and padding counted in characters. A line
ends at a line feed, or at the end of the text. Binary64 numbers are written in
positional decimal notation, rounded to the nearest decimal of a fixed number of
places, a tie to the even one. -/
namespace Microprogram.Text

def padLeft (width : Nat) (fill : Char) (text : String) : String :=
  String.ofList (List.replicate (width - text.length) fill) ++ text

def padRight (width : Nat) (text : String) : String :=
  text ++ String.ofList (List.replicate (width - text.length) ' ')

/-- Lower-case hexadecimal after `0x`, with at least the given number of digits. -/
def hex (digits n : Nat) : String := "0x" ++ padLeft digits '0' (String.ofList (Nat.toDigits 16 n))

def hexByte (b : UInt8) : String := padLeft 2 '0' (String.ofList (Nat.toDigits 16 b.toNat))

def hexBytes (bytes : List UInt8) : String := String.join (bytes.map hexByte)

def hexDigit (c : Char) : Nat :=
  if c.isDigit then c.toNat - '0'.toNat else c.toLower.toNat - 'a'.toNat + 10

def ofHexDigits : List Char → List UInt8
  | high :: low :: rest => UInt8.ofNat (16 * hexDigit high + hexDigit low) :: ofHexDigits rest
  | _ => []

def joined (separator : String) (parts : List String) : String := separator.intercalate parts

def unlines (lines : List String) : String := String.join (lines.map (· ++ "\n"))

/-- The line whose characters were collected last first. One carriage return right
before the line feed belongs to the end of the line. -/
def ended : List Char → String
  | '\r' :: line => String.ofList line.reverse
  | line => String.ofList line.reverse

/-- The lines of a text, after the characters of a line begun before it, last first.
What follows the last line feed is a line unless it is empty, and keeps its carriage
returns, since no line feed ends it. -/
def linesAfter (line : List Char) : List Char → List String
  | [] => if line.isEmpty then [] else [String.ofList line.reverse]
  | '\n' :: rest => ended line :: linesAfter [] rest
  | c :: rest => linesAfter (c :: line) rest

def lines (text : String) : List String := linesAfter [] text.toList

namespace Decimal

/-- A quotient rounded to the nearest whole number, a tie to the even one. -/
def roundDiv (num den : Nat) : Nat :=
  let quotient := num / den
  let twice := 2 * (num % den)
  if twice < den then quotient
  else if den < twice then quotient + 1
  else if quotient % 2 = 0 then quotient else quotient + 1

/-- A positive binary64 number as a fraction, from its bits. -/
def fraction (bits : UInt64) : Nat × Nat :=
  let exponent := (bits.toNat / 0x10000000000000) % 2048
  let mantissa := bits.toNat % 0x10000000000000
  let (m,e) := if exponent = 0 then (mantissa,1) else (0x10000000000000 + mantissa,exponent)
  if e < 1075 then (m,1 <<< (1075 - e)) else (m <<< (e - 1075),1)

/-- A number that is not negative, with the given count of decimal places. -/
def fixed (places : Nat) (value : Float) : String :=
  let (num,den) := fraction value.toBits
  let unit := Nat.pow 10 places
  let scaled := roundDiv (num * unit) den
  let whole := toString (scaled / unit)
  if places = 0 then whole
  else
    let part := toString (scaled % unit)
    whole ++ "." ++ String.ofList (List.replicate (places - part.length) '0') ++ part

end Decimal
end Microprogram.Text
