import Microprogram.Text.Utf8

/-! Values as bytes in a fixed width, low byte first, and strings and lists behind
their 64-bit lengths. A decoder returns its value with the bytes it left. -/
namespace Microprogram.Bytes

inductive DecodeError
  /-- The bytes end inside a number or a truth value. -/
  | unexpectedEnd
  /-- A string is announced longer than the bytes that are left. -/
  | stringTooLong
  | notUtf8 (error : Text.Utf8.Error)
  | badVariant (num count : Nat)
  | badBool (b : UInt8)
deriving DecidableEq, Repr

def DecodeError.message : DecodeError → String
  | unexpectedEnd => "io error: unexpected end of file"
  | stringTooLong => "io error: "
  | notUtf8 error => s!"string is not valid utf8: {error.message}"
  | badVariant num count => s!"invalid value: integer `{num}`, expected variant index 0 <= i < {count}"
  | badBool b => s!"invalid u8 while decoding bool, expected 0 or 1, found {b.toNat}"

abbrev Decoder (α : Type) := List UInt8 → Except DecodeError (α × List UInt8)

/-- A number in the given count of bytes, low byte first. -/
def encodeNat : Nat → Nat → List UInt8
  | 0, _ => []
  | width + 1, n => UInt8.ofNat n :: encodeNat width (n / 256)

def decodeNat : Nat → Decoder Nat
  | 0, bytes => .ok (0,bytes)
  | _ + 1, [] => .error .unexpectedEnd
  | width + 1, b :: bytes =>
    (decodeNat width bytes).map fun (n,rest) => (b.toNat + 256 * n,rest)

def encodeByte (b : UInt8) : List UInt8 := [b]

def decodeByte : Decoder UInt8
  | [] => .error .unexpectedEnd
  | b :: bytes => .ok (b,bytes)

def encodeBool (b : Bool) : List UInt8 := [if b then 1 else 0]

def decodeBool : Decoder Bool
  | [] => .error .unexpectedEnd
  | b :: bytes => if b = 0 then .ok (false,bytes) else if b = 1 then .ok (true,bytes) else .error (.badBool b)

def encodeString (text : String) : List UInt8 :=
  let body := Text.Utf8.encode text.toList
  encodeNat 8 body.length ++ body

def decodeString : Decoder String := fun bytes => do
  let (length,bytes) ← decodeNat 8 bytes
  if bytes.length < length then .error .stringTooLong
  else match Text.Utf8.decode (bytes.take length) with
    | .ok text => return (String.ofList text,bytes.drop length)
    | .error e => .error (.notUtf8 e)

def encodeList {α : Type} (encode : α → List UInt8) (items : List α) : List UInt8 :=
  encodeNat 8 items.length ++ items.flatMap encode

def decodeMany {α : Type} (decode : Decoder α) : Nat → Decoder (List α)
  | 0, bytes => .ok ([],bytes)
  | count + 1, bytes => do
    let (item,bytes) ← decode bytes
    let (items,bytes) ← decodeMany decode count bytes
    return (item :: items,bytes)

def decodeList {α : Type} (decode : Decoder α) : Decoder (List α) := fun bytes => do
  let (count,bytes) ← decodeNat 8 bytes
  decodeMany decode count bytes

end Microprogram.Bytes
