/-! UTF-8. `encode` writes characters as bytes, and `decode` reads them back or
says where and how the bytes go wrong. Overlong forms, surrogates and numbers
above `0x10FFFF` are wrong at their second byte. -/
namespace Microprogram.Text.Utf8

def encodeChar (c : Char) : List UInt8 :=
  let n := c.toNat
  if n < 0x80 then [.ofNat n]
  else if n < 0x800 then [.ofNat (0xC0 + n / 64),.ofNat (0x80 + n % 64)]
  else if n < 0x10000 then
    [.ofNat (0xE0 + n / 4096),.ofNat (0x80 + n / 64 % 64),.ofNat (0x80 + n % 64)]
  else
    [.ofNat (0xF0 + n / 262144),.ofNat (0x80 + n / 4096 % 64),.ofNat (0x80 + n / 64 % 64),
      .ofNat (0x80 + n % 64)]

def encode (text : List Char) : List UInt8 := text.flatMap encodeChar

/-- A mistake: the bytes before it are sound. A sequence is broken by a byte that
cannot follow, or cut short by the end. -/
inductive Error
  | broken (index length : Nat)
  | incomplete (index : Nat)
deriving DecidableEq, Repr

def Error.message : Error → String
  | broken index length => s!"invalid utf-8 sequence of {length} bytes from index {index}"
  | incomplete index => s!"incomplete utf-8 byte sequence from index {index}"

/-- A sequence that has begun: where it began, the bytes read of it, their value,
the bytes still to come, and the range of the next one. -/
structure Pending where
  start : Nat
  taken : Nat
  value : Nat
  more : Nat
  low : UInt8
  high : UInt8
deriving DecidableEq, Repr

def lead? (start : Nat) (b : UInt8) : Option Pending :=
  if b < 0x80 then some ⟨start,1,b.toNat,0,0x80,0xBF⟩
  else if b < 0xC2 then none
  else if b < 0xE0 then some ⟨start,1,b.toNat - 0xC0,1,0x80,0xBF⟩
  else if b = 0xE0 then some ⟨start,1,0,2,0xA0,0xBF⟩
  else if b = 0xED then some ⟨start,1,0xD,2,0x80,0x9F⟩
  else if b < 0xF0 then some ⟨start,1,b.toNat - 0xE0,2,0x80,0xBF⟩
  else if b = 0xF0 then some ⟨start,1,0,3,0x90,0xBF⟩
  else if b < 0xF4 then some ⟨start,1,b.toNat - 0xF0,3,0x80,0xBF⟩
  else if b = 0xF4 then some ⟨start,1,4,3,0x80,0x8F⟩
  else none

def Pending.take? (p : Pending) (b : UInt8) : Option Pending :=
  if p.low ≤ b && b ≤ p.high then
    some ⟨p.start,p.taken + 1,p.value * 64 + (b.toNat - 0x80),p.more - 1,0x80,0xBF⟩
  else none

def advance (index : Nat) (b : UInt8) : Option Pending → Except Error Pending
  | none =>
    match lead? index b with
    | some p => .ok p
    | none => .error (.broken index 1)
  | some p =>
    match p.take? b with
    | some next => .ok next
    | none => .error (.broken p.start p.taken)

/-- Reads bytes from the given index on, inside a sequence or between two. -/
def decodeFrom (index : Nat) (pending : Option Pending) :
    List UInt8 → Except Error (List Char)
  | [] =>
    match pending with
    | none => .ok []
    | some p => .error (.incomplete p.start)
  | b :: rest =>
    match advance index b pending with
    | .error e => .error e
    | .ok p =>
      if p.more = 0 then (decodeFrom (index + 1) none rest).map (Char.ofNat p.value :: ·)
      else decodeFrom (index + 1) (some p) rest

def decode (bytes : List UInt8) : Except Error (List Char) := decodeFrom 0 none bytes

end Microprogram.Text.Utf8
