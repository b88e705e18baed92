/-! Arithmetic on bytes with a carry. Sums and differences carry when the exact
result leaves the byte; shifts and rotations carry the bit that falls out. -/
namespace Microprogram.Alu

inductive Op
  | add
  | subtract
  | and
  | or
  | xor
  | shiftLeft
  | shiftRight
  | rotateLeft
  | rotateRight
deriving DecidableEq, Repr, Inhabited

namespace Op

def all : List Op := [add,subtract,and,or,xor,shiftLeft,shiftRight,rotateLeft,rotateRight]

def name : Op → String
  | add => "add"
  | subtract => "subtract"
  | and => "and"
  | or => "or"
  | xor => "xor"
  | shiftLeft => "shift_left"
  | shiftRight => "shift_right"
  | rotateLeft => "rotate_left"
  | rotateRight => "rotate_right"

def index : Op → Fin 9
  | add => 0
  | subtract => 1
  | and => 2
  | or => 3
  | xor => 4
  | shiftLeft => 5
  | shiftRight => 6
  | rotateLeft => 7
  | rotateRight => 8

end Op

structure Output where
  value : UInt8
  carry : Bool
  zero : Bool
  negative : Bool
  overflow : Bool
deriving DecidableEq, Repr

def sign (b : UInt8) : Bool := 128 ≤ b.toNat

def bit (b : Bool) : Nat := if b then 1 else 0

/-- Overflow is judged by signs: two operands agree on one that the value lacks. -/
def arithmetic (exact : Int) (left right : Bool) : Output :=
  let value := UInt8.ofNat (exact % 256).toNat
  { value
    carry := exact < 0 || 256 ≤ exact
    zero := value = 0
    negative := sign value
    overflow := left == right && sign value != left }

def logic (value : UInt8) : Output :=
  { value, carry := false, zero := value = 0, negative := sign value, overflow := false }

/-- Only zero is reported beside the bit that fell out. -/
def shifted (value : UInt8) (out : Bool) : Output :=
  { value, carry := out, zero := value = 0, negative := false, overflow := false }

/-- A difference takes one more away when no carry comes in. -/
def compute (op : Op) (lhs rhs : UInt8) (carry : Bool) : Output :=
  match op with
  | .add => arithmetic (lhs.toNat + rhs.toNat + bit carry) (sign lhs) (sign rhs)
  | .subtract => arithmetic (lhs.toNat - rhs.toNat - (1 - bit carry : Nat)) (sign lhs) (!sign rhs)
  | .and => logic (lhs &&& rhs)
  | .or => logic (lhs ||| rhs)
  | .xor => logic (lhs ^^^ rhs)
  | .shiftLeft => shifted (lhs <<< 1) (sign lhs)
  | .shiftRight => shifted (lhs >>> 1) (lhs &&& 1 = 1)
  | .rotateLeft => shifted ((lhs <<< 1) ||| UInt8.ofNat (bit carry)) (sign lhs)
  | .rotateRight => shifted ((lhs >>> 1) ||| (UInt8.ofNat (bit carry) <<< 7)) (lhs &&& 1 = 1)

end Microprogram.Alu
