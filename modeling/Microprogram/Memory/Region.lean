import Microprogram.Machine.Config

/-! Blocks of the address space. RAM can be written, ROM cannot, and both have a
power of two of cells. -/
namespace Microprogram

inductive MemoryError
  | outOfRange (offset size : Nat)
  | readOnly (address : UInt16)
  | unmapped (address : UInt16)
  | invalidSize (size : Nat)
deriving DecidableEq, Repr

namespace MemoryError
open Text

def message : MemoryError → String
  | outOfRange offset size =>
    s!"Offset {hex 4 offset} is out of range for a region of {hex 0 size} bytes"
  | readOnly address => s!"Write to read-only memory at {hex 4 address.toNat}"
  | unmapped address => s!"No memory region mapped at {hex 4 address.toNat}"
  | invalidSize size => s!"Invalid region size {hex 0 size}: must be a non-zero power of two"

end MemoryError

inductive RegionKind
  | ram
  | rom
deriving DecidableEq, Repr

def RegionKind.name : RegionKind → String
  | ram => "ram"
  | rom => "rom"

structure Region where
  kind : RegionKind
  base : UInt16
  cells : Array UInt8
deriving DecidableEq, Repr

namespace Region

/-- RAM begins with every cell zero. -/
def ram (base : UInt16) (size : Nat) : Except MemoryError Region :=
  if isPowerOfTwo size then .ok ⟨.ram,base,Array.replicate size 0⟩ else .error (.invalidSize size)

def rom (base : UInt16) (cells : Array UInt8) : Except MemoryError Region :=
  if isPowerOfTwo cells.size then .ok ⟨.rom,base,cells⟩ else .error (.invalidSize cells.size)

def size (region : Region) : Nat := region.cells.size

def contains (region : Region) (address : UInt16) : Bool :=
  region.base.toNat ≤ address.toNat && address.toNat < region.base.toNat + region.size

def read (region : Region) (offset : Nat) : Except MemoryError UInt8 :=
  match region.cells[offset]? with
  | some value => .ok value
  | none => .error (.outOfRange offset region.size)

/-- A ROM refuses before its offset is looked at. -/
def write (region : Region) (offset : Nat) (value : UInt8) : Except MemoryError Region :=
  match region.kind with
  | .rom => .error (.readOnly (region.base + UInt16.ofNat offset))
  | .ram =>
    if offset < region.size then
      .ok { region with cells := region.cells.setIfInBounds offset value }
    else .error (.outOfRange offset region.size)

/-- Address and value of every cell that is not zero, addresses unwrapped. -/
def nonZero (region : Region) : List (Nat × UInt8) :=
  (region.cells.toList.zipIdx.filter fun cell => cell.1 != 0).map fun cell =>
    (region.base.toNat + cell.2,cell.1)

end Region

/-- Regions in the order in which an address is looked for. -/
abbrev MemoryMap := List Region

namespace MemoryMap

/-- The first region that contains an address answers for it. -/
def read (regions : MemoryMap) (address : UInt16) : Except MemoryError UInt8 :=
  match regions.find? (·.contains address) with
  | some region => region.read (address.toNat - region.base.toNat)
  | none => .error (.unmapped address)

def write (regions : MemoryMap) (address : UInt16) (value : UInt8) : Except MemoryError MemoryMap :=
  match regions with
  | [] => .error (.unmapped address)
  | region :: rest =>
    if region.contains address then
      (region.write (address.toNat - region.base.toNat) value).map (· :: rest)
    else (write rest address value).map (region :: ·)

end MemoryMap
end Microprogram
