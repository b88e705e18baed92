import Microprogram.Part.Register

/-! A memory behind an address register. Reads and writes of a cycle use the
address held when it began. Writes are kept in a journal, newest first, so that a
failed cycle can be undone without a copy of the cells. -/
namespace Microprogram

structure Memory where
  path : String
  tap : Tap
  address : WordRegister
  regions : MemoryMap
  savedAddress : UInt16
  /-- Addresses written since the checkpoint, with the values that stood there. -/
  journal : List (UInt16 × UInt8)
deriving DecidableEq, Repr

namespace Memory

def ofLines (lines : MemoryLines) (regions : MemoryMap) : Memory :=
  ⟨lines.path,lines.tap,⟨lines.address,none,0⟩,regions,0,[]⟩

def controls (m : Memory) : List ControlId := [m.tap.write,m.tap.read] ++ m.address.controls

def withAddress (m : Memory) (address : UInt16) : Memory :=
  { m with address := { m.address with value := address } }

def read (m : Memory) (address : UInt16) : Except MemoryError UInt8 :=
  MemoryMap.read m.regions address

def write (m : Memory) (address : UInt16) (value : UInt8) : Except MemoryError Memory :=
  (MemoryMap.write m.regions address value).map fun regions => { m with regions }

/-- Puts the addressed cell on the bus, then whatever the address register puts there. -/
def drive (m : Memory) (hw : Registry) (asserted : Asserted) (driven : Driven) : Outcome Driven :=
  let cell : Outcome Driven :=
    if asserted.contains m.tap.write then
      match m.read m.address.value with
      | .error error => .stopped (.memory error) driven
      | .ok value => .attempt driven (hw.drive m.tap.bus value.toUInt16 m.path driven)
    else .done driven
  cell.andThen (m.address.drive hw asserted)

/-- Stores a byte at the address held, and notes what it replaced. -/
def store (m : Memory) (value : UInt8) : Outcome Memory :=
  let address := m.address.value
  match m.read address with
  | .error error => .stopped (.memory error) m
  | .ok previous =>
    match m.write address value with
    | .error error => .stopped (.memory error) m
    | .ok m => .done { m with journal := (address,previous) :: m.journal }

/-- Stores before the address register takes a new address. -/
def load (m : Memory) (hw : Registry) (asserted : Asserted) (driven : Driven) : Outcome Memory :=
  let stored : Outcome Memory :=
    if asserted.contains m.tap.read then
      match hw.sense m.tap.bus m.path driven with
      | .error fault => .stopped fault m
      | .ok value => m.store value.toUInt8
    else .done m
  stored.andThen fun m => (m.address.load hw asserted driven).map fun address => { m with address }

def count (m : Memory) (asserted : Asserted) : Memory :=
  { m with address := m.address.count asserted }

def checkpoint (m : Memory) : Memory := { m with savedAddress := m.address.value, journal := [] }

/-- Puts back what writes replaced, from the newest on. -/
def undo (regions : MemoryMap) : List (UInt16 × UInt8) → MemoryMap
  | [] => regions
  | (address,previous) :: rest =>
    match MemoryMap.write regions address previous with
    | .ok regions => undo regions rest
    | .error _ => undo regions rest

def rollback (m : Memory) : Memory :=
  { m with
    regions := undo m.regions m.journal
    journal := []
    address := { m.address with value := m.savedAddress } }

def commit (m : Memory) : Memory := { m with journal := [] }

def nonZero (m : Memory) : List (Nat × UInt8) :=
  (m.regions.filter fun region => region.kind = .ram).flatMap Region.nonZero

end Memory
end Microprogram
