import Microprogram.Sorted.Map
import Microprogram.Sorted.Set
import Microprogram.StructuralError

/-! The catalog of instructions a processor knows, unique by opcode and by
mnemonic with mode. -/
namespace Microprogram

structure Catalog where
  descriptors : SortedSet Descriptor
  /-- The descriptors once more, each under its opcode. -/
  opcodes : SortedMap UInt8 Descriptor
deriving DecidableEq

namespace Catalog

instance : Inhabited Catalog := ⟨⟨∅,∅⟩⟩

/-- In ascending order of opcodes. -/
def toList (catalog : Catalog) : List Descriptor := catalog.descriptors.toList

def get? (catalog : Catalog) (name : String) (mode : Mode) : Option Descriptor :=
  catalog.toList.find? fun d => d.name = name && d.mode = mode

def byOpcode? (catalog : Catalog) (opcode : UInt8) : Option Descriptor :=
  catalog.opcodes.get? opcode

def contains (catalog : Catalog) (d : Descriptor) : Bool := catalog.descriptors.contains d

def require (catalog : Catalog) (name : String) (mode : Mode) : Except StructuralError Descriptor :=
  match catalog.get? name mode with
  | some d => .ok d
  | none => .error (.descriptorNotFound name mode)

/-- Adds a descriptor; a clash of name and mode is reported before one of opcodes. -/
def add (catalog : Catalog) (d : Descriptor) : Except StructuralError Catalog :=
  if (catalog.get? d.name d.mode).isSome then .error (.duplicateDescriptor d.name d.mode)
  else match catalog.byOpcode? d.opcode with
    | some first => .error (.duplicateOpcode d.opcode first.label d.label)
    | none => .ok ⟨catalog.descriptors.insert d,catalog.opcodes.insert d.opcode d⟩

def ofList (descriptors : List Descriptor) : Except StructuralError Catalog :=
  descriptors.foldlM add default

end Catalog
end Microprogram
