import Microprogram.Hardware.Ident
import Microprogram.Instruction.Descriptor
import Microprogram.Text.Format

/-! What can be wrong with declarations: of hardware, of instructions, of the
variants of an instruction, and of the ownership of lines by a machine's parts. -/
namespace Microprogram

inductive StructuralError
  | duplicatePath (path : String)
  | unknown (kind : Kind) (num : UInt16)
  | unknownPath (path : String)
  | tooManyDeclarations (kind : Kind)
  | duplicateDescriptor (name : String) (mode : Mode)
  | duplicateOpcode (opcode : UInt8) (first second : String)
  | descriptorNotFound (name : String) (mode : Mode)
  | conflictingStatus (descriptor status : String) (existing requested : Bool)
  | duplicateVariant (descriptor statuses : String)
  | unownedControl (path : String)
  | controlOwnedTwice (path first second : String)
  | unownedStatus (path : String)
  | statusOwnedTwice (path first second : String)
  | undeclaredClaim (component : String) (num : UInt16)
deriving DecidableEq, Repr

namespace StructuralError

def message : StructuralError → String
  | duplicatePath path => s!"Duplicate declaration path: {path}"
  | unknown kind num => s!"Unknown {kind.name} id: {num.toNat}"
  | unknownPath path => s!"No declaration at path: {path}"
  | tooManyDeclarations kind => s!"Too many {kind.name} declarations: ids are limited to 65535"
  | duplicateDescriptor name mode => s!"Duplicate descriptor: {name} ({mode.name})"
  | duplicateOpcode opcode first second =>
    s!"Duplicate opcode {Text.hex 2 opcode.toNat}: {first} and {second}"
  | descriptorNotFound name mode => s!"Descriptor not found: {name} ({mode.name})"
  | conflictingStatus descriptor status existing requested =>
    s!"Conflicting status {status} in {descriptor}: already {existing}, requested {requested}"
  | duplicateVariant descriptor statuses =>
    s!"Instruction {descriptor} declares the same variant twice under {statuses}"
  | unownedControl path => s!"Control {path} is not owned by any component"
  | controlOwnedTwice path first second => s!"Control {path} is owned by both {first} and {second}"
  | unownedStatus path => s!"Status {path} is not owned by any component"
  | statusOwnedTwice path first second => s!"Status {path} is owned by both {first} and {second}"
  | undeclaredClaim component num => s!"Component {component} claims undeclared id {num.toNat}"

end StructuralError
end Microprogram
