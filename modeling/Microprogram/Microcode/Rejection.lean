import Microprogram.Microcode.Program

/-! Why a program of microcode is refused. Instructions are named by mnemonic and
mode, lines and buses by their paths, steps by their place in the variant. -/
namespace Microprogram

inductive Rejection
  | busNotWritten (descriptor : String) (step : Nat) (bus : String)
  | busMultipleWriters (descriptor : String) (step : Nat) (bus : String) (writers : List String)
  | busNotRead (descriptor : String) (step : Nat) (bus : String)
  | fetchStageMismatch (descriptor guard reference referenceGuard : String) (step : Nat)
  | missingInstructions (missing : List String)
  | unknownDescriptor (descriptor : String)
  | emptyInstruction (descriptor : String)
  | missingStepIncrement (descriptor : String) (step : Nat)
  | unexpectedStepReset (descriptor : String) (step : Nat)
  | missingStepReset (descriptor : String) (step : Nat)
  | unexpectedStepIncrement (descriptor : String) (step : Nat)
  | incompleteStatus (descriptor status : String) (missing : Bool) (guard : String)
  | ambiguousVariants (descriptor first second : String)
  | structural (error : StructuralError)
deriving DecidableEq, Repr

namespace Rejection
open Text

def message : Rejection → String
  | busNotWritten descriptor step bus =>
    s!"Bus {bus} is read but not written in {descriptor} step {step}"
  | busMultipleWriters descriptor step bus writers =>
    s!"Bus {bus} is written by multiple controls in {descriptor} step {step}: " ++ joined ", " writers
  | busNotRead descriptor step bus =>
    s!"Bus {bus} is written but not read in {descriptor} step {step}"
  | fetchStageMismatch descriptor guard reference referenceGuard step =>
    s!"Fetch stage of {descriptor} under {guard} differs from {reference} under {referenceGuard} at step {step}"
  | missingInstructions missing => "Missing instructions for descriptors: " ++ joined ", " missing
  | unknownDescriptor descriptor => s!"Instruction {descriptor} is not in the catalog"
  | emptyInstruction descriptor => s!"Instruction {descriptor} has no steps"
  | missingStepIncrement descriptor step =>
    s!"Step {step} of {descriptor} does not increment the step index"
  | unexpectedStepReset descriptor step =>
    s!"Step {step} of {descriptor} resets the step index before the final step"
  | missingStepReset descriptor step =>
    s!"Final step {step} of {descriptor} does not reset the step index"
  | unexpectedStepIncrement descriptor step =>
    s!"Final step {step} of {descriptor} increments the step index"
  | incompleteStatus descriptor status missing guard =>
    s!"Instruction {descriptor} has incomplete status {status}: no variant with {status}={missing} under {guard}"
  | ambiguousVariants descriptor first second =>
    s!"Instruction {descriptor} has ambiguous variants: {first} and {second}"
  | structural error => error.message

end Rejection

namespace Registry

def stepControl (hw : Registry) (control : ControlId) : Except Rejection ControlDecl :=
  (hw.control control).mapError .structural

end Registry
end Microprogram
