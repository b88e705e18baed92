import Microprogram.Microcode.Rejection

/-! The step counter in a variant: every step but the last increments it, and the
last resets it. One function adds these controls, the other checks for them. -/
namespace Microprogram

namespace Variant

/-- Increments after every step but the last, which resets. -/
def sequencedSteps (counter : StepCounter) : List Step → List Step
  | [] => []
  | [last] => [last.withControl counter.reset]
  | step :: rest => step.withControl counter.increment :: sequencedSteps counter rest

def sequenced (counter : StepCounter) (variant : Variant) : Variant :=
  { variant with steps := sequencedSteps counter variant.steps }

/-- Looks at the steps from the given place on. -/
def checkSteps (counter : StepCounter) (label : String) (place : Nat) :
    List Step → Except Rejection Unit
  | [] => .error (.emptyInstruction label)
  | [last] =>
    if !last.contains counter.reset then .error (.missingStepReset label place)
    else if last.contains counter.increment then .error (.unexpectedStepIncrement label place)
    else .ok ()
  | step :: rest =>
    if !step.contains counter.increment then .error (.missingStepIncrement label place)
    else if step.contains counter.reset then .error (.unexpectedStepReset label place)
    else checkSteps counter label (place + 1) rest

end Variant

namespace Program

def sequenced (counter : StepCounter) (program : Program) : Program :=
  .ofList (program.toList.map (Variant.sequenced counter))

def checkSequencing (counter : StepCounter) (program : Program) : Except Rejection Unit :=
  program.toList.forM fun variant => Variant.checkSteps counter variant.label 0 variant.steps

end Program
end Microprogram
