import Microprogram.Microcode.Rejection

/-! Merging of steps. A step joins the one before it when both are of one stage,
every phase of the earlier one strictly precedes every phase of the later one,
and together they write no bus twice. The step counter's controls take no part in
the comparison of phases; a merged step keeps those of its last step. -/
namespace Microprogram

namespace Step

/-- The earliest and the latest phase of a step, its counter controls aside. -/
def phases (hw : Registry) (counter : StepCounter) :
    List ControlId → Except Rejection (Option (Phase × Phase))
  | [] => .ok none
  | control :: rest =>
    if counter.contains control then phases hw counter rest
    else do
      let phase := (← hw.stepControl control).action.phase
      match ← phases hw counter rest with
      | none => return some (phase,phase)
      | some (first,last) => return some (phase.earlier first,phase.later last)

/-- Whether two of the controls write the same bus; the first such pair decides. -/
def writesTwice (hw : Registry) (written : SortedSet BusId) :
    List ControlId → Except Rejection Bool
  | [] => .ok false
  | control :: rest => do
    match (← hw.stepControl control).action with
    | .write bus =>
      if written.contains bus then return true else writesTwice hw (written.insert bus) rest
    | _ => writesTwice hw written rest

def mergeable (hw : Registry) (counter : StepCounter) (step next : Step) : Except Rejection Bool :=
  if step.stage ≠ next.stage then .ok false
  else do
    let before ← phases hw counter step.controls.toList
    let after ← phases hw counter next.controls.toList
    match before,after with
    | some (_,last),some (first,_) =>
      if first.rank ≤ last.rank then return false
      else return !(← writesTwice hw ∅ (step.controls.union next.controls).toList)
    | _,_ => return true

/-- Both steps in one cycle, with the counter controls of the later one. -/
def merge (counter : StepCounter) (step next : Step) : Step :=
  (step.withoutControl counter.increment).union next

/-- Lets a step absorb those after it as long as it can, then goes on with the next. -/
def absorb (hw : Registry) (counter : StepCounter) (current : Step) :
    List Step → Except Rejection (List Step)
  | [] => .ok [current]
  | next :: rest => do
    if ← mergeable hw counter current next then absorb hw counter (current.merge counter next) rest
    else return current :: (← absorb hw counter next rest)

end Step

namespace Variant

def mergedSteps (hw : Registry) (counter : StepCounter) : List Step → Except Rejection (List Step)
  | [] => .ok []
  | step :: rest => step.absorb hw counter rest

def merged (hw : Registry) (counter : StepCounter) (variant : Variant) : Except Rejection Variant := do
  return { variant with steps := ← mergedSteps hw counter variant.steps }

end Variant

namespace Program

def merged (hw : Registry) (counter : StepCounter) (program : Program) : Except Rejection Program := do
  return .ofList (← program.toList.mapM (Variant.merged hw counter))

end Program
end Microprogram
