import Microprogram.Microcode.Rejection

/-! The check of bus use: in every step, each bus that is annotated, written or
read has exactly one writer and at least one reader. -/
namespace Microprogram.Step

def written? (hw : Registry) (control : ControlId) : Option BusId :=
  match (hw.control? control).map ControlDecl.action with
  | some (.write bus) => some bus
  | _ => none

def readFrom? (hw : Registry) (control : ControlId) : Option BusId :=
  match (hw.control? control).map ControlDecl.action with
  | some (.read bus) => some bus
  | _ => none

def writers (hw : Registry) (step : Step) (bus : BusId) : List ControlId :=
  step.controls.toList.filter fun control => written? hw control = some bus

def readers (hw : Registry) (step : Step) (bus : BusId) : List ControlId :=
  step.controls.toList.filter fun control => readFrom? hw control = some bus

/-- The buses that a step annotates, writes or reads. -/
def touched (hw : Registry) (step : Step) : SortedSet BusId :=
  (step.buses.insertAll (step.controls.toList.filterMap (written? hw))).insertAll
    (step.controls.toList.filterMap (readFrom? hw))

def checkBus (hw : Registry) (label : String) (place : Nat) (step : Step) (bus : BusId) :
    Except Rejection Unit :=
  match step.writers hw bus with
  | [] => .error (.busNotWritten label place (hw.busPath bus))
  | [_] =>
    if step.readers hw bus = [] then .error (.busNotRead label place (hw.busPath bus)) else .ok ()
  | writers => .error (.busMultipleWriters label place (hw.busPath bus) (writers.map hw.controlPath))

/-- Undeclared controls come first, then the buses in ascending order. -/
def checkBuses (hw : Registry) (label : String) (place : Nat) (step : Step) : Except Rejection Unit := do
  step.controls.toList.forM fun control => (hw.stepControl control).map fun _ => ()
  (step.touched hw).toList.forM (checkBus hw label place step)

end Microprogram.Step

namespace Microprogram.Program

def checkBusUse (hw : Registry) (program : Program) : Except Rejection Unit :=
  program.toList.forM fun variant => variant.steps.zipIdx.forM fun (step,place) =>
    step.checkBuses hw variant.label place

end Microprogram.Program
