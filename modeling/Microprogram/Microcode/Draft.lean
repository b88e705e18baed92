import Microprogram.Hardware.Units
import Microprogram.Microcode.Program

/-! Drafts of variants. A draft is made by a list of edits and checked only when
it is turned into a variant: its numbers have to be declared, and its statuses
may not contradict each other. -/
namespace Microprogram

inductive Edit
  | step (controls : List ControlId) (buses : List BusId)
  | gate (status : StatusId) (value : Bool)
  | nextStage
deriving DecidableEq, Repr

namespace Edit

def raise (control : ControlId) : Edit := step [control] []

def copy (src dst : Tap) : Edit := step [src.write,dst.read] [src.bus,dst.bus]

end Edit

structure Draft where
  descriptor : Descriptor
  steps : List Step
  guard : Guard
  conflicts : List (StatusId × Bool)
  stage : UInt8
deriving DecidableEq

namespace Draft

def start (descriptor : Descriptor) : Draft := ⟨descriptor,[],∅,[],0⟩

/-- The stage after the given one; the last stage has none after it. -/
def stageAfter (stage : UInt8) : UInt8 := if stage = 255 then 255 else stage + 1

def edit (draft : Draft) : Edit → Draft
  | .step controls buses =>
    { draft with steps := draft.steps ++ [Step.ofLists draft.stage controls buses] }
  | .gate status value =>
    match draft.guard.get? status with
    | some existing =>
      if existing = value then draft
      else { draft with conflicts := draft.conflicts ++ [(status,value)] }
    | none => { draft with guard := draft.guard.insert status value }
  | .nextStage => { draft with stage := stageAfter draft.stage }

def edits (draft : Draft) (changes : List Edit) : Draft := changes.foldl edit draft

def ofEdits (descriptor : Descriptor) (changes : List Edit) : Draft := (start descriptor).edits changes

/-- A contradiction comes first, then statuses, then each step's controls and buses. -/
def check (draft : Draft) (hw : Registry) : Except StructuralError Unit := do
  if let some (status,requested) := draft.conflicts.head? then
    .error (.conflictingStatus draft.descriptor.label (hw.statusPath status) (!requested) requested)
  draft.guard.keys.forM fun status => (hw.status status).map fun _ => ()
  draft.steps.forM fun step => do
    step.controls.toList.forM fun control => (hw.control control).map fun _ => ()
    step.buses.toList.forM fun bus => (hw.bus bus).map fun _ => ()

def variant (draft : Draft) : Variant := ⟨draft.descriptor,draft.guard,draft.steps⟩

end Draft

namespace Program

/-- Adds a draft; the same variant may not be declared twice. -/
def addDraft (hw : Registry) (program : Program) (draft : Draft) : Except StructuralError Program := do
  draft.check hw
  if program.contains draft.variant then
    .error (.duplicateVariant draft.descriptor.label (draft.guard.text hw))
  return program.insert draft.variant

def ofDrafts (hw : Registry) (drafts : List Draft) : Except StructuralError Program :=
  drafts.foldlM (addDraft hw) ∅

end Program
end Microprogram
