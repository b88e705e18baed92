import Microprogram.Part.Basic

/-! Ownership of lines: the parts of a machine together claim every declared
control and status exactly once, and nothing that is not declared. -/
namespace Microprogram

structure Ownership where
  controls : SortedMap ControlId String
  statuses : SortedMap StatusId String
deriving DecidableEq

namespace Ownership

def claimControl (hw : Registry) (owner : String) (owners : Ownership) (control : ControlId) :
    Except StructuralError Ownership :=
  if hw.controls.size ≤ control.index then .error (.undeclaredClaim owner control.num)
  else match owners.controls.get? control with
    | some first => .error (.controlOwnedTwice (hw.controlPath control) first owner)
    | none => .ok { owners with controls := owners.controls.insert control owner }

def claimStatus (hw : Registry) (owner : String) (owners : Ownership) (status : StatusId) :
    Except StructuralError Ownership :=
  if hw.statuses.size ≤ status.index then .error (.undeclaredClaim owner status.num)
  else match owners.statuses.get? status with
    | some first => .error (.statusOwnedTwice (hw.statusPath status) first owner)
    | none => .ok { owners with statuses := owners.statuses.insert status owner }

/-- The controls of a part, then its statuses. -/
def claimPart (hw : Registry) (owners : Ownership) (part : Part) : Except StructuralError Ownership := do
  let owners ← part.controls.foldlM (claimControl hw part.path) owners
  part.statuses.foldlM (claimStatus hw part.path) owners

end Ownership

/-- Claims in order first, then the lowest control without an owner, then the lowest status. -/
def verifyTopology (hw : Registry) (parts : List Part) : Except StructuralError Unit := do
  let owners ← parts.foldlM (Ownership.claimPart hw) ⟨∅,∅⟩
  match (hw.idents .control).find? fun control => (owners.controls.get? control).isNone with
  | some control => .error (.unownedControl (hw.controlPath control))
  | none =>
    match (hw.idents .status).find? fun status => (owners.statuses.get? status).isNone with
    | some status => .error (.unownedStatus (hw.statusPath status))
    | none => .ok ()

end Microprogram
