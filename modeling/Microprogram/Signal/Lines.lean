import Microprogram.Hardware.Registry
import Microprogram.Machine.Fault
import Microprogram.Sorted.Map
import Microprogram.Sorted.Set

/-! The lines shared by the parts of a machine: asserted controls, status values
with writes staged until the end of a phase, and driven buses. -/
namespace Microprogram

/-- A value on a bus and the path of the part that put it there. -/
structure Drive where
  value : UInt16
  setter : String
deriving DecidableEq, Repr

abbrev Asserted := SortedSet ControlId

abbrev Driven := SortedMap BusId Drive

/-- Status writes in the order in which they were made. -/
abbrev Staged := List (StatusId × Bool)

namespace BusDecl

/-- A byte bus keeps the low byte of a value. -/
def fit (bus : BusDecl) (value : UInt16) : UInt16 :=
  match bus.width with
  | .byte => value &&& 0xff
  | .word => value

/-- One setter drives a bus at a time, and may replace its own value. -/
def arbitrate (bus : BusDecl) (held : Option Drive) (value : UInt16) (setter : String) :
    Except Fault Drive :=
  match held with
  | some drive =>
    if drive.setter = setter then .ok ⟨bus.fit value,setter⟩
    else .error (.busConflict bus.path drive.setter setter)
  | none => .ok ⟨bus.fit value,setter⟩

end BusDecl

namespace Registry

def findBus (hw : Registry) (bus : BusId) : Except Fault BusDecl :=
  (hw.bus bus).mapError .structural

def busAt (hw : Registry) (bus : BusId) (driven : Driven) : Except Fault (BusDecl × Option Drive) := do
  return (← hw.findBus bus,driven.get? bus)

def drive (hw : Registry) (bus : BusId) (value : UInt16) (setter : String) (driven : Driven) :
    Except Fault Driven := do
  let (decl,held) ← hw.busAt bus driven
  return driven.insert bus (← decl.arbitrate held value setter)

/-- The value on a bus; a bus that carries none is open. -/
def sense (hw : Registry) (bus : BusId) (reader : String) (driven : Driven) : Except Fault UInt16 := do
  match ← hw.busAt bus driven with
  | (_,some drive) => return drive.value
  | (decl,none) => .error (.openBus decl.path reader)

def setControl (hw : Registry) (control : ControlId) (on : Bool) (asserted : Asserted) :
    Except Fault Asserted :=
  if control.index < hw.controls.size then
    .ok (if on then asserted.insert control else asserted.erase control)
  else .error (.structural (.unknown .control control.num))

def stage (hw : Registry) (write : StatusId × Bool) (staged : Staged) : Except Fault Staged :=
  if write.1.index < hw.statuses.size then .ok (staged ++ [write])
  else .error (.structural (.unknown .status write.1.num))

def stageAll (hw : Registry) (writes : List (StatusId × Bool)) (staged : Staged) : Outcome Staged :=
  Outcome.each (fun write staged => .attempt staged (hw.stage write staged)) writes staged

def assertAll (hw : Registry) (controls : List ControlId) (asserted : Asserted) : Outcome Asserted :=
  Outcome.each (fun control asserted => .attempt asserted (hw.setControl control true asserted))
    controls asserted

/-- Asserted lines that stay so after the end of a cycle. -/
def held (hw : Registry) (asserted : Asserted) : Asserted :=
  asserted.filter fun control => !(hw.control? control).any (·.autoClear)

end Registry

structure Signals where
  asserted : Asserted
  statuses : SortedSet StatusId
  staged : Staged
  driven : Driven
deriving DecidableEq

namespace Signals

def initial : Signals := ⟨∅,∅,[],∅⟩

instance : Inhabited Signals := ⟨initial⟩

/-- Staged writes take effect in the order they were made. -/
def commit (signals : Signals) : Signals :=
  { signals with
    statuses := signals.staged.foldl
      (fun statuses write => if write.2 then statuses.insert write.1 else statuses.erase write.1)
      signals.statuses
    staged := [] }

/-- The end of a cycle: buses fall open and auto-clearing controls drop. -/
def rest (signals : Signals) (hw : Registry) : Signals :=
  { signals with driven := ∅, asserted := hw.held signals.asserted }

end Signals
end Microprogram
