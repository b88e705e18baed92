import Microprogram.Part.Basic

/-! A bench: parts and the lines they share, driven by hand. Unlike a machine it
clears and undoes nothing by itself, and a fault leaves what was done before it. -/
namespace Microprogram

structure Bench where
  hardware : Registry
  parts : List Part
  signals : Signals
  cycle : Nat
  /-- What the last checkpoint saved, until it is used. -/
  saved : List Part.Checkpoint

namespace Bench

/-- Parts with every line at rest. -/
def ofParts (hw : Registry) (parts : List Part) : Bench := ⟨hw,parts,Signals.initial,0,[]⟩

def setControl (bench : Bench) (control : ControlId) (on : Bool) : Except Fault Bench := do
  let asserted ← bench.hardware.setControl control on bench.signals.asserted
  return { bench with signals := { bench.signals with asserted } }

def stage (bench : Bench) (status : StatusId) (value : Bool) : Except Fault Bench := do
  let staged ← bench.hardware.stage (status,value) bench.signals.staged
  return { bench with signals := { bench.signals with staged } }

def drive (bench : Bench) (bus : BusId) (value : UInt16) (setter : String) : Except Fault Bench := do
  let driven ← bench.hardware.drive bus value setter bench.signals.driven
  return { bench with signals := { bench.signals with driven } }

def commitStatuses (bench : Bench) : Bench := { bench with signals := bench.signals.commit }

def clearBuses (bench : Bench) : Bench :=
  { bench with signals := { bench.signals with driven := ∅ } }

def clearControls (bench : Bench) : Bench :=
  { bench with signals :=
    { bench.signals with asserted := bench.hardware.held bench.signals.asserted } }

/-- The parts of a phase act in order. Whether or not one fails, what was staged takes effect. -/
def runPhase (bench : Bench) (phase : Phase) : Outcome Bench :=
  (Part.reactAll bench.hardware phase bench.cycle bench.parts bench.signals).map
    fun (parts,signals) => { bench with parts, signals := signals.commit }

/-- One part acts, whether or not the phase is one of its own. -/
def react (bench : Bench) (place : Nat) (part : Part) (phase : Phase) : Outcome Bench :=
  (part.react bench.hardware phase bench.cycle bench.signals).map
    fun (part,signals) => { bench with parts := bench.parts.set place part, signals }

def checkpoint (bench : Bench) : Bench :=
  let saved := bench.parts.map Part.checkpoint
  { bench with parts := saved.map Prod.fst, saved := saved.map Prod.snd }

/-- Parts beyond those that were saved stay as they are. -/
def restoreAll : List Part → List Part.Checkpoint → List Part
  | part :: parts, saved :: rest => part.restore saved :: restoreAll parts rest
  | parts, _ => parts

/-- Goes back to the last checkpoint, which serves once. -/
def rollback (bench : Bench) : Bench :=
  { bench with parts := restoreAll bench.parts bench.saved, saved := [] }

def commitParts (bench : Bench) : Bench := { bench with parts := bench.parts.map Part.commit }

def copy (bench : Bench) (place : Nat) : Bench :=
  { bench with parts := bench.parts ++ bench.parts[place]?.toList }

end Bench
end Microprogram
