import Microprogram.Machine.Topology

/-! A machine: parts in order, the lines they share, and a count of cycles. A cycle
runs all phases; one that fails leaves the machine as it was before it. -/
namespace Microprogram

structure Machine where
  hardware : Registry
  parts : List Part
  signals : Signals
  config : Config
  halted : StatusId
  cycle : Nat

namespace Machine

/-- The parts have to own every declared line exactly once. -/
def assemble (hw : Registry) (parts : List Part) (config : Config) (halted : StatusId) :
    Except Fault Machine := do
  config.validate.mapError .invalidConfig
  let _ ← (hw.status halted).mapError .structural
  (verifyTopology hw parts).mapError .structural
  return ⟨hw,parts,Signals.initial,config,halted,0⟩

def isHalted (m : Machine) : Bool := m.signals.statuses.contains m.halted

/-- One phase: all parts act, then the staged status writes take effect. -/
def runPhase (hw : Registry) (cycle : Nat) (phase : Phase) (state : List Part × Signals) :
    Outcome (List Part × Signals) :=
  (Part.reactAll hw phase cycle state.1 state.2).map fun (parts,signals) => (parts,signals.commit)

def runPhases (hw : Registry) (cycle : Nat) (state : List Part × Signals) :
    Outcome (List Part × Signals) :=
  Outcome.each (runPhase hw cycle) Phase.all state

def tick (m : Machine) : Outcome Machine :=
  let saved := m.parts.map Part.checkpoint
  match runPhases m.hardware m.cycle (saved.map Prod.fst,m.signals) with
  | .done (parts,signals) =>
    .done { m with
      parts := parts.map Part.commit
      signals := signals.rest m.hardware
      cycle := m.cycle + 1 }
  | .stopped fault (parts,_) =>
    .stopped fault { m with parts := parts.zipWith Part.restore (saved.map Prod.snd) }

def tickMany : Nat → Nat → Machine → Nat × Outcome Machine
  | 0, count, m => (count,.done m)
  | n + 1, count, m =>
    match m.tick with
    | .done next => tickMany n (count + 1) next
    | .stopped fault next => (count,.stopped fault next)

def runFor : Nat → Machine → Outcome Machine
  | 0, m => if m.isHalted then .done m else .stopped (.cycleLimitExceeded m.config.maxCycles) m
  | n + 1, m =>
    if m.isHalted then .done m
    else match m.tick with
      | .done next => runFor n next
      | .stopped fault next => .stopped fault next

/-- Runs until the machine has halted or its cycle limit is reached. -/
def runUntilHalt (m : Machine) : Outcome Machine := m.runFor (m.config.maxCycles - m.cycle)

def partAt? (m : Machine) (path : String) : Option Part := m.parts.find? fun part => part.path = path

end Machine
end Microprogram
