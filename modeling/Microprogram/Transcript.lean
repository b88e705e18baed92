import Microprogram.Computer.Assembly

/-! The transcript of compiling and running: a line for each pass, each variant that
merging shortened, each cycle and each ALU operation. It tells what the functions
it follows do, and changes nothing in them. -/
namespace Microprogram.Transcript

inductive Note
  | passed (pass : Pass) (variants steps : Nat)
  | merged (before after : Nat) (label : String)
  | lowered (entries : Nat)
  | cycle (number : Nat) (asserted : List String)
  | operation (op : Alu.Op) (lhs rhs value : UInt8)
  | halted (number : Nat)
deriving DecidableEq, Repr

/-- Merging, cycles and operations are told at a finer level than the rest. -/
def Note.line : Note → String
  | passed pass variants steps => s!"DEBUG {pass.name}: {variants} variants, {steps} steps"
  | merged before after label => s!"TRACE Merged {before} into {after} steps: {label}"
  | lowered entries => s!"DEBUG Lowered {entries} table entries"
  | cycle number asserted => s!"TRACE cycle {number}: " ++ Text.joined " " asserted
  | operation op lhs rhs value =>
    s!"TRACE {op.name} {Text.hex 2 lhs.toNat} {Text.hex 2 rhs.toNat} -> {Text.hex 2 value.toNat}"
  | halted number => s!"DEBUG Halted after {number} cycles"

/-- The variants that merging shortens, up to one that it refuses. -/
def merges (compiler : Compiler) : List Variant → List Note
  | [] => []
  | variant :: rest =>
    match variant.merged compiler.hardware compiler.counter with
    | .error _ => []
    | .ok short =>
      let told := merges compiler rest
      if short.steps.length < variant.steps.length then
        .merged variant.steps.length short.steps.length variant.label :: told
      else told

/-- The passes that a program goes through, up to one that refuses it. -/
def passes (compiler : Compiler) : List Pass → Program → List Note
  | [], _ => []
  | pass :: rest, program =>
    let told := if pass = .merging then merges compiler program.toList else []
    match pass.run compiler program with
    | .error _ => told
    | .ok next => told ++ .passed pass next.size next.stepCount :: passes compiler rest next

def compileProgram (compiler : Compiler) (drafts : List Draft) : List Note :=
  match compiler.program drafts with
  | .error _ => []
  | .ok program => passes compiler Pass.pipeline program

def compile (compiler : Compiler) (drafts : List Draft) : List Note :=
  compileProgram compiler drafts ++ match compiler.compile drafts with
    | .ok table => [.lowered table.size]
    | .error _ => []

def operation? (signals : Signals) : Part → Option Note
  | .alu a =>
    let a := a.count signals.asserted
    match a.selected signals.asserted with
    | [op] => some (.operation op a.lhs.value a.rhs.value (a.compute op signals.statuses).value)
    | _ => none
  | _ => none

def operations (hw : Registry) (cycle : Nat) : List Part → Signals → List Note
  | [], _ => []
  | part :: rest, signals =>
    if part.participates .process then
      (operation? signals part).toList ++
        match part.react hw .process cycle signals with
        | .done (_,next) => operations hw cycle rest next
        | .stopped _ _ => []
    else operations hw cycle rest signals

def tick (m : Machine) : List Note :=
  let hw := m.hardware
  let saved := m.parts.map fun part => part.checkpoint.1
  match Machine.runPhase hw m.cycle .control (saved,m.signals) with
  | .stopped _ _ => []
  | .done state =>
    .cycle m.cycle (state.2.asserted.toList.map hw.controlPath) ::
      match Outcome.each (Machine.runPhase hw m.cycle) [.write,.read] state with
      | .stopped _ _ => []
      | .done (parts,signals) => operations hw m.cycle parts signals

def ticks : Nat → Machine → List Note
  | 0, _ => []
  | n + 1, m =>
    tick m ++ match m.tick with
      | .done next => ticks n next
      | .stopped _ _ => []

def runFor : Nat → Machine → List Note
  | 0, m => if m.isHalted then [.halted m.cycle] else []
  | n + 1, m =>
    if m.isHalted then [.halted m.cycle]
    else tick m ++ match m.tick with
      | .done next => runFor n next
      | .stopped _ _ => []

def runUntilHalt (m : Machine) : List Note := runFor (m.config.maxCycles - m.cycle) m

end Microprogram.Transcript
