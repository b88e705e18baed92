import Microprogram.Microcode.Program

/-! Counts over a program: instructions, variants, steps, and control assertions in
all and for each phase. -/
namespace Microprogram

structure Summary where
  instructions : Nat
  variants : Nat
  steps : Nat
  assertions : Nat
  perPhase : List (Phase × Nat)
deriving DecidableEq, Repr

namespace Summary

def phasesOf (hw : Registry) (program : Program) : Except StructuralError (List Phase) := do
  let controls := program.toList.flatMap fun variant =>
    variant.steps.flatMap fun step => step.controls.toList
  controls.mapM fun control => return (← hw.control control).action.phase

def ofProgram (hw : Registry) (program : Program) : Except StructuralError Summary := do
  let phases ← phasesOf hw program
  return {
    instructions := program.descriptors.size
    variants := program.size
    steps := program.stepCount
    assertions := phases.length
    perPhase := Phase.all.map fun phase => (phase,phases.count phase) }

def text (summary : Summary) : String :=
  s!"instructions: {summary.instructions}\nvariants:     {summary.variants}\n" ++
  s!"steps:        {summary.steps}\nassertions:   {summary.assertions}\n" ++
  String.join (summary.perPhase.map fun (phase,count) =>
    s!"  {Text.padRight 8 phase.name} {count}\n")

def savedFraction (before after : Nat) : Float :=
  if before = 0 then 0.0 else (before - after).toUInt64.toFloat / before.toUInt64.toFloat

def stepReduction (before after : Summary) : Float := savedFraction before.steps after.steps

end Summary
end Microprogram
