import Microprogram.Instruction.Catalog
import Microprogram.Microcode.BusUse
import Microprogram.Microcode.Completeness
import Microprogram.Microcode.Merging
import Microprogram.Microcode.Sequencing

/-! The passes that a program goes through on its way to a control table. Most only look;
two change the program. The checks of coverage and of the fetch stage stand here. -/
namespace Microprogram

namespace Variant

/-- The leading steps of stage zero. -/
def fetchStage (variant : Variant) : List Step := variant.steps.takeWhile fun step => step.stage = 0

def firstDifference : List Step → List Step → Option Nat
  | [], [] => none
  | a :: rest, b :: others => if a = b then (firstDifference rest others).map (· + 1) else some 0
  | _, _ => some 0

end Variant

namespace Program

/-- A program has a variant for every instruction of the catalog, and for no other. -/
def checkCoverage (catalog : Catalog) (program : Program) : Except Rejection Unit :=
  match program.descriptors.toList.find? fun d => !catalog.contains d with
  | some unknown => .error (.unknownDescriptor unknown.label)
  | none =>
    match catalog.toList.filter fun d => !program.descriptors.contains d with
    | [] => .ok ()
    | missing => .error (.missingInstructions (missing.map Descriptor.label))

/-- The fetch stage is the same in all variants, because it runs before the instruction is
known. All are held against the first one. -/
def checkFetchStage (hw : Registry) (program : Program) : Except Rejection Unit :=
  match program.toList with
  | [] => .ok ()
  | reference :: others => others.forM fun variant =>
    match Variant.firstDifference variant.fetchStage reference.fetchStage with
    | some place => .error (.fetchStageMismatch variant.label (variant.guard.text hw)
        reference.label (reference.guard.text hw) place)
    | none => .ok ()

end Program

structure Compiler where
  hardware : Registry
  catalog : Catalog
  counter : StepCounter

inductive Pass
  | busUse
  | fetchStage
  | coverage
  | addSequencing
  | sequencing
  | completeness
  | merging
deriving DecidableEq, Repr, Inhabited

namespace Pass

def pipeline : List Pass :=
  [busUse,fetchStage,coverage,addSequencing,sequencing,completeness,merging]

/-- The passes that need no sequencing. -/
def structural : List Pass := [busUse,fetchStage,coverage]

def name : Pass → String
  | busUse => "BusValidator"
  | fetchStage => "FetchStageValidator"
  | coverage => "InstructionCoverageValidator"
  | addSequencing => "StepIndexTransformer"
  | sequencing => "StepIndexValidator"
  | completeness => "StatusCompletenessValidator"
  | merging => "StepMerger"

/-- Whether the pass leaves an accepted program as it is. -/
def checksOnly : Pass → Bool
  | addSequencing => false
  | merging => false
  | _ => true

def run (pass : Pass) (compiler : Compiler) (program : Program) : Except Rejection Program :=
  match pass with
  | busUse => (program.checkBusUse compiler.hardware).map fun _ => program
  | fetchStage => (program.checkFetchStage compiler.hardware).map fun _ => program
  | coverage => (program.checkCoverage compiler.catalog).map fun _ => program
  | addSequencing => .ok (program.sequenced compiler.counter)
  | sequencing => (program.checkSequencing compiler.counter).map fun _ => program
  | completeness => (program.checkCompleteness compiler.hardware).map fun _ => program
  | merging => program.merged compiler.hardware compiler.counter

end Pass
end Microprogram
