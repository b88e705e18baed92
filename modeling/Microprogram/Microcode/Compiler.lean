import Microprogram.ControlTable.Basic
import Microprogram.Microcode.Draft
import Microprogram.Microcode.Pass

/-! Compilation: drafts become a program, the program goes through the passes, and
what they leave becomes a control table. The first failure ends it. -/
namespace Microprogram

inductive CompileError
  | rejected (pass : Pass) (rejection : Rejection)
  | structural (error : StructuralError)
  | table (error : TableError)
deriving DecidableEq

def CompileError.message : CompileError → String
  | rejected pass rejection => s!"{pass.name} failed: {rejection.message}"
  | structural error => s!"Structural error: {error.message}"
  | table error => error.message

namespace Compiler

def runPasses (compiler : Compiler) (passes : List Pass) (program : Program) :
    Except CompileError Program :=
  passes.foldlM (fun program pass => (pass.run compiler program).mapError (.rejected pass)) program

def program (compiler : Compiler) (drafts : List Draft) : Except CompileError Program :=
  (Program.ofDrafts compiler.hardware drafts).mapError .structural

def compileProgram (compiler : Compiler) (drafts : List Draft) : Except CompileError Program := do
  compiler.runPasses Pass.pipeline (← compiler.program drafts)

def lower (program : Program) : Except CompileError ControlTable :=
  (ControlTable.lower program).mapError .table

def compile (compiler : Compiler) (drafts : List Draft) : Except CompileError ControlTable := do
  lower (← compiler.compileProgram drafts)

def validate (compiler : Compiler) (drafts : List Draft) : Except Rejection Unit := do
  let program ← (Program.ofDrafts compiler.hardware drafts).mapError .structural
  let _ ← Pass.structural.foldlM (fun program pass => pass.run compiler program) program

end Compiler
end Microprogram
