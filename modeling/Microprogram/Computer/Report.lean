import Microprogram.Computer.Microcode
import Microprogram.ControlTable.Encoding
import Microprogram.Microcode.Summary
import Microprogram.Text.Format

/-! The report on the microcode of the computer: the counts before and after
compilation, and what they come down to. -/
namespace Microprogram.Computer

structure Report where
  hardware : Registry
  before : Summary
  after : Summary
  table : ControlTable

namespace Report

def build : Except CompileError Report := do
  let design ← Design.build.mapError .structural
  let hw := design.layout.hardware
  let program ← design.compiler.program design.drafts
  let before ← (Summary.ofProgram hw program).mapError .structural
  let compiled ← design.compiler.compileProgram design.drafts
  let after ← (Summary.ofProgram hw compiled).mapError .structural
  return ⟨hw,before,after,← Compiler.lower compiled⟩

/-- The percentage of steps saved has one decimal place. -/
def counts (report : Report) : String :=
  let saved := Text.Decimal.fixed 1 (report.before.stepReduction report.after * 100.0)
  s!"Before optimization:\n{report.before.text}\nAfter optimization:\n{report.after.text}\n" ++
  s!"Step reduction: {saved}%, {report.table.size} table entries\n"

def dump (report : Report) : String := report.table.listing report.hardware

def fingerprint (report : Report) : String := s!"Fingerprint: {report.table.fingerprint}\n"

end Report
end Microprogram.Computer
