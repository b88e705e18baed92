import Microprogram.ControlTable.Basic
import Microprogram.Part.Register

/-! The two controllers of a machine. One finds the controls of each cycle in a
control table, by its opcode register, its step counter and the statuses; the
other asserts a given list of control sets, one in each cycle. -/
namespace Microprogram

structure Controller where
  path : String
  opcode : Register
  counter : StepCounter
  table : ControlTable
  step : UInt8
deriving DecidableEq

namespace Controller

def ofLines (lines : ControllerLines) (table : ControlTable) : Controller :=
  ⟨lines.path,⟨lines.opcode,0⟩,lines.counter,table,0⟩

def controls (c : Controller) : List ControlId :=
  c.opcode.controls ++ [c.counter.increment,c.counter.reset]

def choose (c : Controller) (statuses : SortedSet StatusId) : Except Fault ControlSet :=
  match c.table.lookup c.opcode.value c.step statuses.contains with
  | some entry => .ok entry.controls
  | none => .error (.missingEntry c.opcode.value c.step)

def select (c : Controller) (hw : Registry) (statuses : SortedSet StatusId) (asserted : Asserted) :
    Outcome Asserted :=
  match c.choose statuses with
  | .error fault => .stopped fault asserted
  | .ok controls => hw.assertAll controls.toList asserted

/-- Reset goes before increment. -/
def advance (c : Controller) (asserted : Asserted) : Controller :=
  if asserted.contains c.counter.reset then { c with step := 0 }
  else if asserted.contains c.counter.increment then { c with step := c.step + 1 }
  else c

end Controller

structure ScriptedController where
  path : String
  opcode : Register
  counter : StepCounter
  /-- The control sets of the cycles to come. -/
  script : List ControlSet
deriving DecidableEq

namespace ScriptedController

def ofLines (lines : ControllerLines) (script : List ControlSet) : ScriptedController :=
  ⟨lines.path,⟨lines.opcode,0⟩,lines.counter,script⟩

def controls (c : ScriptedController) : List ControlId :=
  c.opcode.controls ++ [c.counter.increment,c.counter.reset]

/-- Takes the next control set off the script; after the last there are none. -/
def select (c : ScriptedController) (hw : Registry) (asserted : Asserted) :
    Outcome (ScriptedController × Asserted) :=
  match c.script with
  | [] => .done (c,asserted)
  | controls :: rest =>
    (hw.assertAll controls.toList asserted).map fun asserted => ({ c with script := rest },asserted)

end ScriptedController
end Microprogram
