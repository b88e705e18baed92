import Microprogram.Part.AluUnit
import Microprogram.Part.Controller
import Microprogram.Part.Memory
import Microprogram.Part.StatusRegister

/-! The parts of a machine. A part claims control and status lines, takes part in
some of the phases, and in each of them acts on itself and the shared lines. -/
namespace Microprogram

inductive Part
  | root (lines : RootLines)
  | register (r : Register)
  | word (w : WordRegister)
  | alu (a : AluUnit)
  | statusRegister (sr : StatusRegister)
  | memory (m : Memory)
  | controller (c : Controller)
  | scripted (c : ScriptedController)
deriving DecidableEq

namespace Part

/-- Where the part is declared, which is also its name as a setter of buses. -/
def path : Part → String
  | root _ => "/"
  | register r => r.lines.path
  | word w => w.lines.path
  | alu a => a.path
  | statusRegister sr => sr.lines.path
  | memory m => m.path
  | controller c => c.path
  | scripted c => c.path

def controls : Part → List ControlId
  | root lines => [lines.halt,lines.crash]
  | register r => r.controls
  | word w => w.controls
  | alu a => a.controls
  | statusRegister sr => sr.controls
  | memory m => m.controls
  | controller c => c.controls
  | scripted c => c.controls

def statuses : Part → List StatusId
  | root lines => [lines.halted]
  | alu a => a.statuses
  | statusRegister sr => sr.statuses
  | _ => []

def participates (part : Part) (phase : Phase) : Bool :=
  match part,phase with
  | root _, .process => true
  | root _, _ => false
  | statusRegister _, .control => false
  | statusRegister _, _ => true
  | controller _, .clear => false
  | controller _, _ => true
  | scripted _, .control => true
  | scripted _, .write => true
  | scripted _, .read => true
  | scripted _, _ => false
  | _, .write => true
  | _, .read => true
  | _, .process => true
  | _, _ => false

/-- The root crashes or halts in whatever phase it is called on. -/
def rootAct (lines : RootLines) (hw : Registry) (cycle : Nat) (asserted : Asserted)
    (staged : Staged) : Outcome Staged :=
  if asserted.contains lines.crash then .stopped (.crashed cycle) staged
  else if asserted.contains lines.halt then .attempt staged (hw.stage (lines.halted,true) staged)
  else .done staged

/-- Control: controllers assert the lines of this cycle. -/
def select (hw : Registry) (statuses : SortedSet StatusId) :
    Part → Asserted → Outcome (Part × Asserted)
  | controller c, asserted => (c.select hw statuses asserted).map (controller c,·)
  | scripted c, asserted => (c.select hw asserted).map fun (c,asserted) => (scripted c,asserted)
  | part, asserted => .done (part,asserted)

/-- Write: values go onto buses; the part itself stays as it is. -/
def drive (hw : Registry) (asserted : Asserted) (part : Part) (driven : Driven) : Outcome Driven :=
  match part with
  | root _ => .done driven
  | register r => r.drive hw asserted driven
  | word w => w.drive hw asserted driven
  | alu a => a.drive hw asserted driven
  | statusRegister sr => sr.drive hw asserted driven
  | memory m => m.drive hw asserted driven
  | controller c => c.opcode.drive hw asserted driven
  | scripted c => c.opcode.drive hw asserted driven

/-- Read: values come off buses; the buses stay as they are. -/
def load (hw : Registry) (asserted : Asserted) (driven : Driven) (part : Part) (staged : Staged) :
    Outcome (Part × Staged) :=
  match part with
  | root lines => .done (root lines,staged)
  | register r => (r.load hw asserted driven).map fun r => (register r,staged)
  | word w => (w.load hw asserted driven).map fun w => (word w,staged)
  | alu a => (a.load hw asserted driven).map fun a => (alu a,staged)
  | statusRegister sr => (sr.load hw asserted driven staged).map fun (sr,staged) =>
      (statusRegister sr,staged)
  | memory m => (m.load hw asserted driven).map fun m => (memory m,staged)
  | controller c => (c.opcode.load hw asserted driven).map fun opcode =>
      (controller { c with opcode },staged)
  | scripted c => (c.opcode.load hw asserted driven).map fun opcode =>
      (scripted { c with opcode },staged)

/-- Process: counters, arithmetic and flags. -/
def process (hw : Registry) (asserted : Asserted) (statuses : SortedSet StatusId)
    (part : Part) (staged : Staged) : Outcome (Part × Staged) :=
  match part with
  | root lines => .done (root lines,staged)
  | register r => .done (register (r.count asserted),staged)
  | word w => .done (word (w.count asserted),staged)
  | alu a => (a.process hw asserted statuses staged).map fun (a,staged) => (alu a,staged)
  | statusRegister sr => (sr.process hw asserted staged).map fun (sr,staged) =>
      (statusRegister sr,staged)
  | memory m => .done (memory (m.count asserted),staged)
  | controller c => .done (controller (c.advance asserted),staged)
  | scripted c => .done (scripted { c with opcode := c.opcode.count asserted },staged)

/-- Clear: the status register latches the flags and drops its latch line. -/
def settle (hw : Registry) (statuses : SortedSet StatusId) (part : Part) (asserted : Asserted)
    (staged : Staged) : Outcome (Part × Asserted × Staged) :=
  match part with
  | statusRegister sr => (sr.settle hw asserted statuses staged).map fun (sr,asserted,staged) =>
      (statusRegister sr,asserted,staged)
  | part => .done (part,asserted,staged)

def react (hw : Registry) (phase : Phase) (cycle : Nat) (part : Part) (signals : Signals) :
    Outcome (Part × Signals) :=
  match part,phase with
  | root lines, _ =>
    (rootAct lines hw cycle signals.asserted signals.staged).map fun staged =>
      (root lines,{ signals with staged })
  | part, .control =>
    (part.select hw signals.statuses signals.asserted).map fun (part,asserted) =>
      (part,{ signals with asserted })
  | part, .write =>
    (part.drive hw signals.asserted signals.driven).map fun driven => (part,{ signals with driven })
  | part, .read =>
    (part.load hw signals.asserted signals.driven signals.staged).map fun (part,staged) =>
      (part,{ signals with staged })
  | part, .process =>
    (part.process hw signals.asserted signals.statuses signals.staged).map
      fun (part,staged) => (part,{ signals with staged })
  | part, .clear =>
    (part.settle hw signals.statuses signals.asserted signals.staged).map
      fun (part,asserted,staged) => (part,{ signals with asserted, staged })

/-- The part that stays as a copy, or the memory that keeps a journal instead. -/
inductive Checkpoint
  | snapshot (part : Part)
  | journal
deriving DecidableEq

def checkpoint : Part → Part × Checkpoint
  | memory m => (memory m.checkpoint,.journal)
  | part => (part,.snapshot part)

/-- Undoes every change since a checkpoint. -/
def restore (part : Part) : Checkpoint → Part
  | .snapshot saved => saved
  | .journal =>
    match part with
    | memory m => memory m.rollback
    | part => part

def commit : Part → Part
  | memory m => memory m.commit
  | part => part

/-- Calls on the parts that take part in a phase, in order, up to the first fault. -/
def reactAll (hw : Registry) (phase : Phase) (cycle : Nat) :
    List Part → Signals → Outcome (List Part × Signals)
  | [], signals => .done ([],signals)
  | part :: rest, signals =>
    if part.participates phase then
      match part.react hw phase cycle signals with
      | .stopped fault (part,signals) => .stopped fault (part :: rest,signals)
      | .done (part,signals) =>
        (reactAll hw phase cycle rest signals).map fun (rest,signals) => (part :: rest,signals)
    else (reactAll hw phase cycle rest signals).map fun (rest,signals) => (part :: rest,signals)

end Part
end Microprogram
