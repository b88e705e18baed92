import Microprogram.Microcode.BusUse
import Microprogram.Proofs.Computer.Layout

/-! How the lines of the computer are wired: which line is acted on in which phase,
which buses they belong to, and which line outlasts a cycle. The theory of the
computer rests on these facts alone and not on the numbers of the lines. -/
namespace Microprogram

/-- What an asserted line makes its owner do, if the line is declared. -/
def Registry.actionOf (hw : Registry) (line : ControlId) : Option ControlAction :=
  (hw.control? line).map ControlDecl.action

theorem Registry.actionOf_eq_some (hw : Registry) (line : ControlId) (action : ControlAction) :
    hw.actionOf line = some action ↔ ∃ decl, hw.control? line = some decl ∧ decl.action = action :=
  Option.map_eq_some_iff

theorem Registry.control_declared {hw : Registry} {line : ControlId} {action : ControlAction}
    (acts : hw.actionOf line = some action) : line.index < hw.controls.size := by
  obtain ⟨decl,found,_⟩ := (hw.actionOf_eq_some line action).mp acts
  exact (Array.getElem?_eq_some_iff.mp found).1

def Registry.ownerPath (hw : Registry) (line : ControlId) : Option String :=
  (hw.control? line).bind fun decl => (hw.component? decl.owner).map ComponentDecl.path

def Registry.phaseOf (hw : Registry) (line : ControlId) : Option Phase :=
  (hw.actionOf line).map ControlAction.phase

theorem Registry.phaseOf_of_action {hw : Registry} {line : ControlId} {action : ControlAction}
    (acts : hw.actionOf line = some action) : hw.phaseOf line = some action.phase := by
  rw [phaseOf,acts]
  rfl

namespace Layout

def taps (hw : Layout) : List Tap :=
  [hw.controller.opcode.tap,hw.a.tap,hw.x.tap,hw.y.tap,hw.alu.lhs.tap,hw.alu.rhs.tap,
    hw.alu.result.tap,hw.statusRegister.tap,hw.pc.tap,hw.buffer.tap,hw.high.tap,hw.low.tap,
    hw.memory.tap,hw.memory.address.tap]

def setters (hw : Layout) : List (ControlId × String) :=
  [hw.controller.opcode,hw.a,hw.x,hw.y,hw.alu.lhs,hw.alu.rhs,hw.alu.result].map
      (fun lines => (lines.tap.write,lines.path)) ++
    [(hw.statusRegister.tap.write,hw.statusRegister.path)] ++
    [hw.pc,hw.buffer,hw.high,hw.low].map (fun lines => (lines.tap.write,lines.path)) ++
    [(hw.memory.tap.write,hw.memory.path),(hw.memory.address.tap.write,hw.memory.address.path)]

def counterLines (lines : RegisterLines) : List ControlId :=
  lines.reset.toList ++ lines.increment.toList ++ lines.decrement.toList

/-- The lines acted on in the process phase, those of the step counter aside. -/
def processLines (hw : Layout) : List ControlId :=
  [hw.root.halt,hw.root.crash] ++ counterLines hw.a ++ counterLines hw.x ++ counterLines hw.y ++
    counterLines hw.alu.lhs ++ counterLines hw.alu.rhs ++ counterLines hw.alu.result ++
    Alu.Op.all.map hw.alu.control ++ [hw.statusRegister.setCarry,hw.statusRegister.clearCarry] ++
    counterLines hw.pc ++ counterLines hw.buffer ++ counterLines hw.memory.address

def statusLines (hw : Layout) : List StatusId :=
  hw.root.halted :: hw.alu.flags.all ++ hw.statusRegister.flags.all

def partPaths (hw : Layout) : List String :=
  ["/",hw.controller.path,hw.a.path,hw.x.path,hw.y.path,hw.alu.path,hw.statusRegister.path,hw.pc.path,
    hw.buffer.path,hw.memory.path]

/-- The facts about the lines of a layout on which its behaviour rests. -/
structure Wired (hw : Layout) : Prop where
  write_line : ∀ tap ∈ hw.taps, hw.hardware.actionOf tap.write = some (.write tap.bus)
  read_line : ∀ tap ∈ hw.taps, hw.hardware.actionOf tap.read = some (.read tap.bus)
  process_line : ∀ line ∈ hw.processLines, hw.hardware.actionOf line = some .process
  /-- No part but the controller acts on the lines of the step counter. -/
  process_apart : ∀ line ∈ hw.processLines, hw.controller.counter.contains line = false
  counter_line : ∀ line, hw.controller.counter.contains line = true →
    hw.hardware.actionOf line = some .process
  counter_apart : hw.controller.counter.increment ≠ hw.controller.counter.reset
  latch_line : hw.hardware.actionOf hw.statusRegister.latch = some .clear
  /-- The latch alone outlasts a cycle unless its owner drops it. -/
  lasting : ∀ line decl, hw.hardware.control? line = some decl → decl.autoClear = false →
    line = hw.statusRegister.latch
  /-- Whatever line writes a bus, a part puts its value there. -/
  writer : ∀ line bus, hw.hardware.actionOf line = some (.write bus) →
    ∃ tap ∈ hw.taps, tap.write = line
  /-- A part sets buses under the path of the component that owns the write line. -/
  setter : ∀ pair ∈ hw.setters, hw.hardware.ownerPath pair.1 = some pair.2
  writes_apart : (hw.taps.map Tap.write).Nodup
  reads_apart : (hw.taps.map Tap.read).Nodup
  bus_declared : ∀ tap ∈ hw.taps, ∃ decl, hw.hardware.bus? tap.bus = some decl
  status_declared : ∀ status ∈ hw.statusLines, status.index < hw.hardware.statuses.size
  statuses_apart : hw.statusLines.Nodup
  paths_apart : hw.partPaths.Nodup

/-- Checks a fact about every declared line by its place. -/
private theorem line_cases {decls : List ControlDecl} {line : ControlId} {decl : ControlDecl}
    (fact : Nat → ControlDecl → Prop) (found : decls.toArray[line.index]? = some decl)
    (facts : ∀ pair ∈ decls.zipIdx, fact pair.2 pair.1) : fact line.index decl := by
  rw [List.getElem?_toArray] at found
  exact facts (decl,line.index) (List.mk_mem_zipIdx_iff_getElem?.mpr found)

private theorem ident_of_index {kind : Kind} {id other : Ident kind} (same : id.index = other.index) :
    id = other := by
  obtain ⟨num⟩ := id
  obtain ⟨otherNum⟩ := other
  exact congrArg Ident.mk (UInt16.toNat_inj.mp same)

theorem standard_wired : standard.Wired where
  write_line := by decide +kernel
  read_line := by decide +kernel
  process_line := by decide +kernel
  process_apart := by decide +kernel
  counter_line line inside := by
    simp only [StepCounter.contains,Bool.or_eq_true,decide_eq_true_eq] at inside
    rcases inside with rfl | rfl <;> decide +kernel
  counter_apart := by decide
  latch_line := by decide +kernel
  lasting line decl found stays := by
    have place := line_cases (fun place decl => decl.autoClear = false → place = 32) found
      (by decide +kernel)
    exact ident_of_index (place stays)
  writer line bus writes := by
    obtain ⟨decl,found,action⟩ := (Registry.actionOf_eq_some _ _ _).mp writes
    have place := line_cases (fun place decl => decl.action.bus?.isSome = true →
      decl.action.phase = .write → ∃ tap ∈ standard.taps, tap.write.index = place) found
        (by decide +kernel)
    obtain ⟨tap,member,same⟩ := place (by rw [action]; rfl) (by rw [action]; rfl)
    exact ⟨tap,member,ident_of_index same⟩
  setter := by decide +kernel
  writes_apart := by decide +kernel
  reads_apart := by decide +kernel
  bus_declared tap member := by
    have declared : ∀ tap ∈ standard.taps, (standard.hardware.bus? tap.bus).isSome := by
      decide +kernel
    exact Option.isSome_iff_exists.mp (declared tap member)
  status_declared := by decide +kernel
  statuses_apart := by decide +kernel
  paths_apart := by decide +kernel

theorem build_wired {hw : Layout} (built : build = .ok hw) : hw.Wired := by
  rw [build_eq] at built
  cases built
  exact standard_wired

end Layout
end Microprogram
