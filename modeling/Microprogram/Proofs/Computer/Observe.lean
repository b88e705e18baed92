import Microprogram.Proofs.Computer.Tick

/-! What can be read off a computer: the contents of its parts, found by their paths,
and the step counter of its controller. -/
namespace Microprogram

def Part.opcode? : Part → Option UInt8
  | controller c => some c.opcode.value
  | scripted c => some c.opcode.value
  | _ => none

namespace Computer

/-- Everything that the parts of a computer hold, read through their paths. -/
def contents? (c : Computer) : Option Contents := do
  let opcode ← c.controller?.bind Part.opcode?
  let alu ← c.alu?
  let sr ← c.statusRegister?
  let m ← c.memory?
  return {
    opcode, a := c.a, x := c.x, y := c.y
    lhs := alu.lhs.value, rhs := alu.rhs.value, result := alu.result.value
    status := sr.value, pc := c.pc, buffer := c.buffer
    address := m.address.value, regions := m.regions
    lines := c.machine.signals.statuses }

def selected? (c : Computer) : Option Entry :=
  match c.controller? with
  | some (.controller controller) => controller.table.lookup controller.opcode.value controller.step
      c.machine.signals.statuses.contains
  | _ => none

/-- The lines that the controller asserts in a tick, or the fault that keeps it from doing so. -/
def asserted (c : Computer) : Except Fault ControlSet :=
  (Machine.runPhase c.machine.hardware c.machine.cycle .control (c.machine.parts,c.machine.signals)).result.map
    fun state => state.2.asserted

def stepCounter? (c : Computer) : Option UInt8 :=
  match c.controller? with
  | some (.controller controller) => some controller.step
  | _ => none

end Computer

theorem Part.find_path {parts : List Part} (apart : (parts.map Part.path).Nodup) {part : Part}
    (member : part ∈ parts) : parts.find? (fun other => other.path = part.path) = some part := by
  induction parts with
  | nil => contradiction
  | cons first rest ih =>
    obtain ⟨fresh,others⟩ := List.nodup_cons.mp apart
    rcases List.mem_cons.mp member with rfl | inside
    · simp
    · have other : first.path ≠ part.path := by
        intro same
        exact fresh (same ▸ List.mem_map_of_mem inside)
      simpa [other] using ih others inside

namespace Moment
variable {hw : Layout}

def computer (hw : Layout) (config : Config) (saved : UInt16) (m : Moment) : Computer :=
  ⟨hw,m.machine hw config saved⟩

theorem partAt_computer (wired : hw.Wired) (config : Config) (saved : UInt16) (m : Moment) (part : Part)
    (member : part ∈ parts hw m.driver saved [] m.contents) :
    (m.computer hw config saved).machine.partAt? part.path = some part := by
  have paths : (parts hw m.driver saved [] m.contents).map Part.path = hw.partPaths := by
    cases m.driver <;> rfl
  exact Part.find_path (paths ▸ wired.paths_apart) member

theorem asserted_computer (config : Config) (saved : UInt16) (m : Moment) :
    (m.computer hw config saved).asserted = m.driver.choose m.contents.opcode m.contents.lines >>=
      fun controls => (hw.hardware.assertAll controls.toList ∅).result := by
  unfold Computer.asserted
  change (Machine.runPhase hw.hardware m.cycle .control
    (parts hw m.driver saved [] m.contents,⟨∅,m.contents.lines,[],∅⟩)).result.map _ = _
  rw [phase_control]
  cases m.driver.choose m.contents.opcode m.contents.lines >>= _ <;> rfl

section Views
variable (wired : hw.Wired) (config : Config) (saved : UInt16) (m : Moment)
include wired

theorem controller_computer :
    (m.computer hw config saved).controller? = some (m.driver.part hw m.contents.opcode) := by
  have found := m.partAt_computer wired config saved (m.driver.part hw m.contents.opcode)
    (by simp [parts])
  have path : (m.driver.part hw m.contents.opcode).path = hw.controller.path := by
    cases m.driver <;> rfl
  rw [path] at found
  exact found

theorem byte_computer (lines : RegisterLines) (value : UInt8)
    (member : .register ⟨lines,value⟩ ∈ parts hw m.driver saved [] m.contents) :
    (m.computer hw config saved).byteAt lines.path = value := by
  have found := m.partAt_computer wired config saved _ member
  unfold Computer.byteAt
  rw [show (m.computer hw config saved).machine.partAt? lines.path = _ from found]

theorem word_computer (w : WordRegister)
    (member : .word w ∈ parts hw m.driver saved [] m.contents) :
    (m.computer hw config saved).wordAt w.lines.path = w.value := by
  have found := m.partAt_computer wired config saved _ member
  unfold Computer.wordAt
  rw [show (m.computer hw config saved).machine.partAt? w.lines.path = _ from found]

theorem statusRegister_computer :
    (m.computer hw config saved).statusRegister? = some (m.contents.statusUnit hw) := by
  have found := m.partAt_computer wired config saved (.statusRegister (m.contents.statusUnit hw))
    (by simp [parts])
  unfold Computer.statusRegister?
  rw [show (m.computer hw config saved).machine.partAt?
    (m.computer hw config saved).layout.statusRegister.path = _ from found]

theorem memory_computer : (m.computer hw config saved).memory? = some
    ⟨hw.memory.path,hw.memory.tap,m.contents.addressUnit hw,m.contents.regions,saved,[]⟩ := by
  have found := m.partAt_computer wired config saved (.memory ⟨hw.memory.path,hw.memory.tap,
    m.contents.addressUnit hw,m.contents.regions,saved,[]⟩) (by simp [parts])
  unfold Computer.memory?
  rw [show (m.computer hw config saved).machine.partAt?
    (m.computer hw config saved).layout.memory.path = _ from found]

theorem contents_computer : (m.computer hw config saved).contents? = some m.contents := by
  have a : (m.computer hw config saved).a = m.contents.a :=
    m.byte_computer wired config saved hw.a _ (by simp [parts])
  have x : (m.computer hw config saved).x = m.contents.x :=
    m.byte_computer wired config saved hw.x _ (by simp [parts])
  have y : (m.computer hw config saved).y = m.contents.y :=
    m.byte_computer wired config saved hw.y _ (by simp [parts])
  have pc : (m.computer hw config saved).pc = m.contents.pc :=
    m.word_computer wired config saved (m.contents.pcUnit hw) (by simp [parts])
  have buffer : (m.computer hw config saved).buffer = m.contents.buffer :=
    m.word_computer wired config saved (m.contents.bufferUnit hw) (by simp [parts])
  have alu := m.partAt_computer wired config saved (.alu (m.contents.aluUnit hw)) (by simp [parts])
  have opcode : (m.driver.part hw m.contents.opcode).opcode? = some m.contents.opcode := by
    cases m.driver <;> rfl
  have found : (m.computer hw config saved).alu? = some (m.contents.aluUnit hw) := by
    unfold Computer.alu?
    rw [show (m.computer hw config saved).machine.partAt? (m.computer hw config saved).layout.alu.path = _
      from alu]
  unfold Computer.contents?
  rw [m.controller_computer wired,found,m.statusRegister_computer wired,m.memory_computer wired,a,x,y,pc,
    buffer]
  simp only [Option.bind_some,opcode]
  rfl

theorem step_computer (table : ControlTable) (step : UInt8) (number : Nat) (s : Contents) :
    (computer hw config saved ⟨.byTable table step,number,s⟩).stepCounter? = some step := by
  unfold Computer.stepCounter?
  rw [controller_computer wired]
  rfl

theorem entry_computer (table : ControlTable) (step : UInt8) (number : Nat) (s : Contents) :
    (computer hw config saved ⟨.byTable table step,number,s⟩).selected? =
      table.lookup s.opcode step s.lines.contains := by
  unfold Computer.selected?
  rw [controller_computer wired]
  rfl

end Views
end Moment
end Microprogram
