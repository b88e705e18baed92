import Microprogram.Computer.Microcode
import Microprogram.Machine.Basic

/-! The computer as a machine: RAM at address zero, the program in ROM, and the
program counter at the entry point. A control table or a script drives it. -/
namespace Microprogram

structure Computer where
  layout : Layout
  machine : Machine

namespace Computer

/-- The program followed by zeros, as long as ROM. -/
def image (program : List UInt8) (romSize : Nat) : Array UInt8 :=
  program.toArray ++ Array.replicate (romSize - program.length) 0

def memoryMap (program : List UInt8) (config : Config) : Except MemoryError MemoryMap := do
  let ram ← Region.ram 0 config.ramSize
  let rom ← Region.rom config.romBase (image program config.romSize)
  return [ram,rom]

/-- Every part, in the order in which the phases call on them. -/
def parts (hw : Layout) (controller : Part) (config : Config) (regions : MemoryMap) : List Part :=
  [.root hw.root,controller,.register ⟨hw.a,0⟩,.register ⟨hw.x,0⟩,.register ⟨hw.y,0⟩,
    .alu (.ofLines hw.alu hw.statusRegister.flags.carry),
    .statusRegister ⟨hw.statusRegister,hw.alu.flags,0⟩,
    .word ⟨hw.pc,none,config.entryPoint⟩,
    .word ⟨hw.buffer,some (hw.high,hw.low),0⟩,
    .memory (.ofLines hw.memory regions)]

def assemble (hw : Layout) (controller : Part) (program : List UInt8) (config : Config) :
    Except Fault Computer := do
  config.validate.mapError .invalidConfig
  (config.admits program.length).mapError .invalidConfig
  let regions ← (memoryMap program config).mapError .memory
  let machine ← Machine.assemble hw.hardware (parts hw controller config regions) config hw.root.halted
  return ⟨hw,machine⟩

/-- A computer that finds its controls in a table. -/
def withTable (hw : Layout) (table : ControlTable) (program : List UInt8) (config : Config) :
    Except Fault Computer :=
  assemble hw (.controller (.ofLines hw.controller table)) program config

/-- A computer that asserts the given control sets, one in each cycle. -/
def withScript (hw : Layout) (script : List ControlSet) (program : List UInt8) (config : Config) :
    Except Fault Computer :=
  assemble hw (.scripted (.ofLines hw.controller script)) program config

def tick (c : Computer) : Outcome Computer := c.machine.tick.map fun machine => { c with machine }

def runUntilHalt (c : Computer) : Outcome Computer :=
  c.machine.runUntilHalt.map fun machine => { c with machine }

def byteAt (c : Computer) (path : String) : UInt8 :=
  match c.machine.partAt? path with
  | some (.register r) => r.value
  | _ => 0

def wordAt (c : Computer) (path : String) : UInt16 :=
  match c.machine.partAt? path with
  | some (.word w) => w.value
  | _ => 0

def a (c : Computer) : UInt8 := c.byteAt c.layout.a.path
def x (c : Computer) : UInt8 := c.byteAt c.layout.x.path
def y (c : Computer) : UInt8 := c.byteAt c.layout.y.path
def pc (c : Computer) : UInt16 := c.wordAt c.layout.pc.path
def buffer (c : Computer) : UInt16 := c.wordAt c.layout.buffer.path

def alu? (c : Computer) : Option AluUnit :=
  match c.machine.partAt? c.layout.alu.path with
  | some (.alu a) => some a
  | _ => none

def statusRegister? (c : Computer) : Option StatusRegister :=
  match c.machine.partAt? c.layout.statusRegister.path with
  | some (.statusRegister sr) => some sr
  | _ => none

def memory? (c : Computer) : Option Memory :=
  match c.machine.partAt? c.layout.memory.path with
  | some (.memory m) => some m
  | _ => none

def controller? (c : Computer) : Option Part := c.machine.partAt? c.layout.controller.path

def peek (c : Computer) (address : UInt16) : Except MemoryError UInt8 :=
  match c.memory? with
  | some m => m.read address
  | none => .error (.unmapped address)

/-- The bytes from an address on; after the last address comes the first. -/
def peekMany (c : Computer) : Nat → UInt16 → Except MemoryError (List UInt8)
  | 0, _ => .ok []
  | n + 1, address => do
    let b ← c.peek address
    return b :: (← peekMany c n (address + 1))

inductive RunError
  | compile (reason : CompileError)
  | fault (reason : Fault)
deriving DecidableEq

def RunError.message : RunError → String
  | compile reason => s!"Compile error: {reason.message}"
  | fault reason => s!"Simulation error: {reason.message}"

def run (program : List UInt8) (config : Config) : Except RunError Computer := do
  let design ← Design.build.mapError (.fault ∘ .structural)
  let table ← design.table.mapError .compile
  let computer ← (withTable design.layout table program config).mapError .fault
  match computer.runUntilHalt with
  | .done computer => return computer
  | .stopped fault _ => .error (.fault fault)

end Computer
end Microprogram
