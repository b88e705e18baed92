import Microprogram.Hardware.Declare
import Microprogram.Hardware.Units

/-! The hardware of an 8-bit computer: registers A, X and Y, an ALU, a status
register, a program counter, a word buffer, a controller and a memory behind an
address register, joined by a byte-wide data bus and a word-wide address bus. -/
namespace Microprogram

/-- The registry of the computer, with a name for everything declared in it. -/
structure Layout where
  hardware : Registry
  dataBus : BusId
  addressBus : BusId
  root : RootLines
  a : RegisterLines
  x : RegisterLines
  y : RegisterLines
  alu : AluLines
  statusRegister : StatusRegisterLines
  pc : RegisterLines
  buffer : RegisterLines
  /-- The byte halves of the buffer. -/
  high : RegisterLines
  low : RegisterLines
  controller : ControllerLines
  stepCounterPath : String
  memory : MemoryLines

namespace Layout

abbrev Declaring := StateT Registry (Except StructuralError)

def component (parent : ComponentId) (name : String) : Declaring ComponentId :=
  fun hw => hw.declareComponent parent name

def bus (name : String) (width : BusWidth) : Declaring BusId := fun hw => hw.declareBus name width

/-- A control that drops at the end of the cycle. -/
def control (owner : ComponentId) (name : String) (action : ControlAction) : Declaring ControlId :=
  fun hw => hw.declareControl owner name action true

/-- A control that stays until its owner drops it. -/
def lastingControl (owner : ComponentId) (name : String) (action : ControlAction) :
    Declaring ControlId :=
  fun hw => hw.declareControl owner name action false

def status (owner : ComponentId) (name : String) : Declaring StatusId :=
  fun hw => hw.declareStatus owner name

def path (id : ComponentId) : Declaring String := do
  return (← (← get).component id).path

def componentAt (path : String) : Declaring ComponentId := do
  return ← (← get).identAt .component path

def tap (owner : ComponentId) (bus : BusId) : Declaring Tap := do
  let write ← control owner "write" (.write bus)
  let read ← control owner "read" (.read bus)
  return ⟨bus,write,read⟩

/-- A counter control, where the register has it. -/
def counterControl (owner : ComponentId) (name : String) (has : Bool) :
    Declaring (Option ControlId) :=
  if has then do return some (← control owner name .process) else return none

structure Counting where
  reset : Bool := false
  increment : Bool := false
  decrement : Bool := false

def register (parent : ComponentId) (name : String) (bus : BusId) (counting : Counting) :
    Declaring RegisterLines := do
  let id ← component parent name
  let path ← path id
  let tap ← tap id bus
  let reset ← counterControl id "reset" counting.reset
  let increment ← counterControl id "increment" counting.increment
  let decrement ← counterControl id "decrement" counting.decrement
  return ⟨path,tap,reset,increment,decrement⟩

def flags (owner : ComponentId) : Declaring Flags := do
  let carry ← status owner "carry"
  let zero ← status owner "zero"
  let negative ← status owner "negative"
  let overflow ← status owner "overflow"
  return ⟨carry,zero,negative,overflow⟩

def aluUnit (parent : ComponentId) (dataBus : BusId) : Declaring AluLines := do
  let id ← component parent "alu"
  let path ← path id
  let lhs ← register id "lhs" dataBus {}
  let rhs ← register id "rhs" dataBus {}
  let result ← register id "result" dataBus {}
  let op (op : Alu.Op) := control id op.name .process
  let add ← op .add
  let subtract ← op .subtract
  let and ← op .and
  let or ← op .or
  let xor ← op .xor
  let shiftLeft ← op .shiftLeft
  let shiftRight ← op .shiftRight
  let rotateLeft ← op .rotateLeft
  let rotateRight ← op .rotateRight
  let flags ← flags id
  return ⟨path,lhs,rhs,result,
    #v[add,subtract,and,or,xor,shiftLeft,shiftRight,rotateLeft,rotateRight],flags⟩

def statusUnit (parent : ComponentId) (dataBus : BusId) : Declaring StatusRegisterLines := do
  let id ← component parent "status_register"
  let path ← path id
  let tap ← tap id dataBus
  let latch ← lastingControl id "latch" .clear
  let setCarry ← control id "set_carry" .process
  let clearCarry ← control id "clear_carry" .process
  let flags ← flags id
  return ⟨path,tap,latch,setCarry,clearCarry,flags⟩

/-- Everything in the order in which it is numbered. -/
def declare : Declaring (Registry → Layout) := do
  let root := Registry.root
  let dataBus ← bus "data_bus" .byte
  let addressBus ← bus "address_bus" .word
  let halt ← control root "halt" .process
  let crash ← control root "crash" .process
  let halted ← status root "halted"
  let cpu ← component root "cpu"
  let a ← register cpu "a" dataBus { reset := true }
  let x ← register cpu "x" dataBus { reset := true, increment := true, decrement := true }
  let y ← register cpu "y" dataBus { reset := true, increment := true, decrement := true }
  let alu ← aluUnit cpu dataBus
  let statusRegister ← statusUnit cpu dataBus
  let pc ← register cpu "pc" addressBus { reset := true, increment := true }
  let buffer ← register cpu "buffer" addressBus {}
  let bufferId ← componentAt buffer.path
  let high ← register bufferId "high" dataBus {}
  let low ← register bufferId "low" dataBus {}
  let controllerId ← component cpu "controller"
  let opcode ← register controllerId "opcode" dataBus {}
  let counterId ← component controllerId "step_counter"
  let controllerPath ← path controllerId
  let stepCounterPath ← path counterId
  let increment ← control counterId "increment" .process
  let reset ← control counterId "reset" .process
  let memoryId ← component root "memory"
  let memoryPath ← path memoryId
  let memoryTap ← tap memoryId dataBus
  let address ← register memoryId "address" addressBus { increment := true }
  return fun hardware => {
    hardware, dataBus, addressBus, a, x, y, alu, statusRegister, pc, buffer, high, low
    stepCounterPath
    root := ⟨halt,crash,halted⟩
    controller := ⟨controllerPath,opcode,⟨increment,reset⟩⟩
    memory := ⟨memoryPath,memoryTap,address⟩ }

def build : Except StructuralError Layout := do
  let (layout,hardware) ← declare.run Registry.initial
  return layout hardware

def registers (layout : Layout) : List (String × RegisterLines) :=
  [("a",layout.a),("x",layout.x),("y",layout.y),("lhs",layout.alu.lhs),("rhs",layout.alu.rhs),
    ("result",layout.alu.result),("pc",layout.pc),("buffer",layout.buffer),("high",layout.high),
    ("low",layout.low),("opcode",layout.controller.opcode),("address",layout.memory.address)]

def register? (layout : Layout) (name : String) : Option RegisterLines :=
  (layout.registers.find? fun pair => pair.1 = name).map Prod.snd

/-- The taps by short names: those of the registers, the memory and the status register. -/
def tap? (layout : Layout) (name : String) : Option Tap :=
  if name = "memory" then some layout.memory.tap
  else if name = "status_register" then some layout.statusRegister.tap
  else (layout.register? name).map RegisterLines.tap

end Layout
end Microprogram
