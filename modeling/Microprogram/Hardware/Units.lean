import Microprogram.Alu
import Microprogram.Hardware.Registry

/-! The lines of the units that a machine is built from: the taps they have on
buses, and the controls and statuses that belong to them. -/
namespace Microprogram

/-- A tap on a bus: the controls that put a value on it and take one off it. -/
structure Tap where
  bus : BusId
  write : ControlId
  read : ControlId
deriving DecidableEq, Repr

/-- A register: its tap, and the controls of its counter where it has them. -/
structure RegisterLines where
  path : String
  tap : Tap
  reset : Option ControlId
  increment : Option ControlId
  decrement : Option ControlId
deriving DecidableEq, Repr

structure Flags where
  carry : StatusId
  zero : StatusId
  negative : StatusId
  overflow : StatusId
deriving DecidableEq, Repr

def Flags.all (flags : Flags) : List StatusId :=
  [flags.carry,flags.zero,flags.negative,flags.overflow]

structure AluLines where
  path : String
  lhs : RegisterLines
  rhs : RegisterLines
  result : RegisterLines
  /-- One control for each operation, in the order of `Alu.Op.all`. -/
  ops : Vector ControlId 9
  flags : Flags
deriving DecidableEq, Repr

def AluLines.control (alu : AluLines) (op : Alu.Op) : ControlId := alu.ops[op.index]

structure StatusRegisterLines where
  path : String
  tap : Tap
  /-- Copies the flags of the ALU at the end of a cycle; it does not clear itself. -/
  latch : ControlId
  setCarry : ControlId
  clearCarry : ControlId
  flags : Flags
deriving DecidableEq, Repr

structure ControllerLines where
  path : String
  opcode : RegisterLines
  counter : StepCounter
deriving DecidableEq, Repr

structure MemoryLines where
  path : String
  tap : Tap
  address : RegisterLines
deriving DecidableEq, Repr

structure RootLines where
  halt : ControlId
  crash : ControlId
  halted : StatusId
deriving DecidableEq, Repr

end Microprogram
