import Microprogram.Computer.Assembly
import Microprogram.Proofs.Computer.Wiring
import Microprogram.Proofs.Part.Outlets
import Microprogram.Proofs.Part.Processing

/-! What a computer holds between two cycles, and a cycle as a function on it. The
lines asserted in a cycle are a set; each phase looks only at its own lines in it. -/
namespace Microprogram

/-- The registers, memory and status lines of a computer. -/
structure Contents where
  opcode : UInt8
  a : UInt8
  x : UInt8
  y : UInt8
  lhs : UInt8
  rhs : UInt8
  result : UInt8
  status : UInt8
  pc : UInt16
  buffer : UInt16
  address : UInt16
  regions : MemoryMap
  lines : SortedSet StatusId
deriving DecidableEq

namespace Contents
variable (hw : Layout)

def aluUnit (s : Contents) : AluUnit :=
  ⟨hw.alu.path,⟨hw.alu.lhs,s.lhs⟩,⟨hw.alu.rhs,s.rhs⟩,⟨hw.alu.result,s.result⟩,hw.alu.ops,hw.alu.flags,
    hw.statusRegister.flags.carry⟩

def statusUnit (s : Contents) : StatusRegister := ⟨hw.statusRegister,hw.alu.flags,s.status⟩

def pcUnit (s : Contents) : WordRegister := ⟨hw.pc,none,s.pc⟩

def bufferUnit (s : Contents) : WordRegister := ⟨hw.buffer,some (hw.high,hw.low),s.buffer⟩

def addressUnit (s : Contents) : WordRegister := ⟨hw.memory.address,none,s.address⟩

def shows (value : UInt8) (s : Contents) : Staged := { s.statusUnit hw with value }.shown

/-- The outlets of all parts, in the order in which the parts use them. -/
def outlets (s : Contents) : List Outlet :=
  [hw.controller.opcode.outlet s.opcode.toUInt16,hw.a.outlet s.a.toUInt16,hw.x.outlet s.x.toUInt16,
    hw.y.outlet s.y.toUInt16,hw.alu.lhs.outlet s.lhs.toUInt16,hw.alu.rhs.outlet s.rhs.toUInt16,
    hw.alu.result.outlet s.result.toUInt16,
    ⟨hw.statusRegister.tap,hw.statusRegister.path,.ok s.status.toUInt16⟩,hw.pc.outlet s.pc,
    hw.buffer.outlet s.buffer,hw.high.outlet (s.bufferUnit hw).high.toUInt16,
    hw.low.outlet (s.bufferUnit hw).low.toUInt16,
    ⟨hw.memory.tap,hw.memory.path,
      ((MemoryMap.read s.regions s.address).mapError Fault.memory).map UInt8.toUInt16⟩,
    hw.memory.address.outlet s.address]

def drive (asserted : Asserted) (s : Contents) : Except Fault Driven :=
  (s.outlets hw).foldlM (Outlet.offer hw.hardware asserted) ∅

def load (asserted : Asserted) (driven : Driven) (s : Contents) : Except Fault Contents := do
  let opcode ← hw.controller.opcode.sense hw.hardware asserted driven
  let a ← hw.a.sense hw.hardware asserted driven
  let x ← hw.x.sense hw.hardware asserted driven
  let y ← hw.y.sense hw.hardware asserted driven
  let lhs ← hw.alu.lhs.sense hw.hardware asserted driven
  let rhs ← hw.alu.rhs.sense hw.hardware asserted driven
  let result ← hw.alu.result.sense hw.hardware asserted driven
  let status ← hw.statusRegister.tap.sense hw.statusRegister.path hw.hardware asserted driven
  let pc ← hw.pc.sense hw.hardware asserted driven
  let buffer ← hw.buffer.sense hw.hardware asserted driven
  let high ← hw.high.sense hw.hardware asserted driven
  let low ← hw.low.sense hw.hardware asserted driven
  let cell ← hw.memory.tap.sense hw.memory.path hw.hardware asserted driven
  let regions ← MemoryMap.storeTaken s.regions s.address cell
  let address ← hw.memory.address.sense hw.hardware asserted driven
  return {
    opcode := byteTaken opcode s.opcode
    a := byteTaken a s.a
    x := byteTaken x s.x
    y := byteTaken y s.y
    lhs := byteTaken lhs s.lhs
    rhs := byteTaken rhs s.rhs
    result := byteTaken result s.result
    status := byteTaken status s.status
    pc := pc.getD s.pc
    buffer := (stored low WordRegister.withLow (stored high WordRegister.withHigh
      { s.bufferUnit hw with value := buffer.getD s.buffer })).value
    address := address.getD s.address
    regions
    lines := status.elim s.lines fun value => postAll (s.shows hw value.toUInt8) s.lines }

def process (cycle : Nat) (asserted : Asserted) (s : Contents) : Except Fault Contents :=
  if asserted.contains hw.root.crash then .error (.crashed cycle)
  else do
    let halting := if asserted.contains hw.root.halt then [(hw.root.halted,true)] else []
    let (result,reports) ← (s.aluUnit hw).operate asserted s.lines
    return { s with
      a := hw.a.count asserted s.a
      x := hw.x.count asserted s.x
      y := hw.y.count asserted s.y
      lhs := hw.alu.lhs.count asserted s.lhs
      rhs := hw.alu.rhs.count asserted s.rhs
      result
      status := (s.statusUnit hw).adjusted asserted
      pc := hw.pc.count asserted s.pc
      buffer := hw.buffer.count asserted s.buffer
      address := hw.memory.address.count asserted s.address
      lines := postAll (halting ++ reports ++ (s.statusUnit hw).adjustments asserted) s.lines }

def settle (asserted : Asserted) (s : Contents) : Contents :=
  if asserted.contains hw.statusRegister.latch then
    let value := (s.statusUnit hw).latched s.lines
    { s with status := value, lines := postAll (s.shows hw value) s.lines }
  else s

/-- The phases of a cycle after the lines have been asserted. -/
def cycle (number : Nat) (asserted : Asserted) (s : Contents) : Except Fault Contents := do
  let driven ← s.drive hw asserted
  let s ← s.load hw asserted driven
  let s ← s.process hw number asserted
  return s.settle hw asserted

end Contents
end Microprogram
