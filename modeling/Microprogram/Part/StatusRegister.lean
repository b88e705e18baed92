import Microprogram.Part.Register

/-! The status register: a byte with the carry in bit 0, zero in bit 1, overflow in
bit 6 and the sign in bit 7. Each change of the byte is shown on its status lines. -/
namespace Microprogram

structure StatusRegister where
  lines : StatusRegisterLines
  aluFlags : Flags
  value : UInt8
deriving DecidableEq, Repr

namespace StatusRegister

def carryBit : UInt8 := 0x01
def zeroBit : UInt8 := 0x02
def overflowBit : UInt8 := 0x40
def negativeBit : UInt8 := 0x80

def carry (sr : StatusRegister) : Bool := sr.value &&& carryBit != 0
def zero (sr : StatusRegister) : Bool := sr.value &&& zeroBit != 0
def overflow (sr : StatusRegister) : Bool := sr.value &&& overflowBit != 0
def negative (sr : StatusRegister) : Bool := sr.value &&& negativeBit != 0

def controls (sr : StatusRegister) : List ControlId :=
  [sr.lines.tap.write,sr.lines.tap.read,sr.lines.latch,sr.lines.setCarry,sr.lines.clearCarry]

def statuses (sr : StatusRegister) : List StatusId := sr.lines.flags.all

def shown (sr : StatusRegister) : List (StatusId × Bool) :=
  [(sr.lines.flags.carry,sr.carry),(sr.lines.flags.zero,sr.zero),
    (sr.lines.flags.negative,sr.negative),(sr.lines.flags.overflow,sr.overflow)]

def store (hw : Registry) (value : UInt8) (state : StatusRegister × Staged) :
    Outcome (StatusRegister × Staged) :=
  let sr := { state.1 with value }
  (hw.stageAll sr.shown state.2).map (sr,·)

def latched (sr : StatusRegister) (statuses : SortedSet StatusId) : UInt8 :=
  let bit (status : StatusId) (mask : UInt8) : UInt8 := if statuses.contains status then mask else 0
  bit sr.aluFlags.carry carryBit ||| bit sr.aluFlags.zero zeroBit |||
    bit sr.aluFlags.negative negativeBit ||| bit sr.aluFlags.overflow overflowBit

def drive (sr : StatusRegister) (hw : Registry) (asserted : Asserted) (driven : Driven) :
    Outcome Driven :=
  if asserted.contains sr.lines.tap.write then
    .attempt driven (hw.drive sr.lines.tap.bus sr.value.toUInt16 sr.lines.path driven)
  else .done driven

def load (sr : StatusRegister) (hw : Registry) (asserted : Asserted) (driven : Driven)
    (staged : Staged) : Outcome (StatusRegister × Staged) :=
  if asserted.contains sr.lines.tap.read then
    match hw.sense sr.lines.tap.bus sr.lines.path driven with
    | .error fault => .stopped fault (sr,staged)
    | .ok value => store hw value.toUInt8 (sr,staged)
  else .done (sr,staged)

/-- Setting the carry goes before clearing it. -/
def process (sr : StatusRegister) (hw : Registry) (asserted : Asserted) (staged : Staged) :
    Outcome (StatusRegister × Staged) :=
  let set := if asserted.contains sr.lines.setCarry then
      store hw (sr.value ||| carryBit) (sr,staged)
    else .done (sr,staged)
  set.andThen fun state =>
    if asserted.contains sr.lines.clearCarry then
      store hw (state.1.value &&& ~~~carryBit) state
    else .done state

def settle (sr : StatusRegister) (hw : Registry) (asserted : Asserted)
    (statuses : SortedSet StatusId) (staged : Staged) :
    Outcome (StatusRegister × Asserted × Staged) :=
  if asserted.contains sr.lines.latch then
    ((store hw (sr.latched statuses) (sr,staged)).map fun (sr,staged) =>
      (sr,asserted,staged)).andThen fun (sr,asserted,staged) =>
      .attempt (sr,asserted,staged)
        ((hw.setControl sr.lines.latch false asserted).map (sr,·,staged))
  else .done (sr,asserted,staged)

end StatusRegister
end Microprogram
