import Mathlib.Logic.Function.Basic
import Microprogram.Proofs.Computer.Mapping

/-! The instruction set, apart from the microcode that carries it out. An instruction is
what its mnemonic means, a change of what a program can see of the computer. -/
namespace Microprogram

def wordOf (high low : UInt8) : UInt16 := high.toUInt16 <<< 8 ||| low.toUInt16

inductive ByteRegister
  | a
  | x
  | y
deriving DecidableEq

/-- What a program can see of a computer. -/
structure View where
  a : UInt8
  x : UInt8
  y : UInt8
  status : UInt8
  pc : UInt16
  halted : Bool
  memory : UInt16 → Except MemoryError UInt8

namespace View

def get (v : View) : ByteRegister → UInt8
  | .a => v.a
  | .x => v.x
  | .y => v.y

def set (v : View) (value : UInt8) : ByteRegister → View
  | .a => { v with a := value }
  | .x => { v with x := value }
  | .y => { v with y := value }

def carry (v : View) : Bool := v.status &&& StatusRegister.carryBit != 0

def zero (v : View) : Bool := v.status &&& StatusRegister.zeroBit != 0

def byte (v : View) (address : UInt16) : Except Fault UInt8 := (v.memory address).mapError Fault.memory

def word (v : View) (address : UInt16) : Except Fault UInt16 :=
  v.byte address >>= fun high => v.byte (address + 1) >>= fun low => pure (wordOf high low)

/-- The byte that an instruction works on, when the program counter is behind its opcode. -/
def operand (v : View) : Mode → Except Fault UInt8
  | .none => .ok 0
  | .immediate => v.byte v.pc
  | .absolute => v.word v.pc >>= v.byte

end View

/-- The byte of the status register that holds the four flags and nothing else. -/
def Alu.Output.flagByte (out : Alu.Output) : UInt8 :=
  (if out.carry then 0x01 else 0) ||| (if out.zero then 0x02 else 0) |||
    (if out.negative then 0x80 else 0) ||| (if out.overflow then 0x40 else 0)

inductive Meaning
  | halt
  | idle
  | crash
  | load (dst : ByteRegister)
  | store (src : ByteRegister)
  | transfer (src dst : ByteRegister)
  | increment (register : ByteRegister)
  | decrement (register : ByteRegister)
  | compute (op : Alu.Op)
  | compare
  | jump
  /-- A jump where the zero flag has the given value. -/
  | branch (zero : Bool)
  | setCarry
  | clearCarry
deriving DecidableEq

namespace Meaning

def ofName : String → Option Meaning
  | "hlt" => some halt
  | "nop" => some idle
  | "crs" => some crash
  | "lda" => some (load .a)
  | "ldx" => some (load .x)
  | "ldy" => some (load .y)
  | "sta" => some (store .a)
  | "stx" => some (store .x)
  | "sty" => some (store .y)
  | "tax" => some (transfer .a .x)
  | "txa" => some (transfer .x .a)
  | "tay" => some (transfer .a .y)
  | "tya" => some (transfer .y .a)
  | "inx" => some (increment .x)
  | "dex" => some (decrement .x)
  | "iny" => some (increment .y)
  | "dey" => some (decrement .y)
  | "adc" => some (compute .add)
  | "sbc" => some (compute .subtract)
  | "and" => some (compute .and)
  | "ora" => some (compute .or)
  | "eor" => some (compute .xor)
  | "cmp" => some compare
  | "asl" => some (compute .shiftLeft)
  | "lsr" => some (compute .shiftRight)
  | "rol" => some (compute .rotateLeft)
  | "ror" => some (compute .rotateRight)
  | "jmp" => some jump
  | "jeq" => some (branch true)
  | "jne" => some (branch false)
  | "sec" => some setCarry
  | "clc" => some clearCarry
  | _ => Option.none

/-- What becomes of the view when the program counter is behind the opcode, or the fault
that stops the instruction. -/
def effect (meaning : Meaning) (mode : Mode) (v : View) : Except Fault View :=
  let next := { v with pc := v.pc + UInt16.ofNat mode.operandLength }
  match meaning with
  | halt => .ok { next with halted := true }
  | idle => .ok next
  | crash => .error (.crashed 0)
  | load dst => v.operand mode >>= fun value => pure (next.set value dst)
  | store src => v.word v.pc >>= fun address =>
    pure { next with memory := Function.update v.memory address (.ok (v.get src)) }
  | transfer src dst => .ok (next.set (v.get src) dst)
  | increment register => .ok (next.set (v.get register + 1) register)
  | decrement register => .ok (next.set (v.get register - 1) register)
  | compute op => v.operand mode >>= fun operand =>
    let out := Alu.compute op v.a operand v.carry
    pure { next with a := out.value, status := out.flagByte }
  | compare => v.operand mode >>= fun operand =>
    pure { next with status := (Alu.compute .subtract v.a operand true).flagByte }
  | jump => v.word v.pc >>= fun address => pure { next with pc := address }
  | branch zero =>
    if v.zero = zero then v.word v.pc >>= fun address => pure { next with pc := address } else .ok next
  | setCarry => .ok { next with status := v.status ||| 0x01 }
  | clearCarry => .ok { next with status := v.status &&& 0xfe }

def usesByte : Meaning → Bool
  | load _ | compute _ | compare => true
  | _ => false

def usesAddress : Meaning → Bool
  | store _ | jump | branch _ => true
  | _ => false

/-- The memory that an instruction uses is there, when the program counter is behind the
opcode: the bytes of its operand, unless they are the address of a branch that is not
taken, and the byte at that address, which is in RAM where the instruction writes it. -/
structure Accesses (meaning : Meaning) (config : Config) (mode : Mode) (v : View) : Prop where
  operand : (∀ zero, meaning = branch zero → v.zero = zero) →
    ∀ i < mode.operandLength, config.Mapped (v.pc + UInt16.ofNat i)
  data : meaning.usesByte = true → mode = .absolute → ∀ address, v.word v.pc = .ok address →
    config.Mapped address
  stores : ∀ src, meaning = store src → ∀ address, v.word v.pc = .ok address →
    config.Writable address

theorem accesses_immediate {meaning : Meaning} {config : Config} {v : View}
    (mapped : config.Mapped v.pc) (reads : ∀ src, meaning ≠ store src) :
    meaning.Accesses config .immediate v where
  operand _ i bound := by
    obtain rfl := Nat.lt_one_iff.mp bound
    exact (UInt16.add_zero v.pc).symm ▸ mapped
  data _ absolute := by cases absolute
  stores src same := absurd same (reads src)

section Total
variable {meaning : Meaning} {config : Config} {mode : Mode} {v : View}
  (answers : ∀ address, config.Mapped address → ∃ value, v.memory address = .ok value)
  (accesses : meaning.Accesses config mode v)
include answers

private theorem byte_total {address : UInt16} (mapped : config.Mapped address) :
    ∃ value, v.byte address = .ok value := by
  obtain ⟨value,found⟩ := answers address mapped
  exact ⟨value,except_mapError_ok.mpr found⟩

private theorem word_total (operand : ∀ i < Mode.absolute.operandLength,
    config.Mapped (v.pc + UInt16.ofNat i)) : ∃ address, v.word v.pc = .ok address := by
  obtain ⟨high,first⟩ := byte_total answers (UInt16.add_zero v.pc ▸ operand 0 (by decide))
  obtain ⟨low,second⟩ := byte_total answers (operand 1 (by decide))
  refine ⟨wordOf high low,?_⟩
  rw [View.word,first,except_ok_bind,show v.byte (v.pc + 1) = _ from second,except_ok_bind]
  rfl

include accesses

theorem Accesses.operand_total (uses : meaning.usesByte = true) :
    ∃ value, v.operand mode = .ok value := by
  have operand := accesses.operand (by rintro zero rfl; cases uses)
  cases mode with
  | none => exact ⟨0,rfl⟩
  | immediate => exact byte_total answers (UInt16.add_zero v.pc ▸ operand 0 (by decide))
  | absolute =>
    obtain ⟨address,found⟩ := word_total answers operand
    obtain ⟨value,read⟩ := byte_total answers (accesses.data uses rfl address found)
    exact ⟨value,by rw [View.operand,found,except_ok_bind,read]⟩

theorem Accesses.effect_total (absolute : meaning.usesAddress = true → mode = .absolute)
    (runs : meaning ≠ .crash) : ∃ after, meaning.effect mode v = .ok after := by
  have address (uses : meaning.usesAddress = true)
      (reads : ∀ zero, meaning = branch zero → v.zero = zero) :
      ∃ address, v.word v.pc = .ok address := by
    obtain rfl := absolute uses
    exact word_total answers (accesses.operand reads)
  cases meaning with
  | crash => exact absurd rfl runs
  | load _ | compute _ | compare =>
    obtain ⟨value,found⟩ := accesses.operand_total answers rfl
    exact ⟨_,by rw [effect,found,except_ok_bind]; rfl⟩
  | store _ | jump =>
    obtain ⟨value,found⟩ := address rfl (by simp)
    exact ⟨_,by rw [effect,found,except_ok_bind]; rfl⟩
  | branch zero =>
    by_cases taken : v.zero = zero
    · obtain ⟨value,found⟩ := address rfl (by simpa using taken)
      exact ⟨_,by rw [effect,if_pos taken,found,except_ok_bind]; rfl⟩
    · exact ⟨_,by rw [effect,if_neg taken]⟩
  | _ => exact ⟨_,rfl⟩

end Total
end Meaning

def Contents.view (hw : Layout) (s : Contents) : View :=
  ⟨s.a,s.x,s.y,s.status,s.pc,s.lines.contains hw.root.halted,MemoryMap.read s.regions⟩

def Computer.view? (c : Computer) : Option View := c.contents?.map (Contents.view c.layout)

end Microprogram
