import Microprogram.Instruction.Catalog

/-! The instructions of the computer. -/
namespace Microprogram.Computer

def descriptors : List Descriptor := [
  ⟨0x00,"hlt",.none,"Halt the processor"⟩,
  ⟨0x01,"nop",.none,"No operation"⟩,
  ⟨0x02,"crs",.none,"Crash the processor"⟩,
  ⟨0x10,"lda",.immediate,"Load A with immediate value"⟩,
  ⟨0x11,"lda",.absolute,"Load A from memory"⟩,
  ⟨0x12,"ldx",.immediate,"Load X with immediate value"⟩,
  ⟨0x13,"ldx",.absolute,"Load X from memory"⟩,
  ⟨0x14,"ldy",.immediate,"Load Y with immediate value"⟩,
  ⟨0x15,"ldy",.absolute,"Load Y from memory"⟩,
  ⟨0x18,"sta",.absolute,"Store A to memory"⟩,
  ⟨0x19,"stx",.absolute,"Store X to memory"⟩,
  ⟨0x1A,"sty",.absolute,"Store Y to memory"⟩,
  ⟨0x20,"tax",.none,"Transfer A to X"⟩,
  ⟨0x21,"txa",.none,"Transfer X to A"⟩,
  ⟨0x22,"tay",.none,"Transfer A to Y"⟩,
  ⟨0x23,"tya",.none,"Transfer Y to A"⟩,
  ⟨0x24,"inx",.none,"Increment X"⟩,
  ⟨0x25,"dex",.none,"Decrement X"⟩,
  ⟨0x26,"iny",.none,"Increment Y"⟩,
  ⟨0x27,"dey",.none,"Decrement Y"⟩,
  ⟨0x30,"adc",.immediate,"Add immediate to A with carry"⟩,
  ⟨0x31,"adc",.absolute,"Add memory to A with carry"⟩,
  ⟨0x32,"sbc",.immediate,"Subtract immediate from A with carry"⟩,
  ⟨0x33,"sbc",.absolute,"Subtract memory from A with carry"⟩,
  ⟨0x34,"and",.immediate,"AND immediate with A"⟩,
  ⟨0x35,"and",.absolute,"AND memory with A"⟩,
  ⟨0x36,"ora",.immediate,"OR immediate with A"⟩,
  ⟨0x37,"ora",.absolute,"OR memory with A"⟩,
  ⟨0x38,"eor",.immediate,"XOR immediate with A"⟩,
  ⟨0x39,"eor",.absolute,"XOR memory with A"⟩,
  ⟨0x3A,"cmp",.immediate,"Compare A with immediate"⟩,
  ⟨0x40,"asl",.none,"Shift A left"⟩,
  ⟨0x41,"lsr",.none,"Shift A right"⟩,
  ⟨0x42,"rol",.none,"Rotate A left through carry"⟩,
  ⟨0x43,"ror",.none,"Rotate A right through carry"⟩,
  ⟨0x50,"jmp",.absolute,"Jump to address"⟩,
  ⟨0x51,"jeq",.absolute,"Jump if zero flag set"⟩,
  ⟨0x52,"jne",.absolute,"Jump if zero flag clear"⟩,
  ⟨0x60,"sec",.none,"Set carry flag"⟩,
  ⟨0x61,"clc",.none,"Clear carry flag"⟩]

def catalog : Except StructuralError Catalog := Catalog.ofList descriptors

end Microprogram.Computer
