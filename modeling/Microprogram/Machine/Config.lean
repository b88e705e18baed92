import Microprogram.Text.Format

/-! The memory map and the cycle limit of a machine. RAM begins at address zero,
ROM at a base of its own. -/
namespace Microprogram

def isPowerOfTwo (n : Nat) : Bool := n != 0 && n == 1 <<< n.log2

structure Config where
  maxCycles : Nat := 1000000
  ramSize : Nat := 0x2000
  romBase : UInt16 := 0x8000
  romSize : Nat := 0x8000
  entryPoint : UInt16 := 0x8000
deriving DecidableEq, Repr

inductive ConfigError
  | invalidRamSize (size : Nat)
  | invalidRomSize (size : Nat)
  | ramOverlapsRom (ramSize : Nat) (romBase : UInt16)
  | romOutsideAddressSpace (romBase : UInt16) (romSize : Nat)
  | entryPointOutsideRom (entryPoint : UInt16)
  | programTooLarge (length romSize : Nat)
deriving DecidableEq, Repr

namespace ConfigError
open Text

def message : ConfigError → String
  | invalidRamSize size => s!"ram_size {hex 0 size} must be a non-zero power of two"
  | invalidRomSize size => s!"rom_size {hex 0 size} must be a non-zero power of two"
  | ramOverlapsRom ramSize romBase =>
    s!"ram_size {hex 0 ramSize} overlaps ROM at {hex 4 romBase.toNat}"
  | romOutsideAddressSpace romBase romSize =>
    s!"ROM at {hex 4 romBase.toNat} of {hex 0 romSize} bytes exceeds the 16-bit address space"
  | entryPointOutsideRom entryPoint => s!"entry_point {hex 4 entryPoint.toNat} is outside ROM"
  | programTooLarge length romSize =>
    s!"program of {length} bytes does not fit in {hex 0 romSize} bytes of ROM"

end ConfigError

namespace Config

def romEnd (config : Config) : Nat := config.romBase.toNat + config.romSize

/-- Sizes first, then the placement of the two memories, then the entry point. -/
def validate (config : Config) : Except ConfigError Unit :=
  if !isPowerOfTwo config.ramSize then .error (.invalidRamSize config.ramSize)
  else if !isPowerOfTwo config.romSize then .error (.invalidRomSize config.romSize)
  else if config.ramSize > config.romBase.toNat then
    .error (.ramOverlapsRom config.ramSize config.romBase)
  else if config.romEnd > 0x10000 then
    .error (.romOutsideAddressSpace config.romBase config.romSize)
  else if config.entryPoint < config.romBase || config.romEnd ≤ config.entryPoint.toNat then
    .error (.entryPointOutsideRom config.entryPoint)
  else .ok ()

def admits (config : Config) (programLength : Nat) : Except ConfigError Unit :=
  if programLength > config.romSize then .error (.programTooLarge programLength config.romSize)
  else .ok ()

end Config
end Microprogram
