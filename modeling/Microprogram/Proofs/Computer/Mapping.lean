import Mathlib.Logic.Function.Basic
import Microprogram.Proofs.Computer.Start
import Microprogram.Proofs.Computer.StatusLines

/-! Memory as the configuration places it. Mapped addresses answer, addresses of RAM can
be written, and a write changes the byte at its address and no other. -/
namespace Microprogram

namespace MemoryMap

theorem read_write {regions after : MemoryMap} {address : UInt16} {value : UInt8}
    (wrote : write regions address value = .ok after) :
    read after = Function.update (read regions) address (.ok value) := by
  induction regions generalizing after with
  | nil => cases wrote
  | cons region rest ih =>
    funext other
    rw [write] at wrote
    split at wrote
    next inside =>
      obtain ⟨changed,stored,rfl⟩ := except_map_ok.mp wrote
      have kept := Region.contains_write stored
      obtain ⟨_,bound,rfl⟩ := Region.write_eq_ok.mp stored
      rw [read_cons,kept]
      by_cases same : other = address
      · subst same
        rw [if_pos inside,Function.update_self]
        simp only [Region.read,Array.getElem?_setIfInBounds_self_of_lt bound]
      · rw [Function.update_of_ne same,read_cons]
        split
        next also =>
          rw [Region.contains_iff] at inside also
          have apart : address.toNat - region.base.toNat ≠ other.toNat - region.base.toNat := by
            intro offsets
            exact same (UInt16.toNat_inj.mp (by omega))
          simp only [Region.read,Array.getElem?_setIfInBounds_ne apart]
          simp only [Region.size,Array.size_setIfInBounds]
        · rfl
    next outside =>
      obtain ⟨others,stored,rfl⟩ := except_map_ok.mp wrote
      rw [read_cons,ih stored]
      by_cases same : other = address
      · subst same
        rw [if_neg outside,Function.update_self,Function.update_self]
      · rw [Function.update_of_ne same,Function.update_of_ne same,read_cons]

end MemoryMap

namespace Config

def Writable (config : Config) (address : UInt16) : Prop := address.toNat < config.ramSize

def InRom (config : Config) (address : UInt16) : Prop :=
  config.romBase ≤ address ∧ address.toNat < config.romEnd

def Mapped (config : Config) (address : UInt16) : Prop :=
  config.Writable address ∨ config.romBase ≤ address ∧ address.toNat < config.romEnd

/-- RAM and ROM where the configuration places them. -/
def Places (config : Config) (regions : MemoryMap) : Prop :=
  ∃ ram rom, regions = [⟨.ram,0,ram⟩,⟨.rom,config.romBase,rom⟩] ∧ ram.size = config.ramSize ∧
    rom.size = config.romSize

variable {config : Config} {regions : MemoryMap} {address : UInt16}

theorem places_initial {program : List UInt8} (fits : config.admits program.length = .ok ()) :
    config.Places (Computer.regionsOf program config) :=
  ⟨_,_,rfl,Array.size_replicate,Computer.image_size _ _ (admits_ok fits)⟩

theorem Places.write (places : config.Places regions) {value : UInt8} {after : MemoryMap}
    (wrote : MemoryMap.write regions address value = .ok after) : config.Places after := by
  obtain ⟨ram,rom,rfl,ramSize,romSize⟩ := places
  rw [MemoryMap.write] at wrote
  split at wrote
  · obtain ⟨changed,stored,rfl⟩ := except_map_ok.mp wrote
    obtain ⟨_,_,rfl⟩ := Region.write_eq_ok.mp stored
    exact ⟨_,rom,rfl,Array.size_setIfInBounds.trans ramSize,romSize⟩
  · obtain ⟨others,stored,rfl⟩ := except_map_ok.mp wrote
    rw [MemoryMap.write] at stored
    split at stored
    · obtain ⟨changed,refused,rfl⟩ := except_map_ok.mp stored
      cases (Region.write_eq_ok.mp refused).1
    · cases stored

theorem contains_ram {cells : Array UInt8} (size : cells.size = config.ramSize) :
    (⟨.ram,0,cells⟩ : Region).contains address = true ↔ config.Writable address := by
  rw [Region.contains_iff,size,Writable]
  simp

theorem contains_rom {cells : Array UInt8} (size : cells.size = config.romSize) :
    (⟨.rom,config.romBase,cells⟩ : Region).contains address = true ↔ config.InRom address := by
  rw [Region.contains_iff,size,InRom,romEnd,UInt16.le_iff_toNat_le]

theorem Places.reads (places : config.Places regions) (mapped : config.Mapped address) :
    ∃ value, MemoryMap.read regions address = .ok value := by
  obtain ⟨ram,rom,rfl,ramSize,romSize⟩ := places
  have cell (region : Region) (inside : region.contains address = true) :
      ∃ value, region.read (address.toNat - region.base.toNat) = .ok value := by
    rw [Region.contains_iff] at inside
    have bound : address.toNat - region.base.toNat < region.cells.size := by omega
    exact ⟨_,by rw [Region.read,Array.getElem?_eq_getElem bound]⟩
  rw [MemoryMap.read_cons]
  by_cases low : config.Writable address
  · rw [if_pos ((contains_ram ramSize).mpr low)]
    exact cell ⟨.ram,0,ram⟩ ((contains_ram ramSize).mpr low)
  · have high := (contains_rom romSize).mpr (mapped.resolve_left low)
    rw [if_neg (mt (contains_ram ramSize).mp low),MemoryMap.read_cons,if_pos high]
    exact cell ⟨.rom,config.romBase,rom⟩ high

theorem Places.writes (places : config.Places regions) (writable : config.Writable address)
    (value : UInt8) : ∃ after, MemoryMap.write regions address value = .ok after := by
  obtain ⟨ram,rom,rfl,ramSize,romSize⟩ := places
  have bound : address.toNat - (0 : UInt16).toNat < ram.size := ramSize ▸ writable
  rw [MemoryMap.write,if_pos ((contains_ram ramSize).mpr writable),
    Region.write_eq_ok.mpr ⟨rfl,bound,rfl⟩]
  exact ⟨_,rfl⟩

end Config

namespace Contents
variable {hw : Layout} {s t : Contents} {config : Config}

theorem cycle_regions {number : Nat} {lines : Asserted} (done : s.cycle hw number lines = .ok t) :
    ∃ driven taken, s.drive hw lines = .ok driven ∧
      hw.memory.tap.sense hw.memory.path hw.hardware lines driven = .ok taken ∧
      MemoryMap.storeTaken s.regions s.address taken = .ok t.regions := by
  obtain ⟨driven,driving,done⟩ := except_bind_ok.mp done
  obtain ⟨u,loaded,done⟩ := except_bind_ok.mp done
  obtain ⟨v,processed,done⟩ := except_bind_ok.mp done
  cases done
  obtain ⟨taken,senses,received⟩ := load_senses loaded
  obtain ⟨regions,stores,ended⟩ := except_bind_ok.mp received
  cases ended
  obtain ⟨_,_,_,_,same,_⟩ := process_ok processed
  have settled : (v.settle hw lines).regions = v.regions := by
    unfold settle
    split <;> rfl
  refine ⟨driven,taken .memory,driving,senses .memory,?_⟩
  rw [settled,same]
  exact stores

theorem cycle_places {number : Nat} {lines : Asserted} (done : s.cycle hw number lines = .ok t)
    (places : config.Places s.regions) : config.Places t.regions := by
  obtain ⟨_,taken,_,_,stores⟩ := cycle_regions done
  cases taken with
  | none => exact Except.ok.inj stores ▸ places
  | some value => exact places.write (except_mapError_ok.mp stores)

end Contents
end Microprogram
