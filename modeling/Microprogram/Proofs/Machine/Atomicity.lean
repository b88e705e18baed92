import Microprogram.Proofs.Machine.Rollback

/-! Cycles are atomic. A cycle that fails, in whatever phase and through whichever part,
leaves nothing behind that the next one could see, so that it fails again and again. -/
namespace Microprogram

namespace Part

/-- The part without the notes that a memory takes for undoing a cycle. -/
def withoutNotes : Part → Part
  | memory m => memory { m with savedAddress := 0, journal := [] }
  | part => part

@[simp]
theorem withoutNotes_checkpoint (part : Part) : part.checkpoint.1.withoutNotes = part.withoutNotes := by
  cases part <;> rfl

@[simp]
theorem checkpoint_checkpoint (part : Part) : part.checkpoint.1.checkpoint = part.checkpoint := by
  cases part <;> rfl

end Part

namespace Machine

theorem tick_checkpoint (m : Machine) :
    { m with parts := m.parts.map fun part : Part => part.checkpoint.1 }.tick = m.tick := by
  have again : (m.parts.map fun part : Part => part.checkpoint.1).map Part.checkpoint =
      m.parts.map Part.checkpoint := by
    rw [List.map_map]
    exact List.map_congr_left fun part _ => part.checkpoint_checkpoint
  unfold tick
  dsimp only
  rw [again]

/-- A cycle that fails restores everything but the notes of memories for undoing it, and
fails with the same fault when it is tried again. -/
theorem failed_tick_restores {m after : Machine} {fault : Fault}
    (failed : m.tick = .stopped fault after) :
    after.cycle = m.cycle ∧ after.signals = m.signals ∧
      after.parts.map Part.withoutNotes = m.parts.map Part.withoutNotes ∧
      (after.hardware = m.hardware ∧ after.config = m.config ∧ after.halted = m.halted) ∧
      after.tick = .stopped fault after := by
  obtain rfl := m.tick_stopped failed
  refine ⟨rfl,rfl,?_,⟨rfl,rfl,rfl⟩,?_⟩
  · rw [List.map_map]
    exact List.map_congr_left fun part _ => part.withoutNotes_checkpoint
  · exact m.tick_checkpoint.trans failed

/-- In the first cycle a register drives the data bus, the memory stores what it reads
there, and then the root crashes. -/
def crashing : Machine where
  hardware := {
    components := #[⟨"","/",none⟩]
    controls := #[⟨"halt","/halt",⟨0⟩,.process,true⟩,⟨"crash","/crash",⟨0⟩,.process,true⟩,
      ⟨"put","/put",⟨0⟩,.write ⟨0⟩,true⟩,⟨"take","/take",⟨0⟩,.read ⟨0⟩,true⟩,
      ⟨"fetch","/fetch",⟨0⟩,.write ⟨0⟩,true⟩,⟨"store","/store",⟨0⟩,.read ⟨0⟩,true⟩,
      ⟨"show","/show",⟨0⟩,.write ⟨0⟩,true⟩,⟨"decode","/decode",⟨0⟩,.read ⟨0⟩,true⟩,
      ⟨"step","/step",⟨0⟩,.process,true⟩,⟨"begin","/begin",⟨0⟩,.process,true⟩,
      ⟨"point","/point",⟨0⟩,.write ⟨0⟩,true⟩,⟨"aim","/aim",⟨0⟩,.read ⟨0⟩,true⟩]
    statuses := #[⟨"halted","/halted",⟨0⟩⟩]
    buses := #[⟨"data","/data",.byte⟩]
    paths := ∅ }
  parts := [
    .root ⟨⟨0⟩,⟨1⟩,⟨0⟩⟩,
    .scripted ⟨"/controller",⟨⟨"/opcode",⟨⟨0⟩,⟨6⟩,⟨7⟩⟩,none,none,none⟩,0⟩,⟨⟨8⟩,⟨9⟩⟩,
      [.ofList [⟨1⟩,⟨2⟩,⟨5⟩]]⟩,
    .register ⟨⟨"/a",⟨⟨0⟩,⟨2⟩,⟨3⟩⟩,none,none,none⟩,7⟩,
    .memory ⟨"/memory",⟨⟨0⟩,⟨4⟩,⟨5⟩⟩,⟨⟨"/address",⟨⟨0⟩,⟨10⟩,⟨11⟩⟩,none,none,none⟩,none,1⟩,
      [⟨.ram,0,#[1,2]⟩],0,[]⟩]
  signals := .initial
  config := {}
  halted := ⟨0⟩
  cycle := 0

theorem crashing_restores :
    Machine.assemble crashing.hardware crashing.parts {} ⟨0⟩ = .ok crashing ∧
      ∃ after, crashing.tick = .stopped (.crashed 0) after ∧
        after.cycle = 0 ∧ after.signals = .initial ∧
        after.parts.map Part.withoutNotes = crashing.parts.map Part.withoutNotes ∧
        (after.hardware = crashing.hardware ∧ after.config = {} ∧ after.halted = ⟨0⟩) ∧
        after.tick = .stopped (.crashed 0) after := by
  have failed : crashing.tick = .stopped (.crashed 0) { crashing with
      parts := crashing.parts.map fun part : Part => part.checkpoint.1 } := rfl
  have valid : ({} : Config).validate = .ok () := by decide +kernel
  have owned : verifyTopology crashing.hardware crashing.parts = .ok () := by decide +kernel
  refine ⟨?_,_,failed,failed_tick_restores failed⟩
  unfold assemble
  rw [valid,owned]
  rfl

end Machine
end Microprogram
