import Microprogram.Microcode.Compiler
import Microprogram.Proofs.ControlTable.Lookup
import Microprogram.Proofs.Microcode.Merging

/-! What compilation leaves in the table. Every entry holds the lines of a merged step,
and the merged steps come from steps that the check of bus use accepted. -/
namespace Microprogram

namespace Program
variable {hw : Registry} {counter : StepCounter}

theorem mem_sequenced {program : Program} {variant : Variant} :
    variant ∈ program.sequenced counter ↔
      ∃ plain ∈ program, plain.sequenced counter = variant := by
  rw [sequenced,SortedSet.mem_ofList,List.mem_map]
  exact .rfl

theorem mem_merged {program joined : Program} (merges : program.merged hw counter = .ok joined)
    {variant : Variant} : variant ∈ joined ↔
      ∃ plain ∈ program, plain.merged hw counter = .ok variant := by
  obtain ⟨variants,mapped,ended⟩ := except_bind_ok.mp merges
  cases ended
  rw [SortedSet.mem_ofList]
  obtain ⟨into,onto⟩ := except_mapM_ok mapped
  refine ⟨onto variant,?_⟩
  rintro ⟨plain,inside,done⟩
  obtain ⟨image,member,also⟩ := into plain inside
  obtain rfl := Except.ok.inj (done.symm.trans also)
  exact member

theorem merged_steps {plain variant : Variant} (merges : plain.merged hw counter = .ok variant) :
    variant.descriptor = plain.descriptor ∧ variant.guard = plain.guard ∧
      Variant.mergedSteps hw counter plain.steps = .ok variant.steps := by
  obtain ⟨steps,joined,ended⟩ := except_bind_ok.mp merges
  cases ended
  exact ⟨rfl,rfl,joined⟩

theorem merged_total {program : Program}
    (declared : ∀ variant ∈ program, ∀ step ∈ variant.steps, ∀ line ∈ step.controls, ∃ action,
      hw.actionOf line = some action) : ∃ joined, program.merged hw counter = .ok joined := by
  have each : ∀ variant ∈ program.toList, ∃ joined, variant.merged hw counter = .ok joined := by
    intro variant member
    exact Variant.merged_total (declared variant member)
  obtain ⟨variants,mapped⟩ := except_mapM_total each
  exact ⟨_,by rw [merged,mapped]; rfl⟩

theorem checkBusUse_sound {program : Program} (checked : program.checkBusUse hw = .ok ()) :
    ∀ variant ∈ program, ∀ step ∈ variant.steps, BusSound hw step.controls := by
  intro variant member step listed
  obtain ⟨place,found⟩ := List.mem_iff_getElem?.mp listed
  have steps := except_forM_ok.mp (except_forM_ok.mp checked variant member)
  exact Step.checkBuses_sound (steps (step,place) (List.mk_mem_zipIdx_iff_getElem?.mpr found))

end Program

namespace Compiler
variable {compiler : Compiler}

/-- A program that every check of a full compilation accepts. -/
structure Accepts (compiler : Compiler) (plain : Program) : Prop where
  busUse : plain.checkBusUse compiler.hardware = .ok ()
  fetchStage : plain.checkFetchStage compiler.hardware = .ok ()
  coverage : plain.checkCoverage compiler.catalog = .ok ()
  sequencing : (plain.sequenced compiler.counter).checkSequencing compiler.counter = .ok ()
  completeness : (plain.sequenced compiler.counter).checkCompleteness compiler.hardware = .ok ()

theorem runPasses_split {plain program : Program} :
    compiler.runPasses (Pass.pipeline.erase .merging) plain = .ok program ↔
      compiler.Accepts plain ∧ program = plain.sequenced compiler.counter := by
  have passes : Pass.pipeline.erase .merging =
      [.busUse,.fetchStage,.coverage,.addSequencing,.sequencing,.completeness] := rfl
  simp only [runPasses,passes,List.foldlM_cons,List.foldlM_nil,except_bind_ok,except_mapError_ok,
    Pass.run,except_map_ok]
  constructor
  · rintro ⟨_,⟨⟨⟩,busUse,rfl⟩,_,⟨⟨⟩,fetchStage,rfl⟩,_,⟨⟨⟩,coverage,rfl⟩,_,⟨⟩,_,⟨⟨⟩,sequencing,rfl⟩,_,
      ⟨⟨⟩,completeness,rfl⟩,⟨⟩⟩
    exact ⟨⟨busUse,fetchStage,coverage,sequencing,completeness⟩,rfl⟩
  · rintro ⟨⟨busUse,fetchStage,coverage,sequencing,completeness⟩,rfl⟩
    exact ⟨_,⟨(),busUse,rfl⟩,_,⟨(),fetchStage,rfl⟩,_,⟨(),coverage,rfl⟩,_,rfl,_,⟨(),sequencing,rfl⟩,_,
      ⟨(),completeness,rfl⟩,rfl⟩

theorem runPasses_merging (plain : Program) : compiler.runPasses Pass.pipeline plain =
    compiler.runPasses (Pass.pipeline.erase .merging) plain >>= fun ordered =>
      (Pass.merging.run compiler ordered).mapError (.rejected .merging) := by
  have passes : Pass.pipeline = Pass.pipeline.erase .merging ++ [.merging] := rfl
  unfold runPasses
  rw [passes,List.foldlM_append]
  simp only [List.foldlM_cons,List.foldlM_nil,bind_pure]
  rfl

theorem runPasses_pipeline {plain program : Program} :
    compiler.runPasses Pass.pipeline plain = .ok program ↔ compiler.Accepts plain ∧
      (plain.sequenced compiler.counter).merged compiler.hardware compiler.counter = .ok program := by
  rw [runPasses_merging,except_bind_ok]
  simp only [runPasses_split,except_mapError_ok]
  constructor
  · rintro ⟨_,⟨accepts,rfl⟩,merged⟩
    exact ⟨accepts,merged⟩
  · rintro ⟨accepts,merged⟩
    exact ⟨_,⟨accepts,rfl⟩,merged⟩

theorem program_ok {drafts : List Draft} {plain : Program} :
    compiler.program drafts = .ok plain ↔ Program.ofDrafts compiler.hardware drafts = .ok plain :=
  except_mapError_ok

theorem compile_sound
    (counts : ∀ line, compiler.counter.contains line = true →
      compiler.hardware.actionOf line = some .process)
    {drafts : List Draft} {table : ControlTable} (compiled : compiler.compile drafts = .ok table) :
    table = ControlTable.ofSorted table.entries ∧
      ∀ entry ∈ table.entries, BusSound compiler.hardware entry.controls := by
  obtain ⟨joined,passed,lowered⟩ := except_bind_ok.mp compiled
  obtain ⟨plain,_,passed⟩ := except_bind_ok.mp passed
  obtain ⟨accepts,merges⟩ := runPasses_pipeline.mp passed
  obtain ⟨sorted,members⟩ := ControlTable.lower_ok (except_mapError_ok.mp lowered)
  refine ⟨sorted,fun entry member => ?_⟩
  obtain ⟨variant,inside,listed⟩ := (members entry).mp member
  obtain ⟨place,step,found,rfl⟩ := ControlTable.mem_entriesOf.mp listed
  obtain ⟨sequenced,ordered,done⟩ := (Program.mem_merged merges).mp inside
  obtain ⟨first,given,rfl⟩ := Program.mem_sequenced.mp ordered
  have sound := Variant.sequencedSteps_sound counts
    (Program.checkBusUse_sound accepts.busUse first given)
  exact Variant.mergedSteps_sound counts (Program.merged_steps done).2.2 sound step
    (List.mem_of_getElem? found)

end Compiler
end Microprogram
