import Microprogram.Proofs.Computer.Microcode

/-! The two tables of the computer. The microcode compiles, with a cycle for each step
and with steps merged, and both tables begin every instruction with the fetch stage. -/
namespace Microprogram.Computer

namespace Design

/-- The control table of the microcode in which no steps are merged. -/
def splitTable (design : Design) : Except CompileError ControlTable := do
  let program ← design.compiler.program design.drafts
  Compiler.lower (← design.compiler.runPasses (Pass.pipeline.erase .merging) program)

/-- What compilation makes of the microcode of a design. -/
structure Compiles (design : Design) (plain joined : Program) (split merged : ControlTable) : Prop where
  layout : Layout.build = .ok design.layout
  drafts : Computer.drafts design.layout design.catalog = .ok design.drafts
  distinct : design.catalog.Distinct
  members : ∀ variant, variant ∈ plain ↔ ∃ draft ∈ design.drafts, draft.variant = variant
  accepts : design.compiler.Accepts plain
  regular : ∀ variant ∈ plain, ∃ later, Regular design.layout variant later
  joins : (plain.sequenced design.layout.controller.counter).merged design.layout.hardware
    design.layout.controller.counter = .ok joined
  split : ControlTable.lower (plain.sequenced design.layout.controller.counter) = .ok split
  merged : ControlTable.lower joined = .ok merged

theorem build_ok {design : Design} (built : build = .ok design) :
    Layout.build = .ok design.layout ∧ Computer.catalog = .ok design.catalog ∧
      Computer.drafts design.layout design.catalog = .ok design.drafts := by
  obtain ⟨layout,declared,built⟩ := except_bind_ok.mp built
  obtain ⟨catalog,listed,built⟩ := except_bind_ok.mp built
  obtain ⟨drafts,drafted,built⟩ := except_bind_ok.mp built
  cases built
  exact ⟨declared,listed,drafted⟩

theorem build_total : ∃ design, build = .ok design := by
  have passes := standard_accepted
  unfold accepted at passes
  unfold build
  rw [Layout.build_eq,except_ok_bind]
  cases listed : Computer.catalog with
  | error error =>
    rw [listed] at passes
    cases passes
  | ok catalog =>
    rw [listed] at passes
    dsimp only at passes
    rw [except_ok_bind]
    cases drafted : Computer.drafts Layout.standard catalog with
    | error error =>
      rw [drafted] at passes
      cases passes
    | ok drafts => exact ⟨_,rfl⟩

theorem build_accepted {design : Design} (built : build = .ok design) :
    ∃ plain, design.compiler.program design.drafts = .ok plain ∧ design.compiler.Accepts plain ∧
      ∀ draft ∈ design.drafts, isRegular design.layout draft.variant = true := by
  obtain ⟨declared,listed,drafted⟩ := build_ok built
  have standard : design.layout = Layout.standard := by
    rw [Layout.build_eq] at declared
    exact (Except.ok.inj declared).symm
  have passes := standard_accepted
  unfold accepted at passes
  rw [← standard,listed] at passes
  dsimp only at passes
  rw [drafted] at passes
  dsimp only at passes
  rw [Bool.and_eq_true,List.all_eq_true] at passes
  obtain ⟨compiled,regular⟩ := passes
  change (design.compiler.program design.drafts >>= _).isOk = true at compiled
  cases made : design.compiler.program design.drafts with
  | error error =>
    rw [made] at compiled
    cases compiled
  | ok plain =>
    rw [made,except_ok_bind] at compiled
    change (design.compiler.runPasses (Pass.pipeline.erase .merging) plain).isOk = true at compiled
    cases passed : design.compiler.runPasses (Pass.pipeline.erase .merging) plain with
    | error error =>
      rw [passed] at compiled
      cases compiled
    | ok program => exact ⟨plain,rfl,(Compiler.runPasses_split.mp passed).1,regular⟩

theorem compiles {design : Design} (built : build = .ok design) :
    ∃ plain joined split merged, design.Compiles plain joined split merged ∧
      design.splitTable = .ok split ∧ design.table = .ok merged := by
  obtain ⟨declared,listed,drafted⟩ := build_ok built
  obtain ⟨plain,made,accepts,checked⟩ := build_accepted built
  have wired := Layout.build_wired declared
  have members (variant : Variant) : variant ∈ plain ↔ ∃ draft ∈ design.drafts, draft.variant = variant :=
    Program.mem_ofDrafts (Compiler.program_ok.mp made)
  have regular : ∀ variant ∈ plain, ∃ later, Regular design.layout variant later := by
    intro variant member
    obtain ⟨draft,inside,rfl⟩ := (members variant).mp member
    exact ⟨_,regular_of_check (checked draft inside)⟩
  have dispatches := accepts.dispatches
  have sound : ∀ variant ∈ plain.sequenced design.compiler.counter, ∀ step ∈ variant.steps,
      BusSound design.compiler.hardware step.controls := by
    intro variant member
    obtain ⟨first,inside,rfl⟩ := Program.mem_sequenced.mp member
    exact Variant.sequencedSteps_sound wired.counter_line
      (Program.checkBusUse_sound accepts.busUse first inside)
  have short : ControlTable.Fits (plain.sequenced design.compiler.counter) := by
    intro variant member
    obtain ⟨first,inside,rfl⟩ := Program.mem_sequenced.mp member
    obtain ⟨later,given⟩ := regular first inside
    exact Nat.le_trans (Nat.le_of_eq (Variant.sequencedSteps_length first.steps)) given.short
  obtain ⟨joined,joins⟩ : ∃ joined, (plain.sequenced design.compiler.counter).merged
      design.compiler.hardware design.compiler.counter = .ok joined :=
    Program.merged_total fun variant member step inside => (sound variant member step inside).declared
  have fits : ControlTable.Fits joined := by
    intro variant member
    obtain ⟨first,inside,done⟩ := (Program.mem_merged joins).mp member
    exact Nat.le_trans (Variant.mergedSteps_length (Program.merged_steps done).2.2) (short first inside)
  obtain ⟨split,splits⟩ := ControlTable.lower_total dispatches short
  obtain ⟨merged,merges⟩ := ControlTable.lower_total (dispatches.merged joins) fits
  refine ⟨plain,joined,split,merged,⟨declared,drafted,Catalog.ofList_distinct listed,members,accepts,
    regular,joins,splits,merges⟩,?_,?_⟩
  · have passed := Compiler.runPasses_split.mpr ⟨accepts,rfl⟩
    unfold splitTable Compiler.lower
    rw [made,except_ok_bind,passed,except_ok_bind]
    exact except_mapError_ok.mpr splits
  · have passed := Compiler.runPasses_pipeline.mpr ⟨accepts,joins⟩
    unfold table Compiler.compile Compiler.compileProgram Compiler.lower
    rw [made,except_ok_bind,passed,except_ok_bind]
    exact except_mapError_ok.mpr merges

end Design
end Microprogram.Computer
