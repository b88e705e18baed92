import Microprogram.Microcode.Compiler
import Microprogram.Proofs.ControlTable.Dispatch

/-! What a compiled table answers. For an instruction of the catalog and a state of the
statuses it has the steps of the one variant that applies, and it has nothing else. -/
namespace Microprogram

/-- A table answers for a program by the one variant that applies. -/
structure ControlTable.Serves (table : ControlTable) (program : Program) (catalog : Catalog) :
    Prop where
  /-- Of an instruction one variant applies, and the table has its steps and no more. -/
  selects : ∀ d ∈ catalog.descriptors, ∀ status, ∃ variant,
    (∀ other, (other ∈ program.variantsOf d ∧ other.guard.holds status = true) ↔ other = variant) ∧
      ∀ place : UInt8, table.lookup d.opcode place status =
        variant.steps[place.toNat]?.map fun step => ⟨d,place,variant.guard,step.controls⟩
  /-- An opcode outside the catalog has no entry. -/
  unknown : ∀ opcode, (∀ d ∈ catalog.descriptors, d.opcode ≠ opcode) →
    ∀ place status, table.lookup opcode place status = none
  size : table.size = program.stepCount

namespace Compiler
variable {compiler : Compiler} {drafts : List Draft} {table : ControlTable}

theorem compile_ok : compiler.compile drafts = .ok table ↔
    ∃ program, compiler.compileProgram drafts = .ok program ∧
      ControlTable.lower program = .ok table := by
  unfold compile lower
  simp only [except_bind_ok,except_mapError_ok]

theorem compiles_of_isOk {make : Catalog → Compiler} {descriptors : List Descriptor}
    (fine : ((Catalog.ofList descriptors).mapError .structural >>= fun catalog =>
      (make catalog).compile drafts).isOk = true) : ∃ catalog table,
    Catalog.ofList descriptors = .ok catalog ∧ (make catalog).compile drafts = .ok table := by
  obtain ⟨table,made⟩ := except_of_isOk fine
  obtain ⟨catalog,cataloged,compiled⟩ := except_bind_ok.mp made
  exact ⟨catalog,table,except_mapError_ok.mp cataloged,compiled⟩

theorem compileProgram_ok {program : Program} : compiler.compileProgram drafts = .ok program ↔
    ∃ plain, Program.ofDrafts compiler.hardware drafts = .ok plain ∧ compiler.Accepts plain ∧
      (plain.sequenced compiler.counter).merged compiler.hardware compiler.counter = .ok program := by
  unfold compileProgram
  simp only [except_bind_ok,program_ok,runPasses_pipeline]

theorem serves_of_lower {program : Program} {catalog : Catalog}
    (dispatches : program.Dispatches catalog) (distinct : catalog.Distinct)
    (lowered : ControlTable.lower program = .ok table) : table.Serves program catalog := by
  refine ⟨?_,?_,ControlTable.lower_size lowered⟩
  · intro d member status
    obtain ⟨variant,inside,rfl,holds⟩ := dispatches.total d member status
    refine ⟨variant,fun other => ⟨?_,?_⟩,fun place => ?_⟩
    · rintro ⟨listed,applies⟩
      obtain ⟨also,same⟩ := Program.mem_variantsOf.mp listed
      exact dispatches.single other also variant inside same (Guard.overlaps_of_holds applies holds)
    · rintro rfl
      exact ⟨Program.mem_variantsOf.mpr ⟨inside,rfl⟩,holds⟩
    · exact ControlTable.lookup_entry lowered dispatches distinct inside ⟨rfl,holds⟩ place
  · intro opcode outside place status
    exact ControlTable.lookup_unknown lowered
      (fun variant member => outside _ (dispatches.known variant member)) place

/-- A compiled table serves the program that compilation ends with. -/
theorem compiled_serves {descriptors : List Descriptor}
    (cataloged : Catalog.ofList descriptors = .ok compiler.catalog)
    (compiled : compiler.compile drafts = .ok table) :
    ∃ program, compiler.compileProgram drafts = .ok program ∧
      table.Serves program compiler.catalog := by
  obtain ⟨program,ended,lowered⟩ := compile_ok.mp compiled
  obtain ⟨plain,_,accepts,merges⟩ := compileProgram_ok.mp ended
  exact ⟨program,ended,serves_of_lower (accepts.dispatches.merged merges)
    (Catalog.ofList_distinct cataloged) lowered⟩

/-- A branch that skips a step while the carry is clear, beside an instruction without
any choice. -/
def skipping (catalog : Catalog) : Compiler where
  hardware := {
    components := #[⟨"","/",none⟩]
    controls := #[⟨"step","/step",⟨0⟩,.process,true⟩,⟨"begin","/begin",⟨0⟩,.process,true⟩,
      ⟨"count","/count",⟨0⟩,.process,true⟩]
    statuses := #[⟨"carry","/carry",⟨0⟩⟩]
    buses := #[]
    paths := ∅ }
  catalog := catalog
  counter := ⟨⟨0⟩,⟨1⟩⟩

def skippingDescriptors : List Descriptor :=
  [⟨1,"nop",.none,"No operation"⟩,⟨2,"bcs",.absolute,"Branch if carry set"⟩]

def skippingDrafts : List Draft := [
  .ofEdits ⟨2,"bcs",.absolute,"Branch if carry set"⟩
    [.gate ⟨0⟩ true,.nextStage,.raise ⟨2⟩,.nextStage,.raise ⟨2⟩],
  .ofEdits ⟨2,"bcs",.absolute,"Branch if carry set"⟩ [.gate ⟨0⟩ false,.nextStage,.raise ⟨2⟩],
  .ofEdits ⟨1,"nop",.none,"No operation"⟩ [.nextStage,.step [] []]]

theorem skipping_serves : ∃ catalog table program,
    Catalog.ofList skippingDescriptors = .ok catalog ∧
      (skipping catalog).compile skippingDrafts = .ok table ∧
      (skipping catalog).compileProgram skippingDrafts = .ok program ∧
      table.Serves program catalog := by
  obtain ⟨catalog,table,cataloged,compiled⟩ :=
    @compiles_of_isOk skippingDrafts skipping skippingDescriptors (by decide +kernel)
  obtain ⟨program,ended,serves⟩ := compiled_serves cataloged compiled
  exact ⟨catalog,table,program,cataloged,compiled,ended,serves⟩

end Compiler
end Microprogram
