import Microprogram.Computer.Microcode
import Microprogram.Proofs.Computer.Layout
import Microprogram.Proofs.ControlTable.Compilation
import Microprogram.Proofs.Microcode.Drafts
import Microprogram.Proofs.Microcode.FetchStage

/-! The fetch stage in a compiled table. Its ticks are the same whatever opcode is left from
before, provided that all variants go on after it or none does: where only some do, the last
tick of the stage goes on in those and begins anew in the others. -/
namespace Microprogram

theorem Program.ticks_of_same (program : Program) (same : ∀ variant ∈ program, ∀ other ∈ program,
    variant.fetchStage.length = other.fetchStage.length) :
    ∃ ticks, ∀ variant ∈ program, variant.fetchStage.length = ticks := by
  by_cases some : ∃ variant, variant ∈ program
  · obtain ⟨reference,given⟩ := some
    exact ⟨_,fun variant member => same variant member reference given⟩
  · exact ⟨0,fun variant member => absurd ⟨variant,member⟩ some⟩

namespace ControlTable
variable {program : Program} {table : ControlTable}

/-- Every variant fetches in the first `ticks` steps, and these are the same for all of them. -/
structure FetchesAlike (table : ControlTable) (program : Program) (catalog : Catalog)
    (ticks : Nat) : Prop where
  length : ∀ variant ∈ program, variant.fetchStage.length = ticks
  entries : ∀ entry ∈ table.entries, ∀ other ∈ table.entries, entry.step = other.step →
    entry.step.toNat < ticks → entry.controls = other.controls
  /-- Whatever the opcode and the statuses are. -/
  lookups : ∀ d ∈ catalog.descriptors, ∀ other ∈ catalog.descriptors, ∀ status others,
    ∀ place : UInt8, place.toNat < ticks → ∃ controls,
      (table.lookup d.opcode place status).map Entry.controls = some controls ∧
        (table.lookup other.opcode place others).map Entry.controls = some controls

/-- The same but for the step counter in the last of these steps. -/
structure FetchesAlmostAlike (table : ControlTable) (program : Program) (counter : StepCounter)
    (ticks : Nat) : Prop where
  length : ∀ variant ∈ program, variant.fetchStage.length = ticks
  lines : ∀ entry ∈ table.entries, ∀ other ∈ table.entries, entry.step = other.step →
    entry.step.toNat < ticks → ∀ line, counter.contains line = false →
      (line ∈ entry.controls ↔ line ∈ other.controls)
  early : ∀ entry ∈ table.entries, ∀ other ∈ table.entries, entry.step = other.step →
    entry.step.toNat + 1 < ticks → entry.controls = other.controls

section Lowered
variable (lowered : lower program = .ok table)
include lowered

theorem entry_step {entry : Entry} (member : entry ∈ table.entries) :
    ∃ variant ∈ program, ∃ step, variant.steps[entry.step.toNat]? = some step ∧
      entry.controls = step.controls := by
  obtain ⟨variant,inside,listed⟩ := ((lower_ok lowered).2 entry).mp member
  obtain ⟨place,step,found,rfl⟩ := mem_entriesOf.mp listed
  have low : place < variant.steps.length := (List.getElem?_eq_some_iff.mp found).1
  have short := fits_of_lower lowered variant inside
  refine ⟨variant,inside,step,?_,rfl⟩
  rw [UInt8.toNat_ofNat_of_lt' (by omega : place < 256)]
  exact found

theorem step_entry {variant : Variant} (member : variant ∈ program) {place : Nat} {step : Step}
    (found : variant.steps[place]? = some step) :
    ∃ entry ∈ table.entries, entry.step.toNat = place ∧ entry.controls = step.controls := by
  have low : place < variant.steps.length := (List.getElem?_eq_some_iff.mp found).1
  have short := fits_of_lower lowered variant member
  refine ⟨⟨variant.descriptor,.ofNat place,variant.guard,step.controls⟩,?_,?_,rfl⟩
  · exact ((lower_ok lowered).2 _).mpr ⟨variant,member,mem_entriesOf.mpr ⟨place,step,found,rfl⟩⟩
  · exact UInt8.toNat_ofNat_of_lt' (by omega : place < 256)

theorem fetchesAlike_of_same {catalog : Catalog} (dispatches : program.Dispatches catalog)
    (distinct : catalog.Distinct)
    (same : ∀ variant ∈ program, ∀ other ∈ program, variant.fetchStage = other.fetchStage) :
    ∃ ticks, table.FetchesAlike program catalog ticks := by
  obtain ⟨ticks,lengths⟩ := program.ticks_of_same fun variant member other inside =>
    congrArg List.length (same variant member other inside)
  have fetched {variant other : Variant} (member : variant ∈ program) (inside : other ∈ program)
      {place : Nat} (early : place < ticks) : variant.steps[place]? = other.steps[place]? := by
    rw [← variant.fetchStage_getElem? (lengths variant member ▸ early),
      ← other.fetchStage_getElem? (lengths other inside ▸ early),same variant member other inside]
  refine ⟨ticks,lengths,?_,?_⟩
  · intro entry member other also place early
    obtain ⟨variant,inside,step,found,controls⟩ := entry_step lowered member
    obtain ⟨second,within,next,given,assigned⟩ := entry_step lowered also
    rw [fetched inside within early,place,given,Option.some.injEq] at found
    rw [controls,assigned,found]
  · intro d known other also status others place early
    obtain ⟨variant,inside,rfl,holds⟩ := dispatches.total d known status
    obtain ⟨second,within,rfl,applies⟩ := dispatches.total other also others
    have low : place.toNat < variant.steps.length :=
      (lengths variant inside ▸ early).trans_le variant.fetchStage_length_le
    refine ⟨variant.steps[place.toNat].controls,?_,?_⟩
    · rw [lookup_step lowered dispatches distinct inside ⟨rfl,holds⟩,List.getElem?_eq_getElem low]
      rfl
    · rw [lookup_step lowered dispatches distinct within ⟨rfl,applies⟩,fetched within inside early,
        List.getElem?_eq_getElem low]
      rfl

end Lowered
end ControlTable

namespace Compiler
variable {compiler : Compiler} {drafts : List Draft} {plain program : Program} {table : ControlTable}

section Accepted
variable (accepts : compiler.Accepts plain)
  (merges : (plain.sequenced compiler.counter).merged compiler.hardware compiler.counter = .ok program)
  (lowered : ControlTable.lower program = .ok table)
include merges

theorem variant_compiled {first : Variant} (given : first ∈ plain) : ∃ variant ∈ program,
    (first.sequenced compiler.counter).merged compiler.hardware compiler.counter = .ok variant := by
  obtain ⟨variants,mapped,_⟩ := except_bind_ok.mp merges
  obtain ⟨variant,_,joins⟩ := (except_mapM_ok mapped).1 _ (Program.mem_sequenced.mpr ⟨first,given,rfl⟩)
  exact ⟨variant,(Program.mem_merged merges).mpr ⟨_,Program.mem_sequenced.mpr ⟨first,given,rfl⟩,joins⟩,
    joins⟩

include accepts

theorem compiled_variant {variant : Variant} (member : variant ∈ program) :
    Variant.InSequence compiler.counter variant.steps ∧ ∃ first ∈ plain,
      (first.sequenced compiler.counter).merged compiler.hardware compiler.counter = .ok variant := by
  obtain ⟨ordered,inside,joins⟩ := (Program.mem_merged merges).mp member
  obtain ⟨first,given,rfl⟩ := Program.mem_sequenced.mp inside
  exact ⟨Variant.mergedSteps_inSequence (Program.merged_steps joins).2.2 (accepts.inSequence inside),
    first,given,joins⟩

include lowered

/-- Variants of which some go on after the fetch stage and some end with it part in its
last step: there the former count up and the latter begin anew. -/
theorem goesOn_of_fetchesAlike {catalog : Catalog} {ticks : Nat}
    (alike : table.FetchesAlike program catalog ticks) {first second : Variant} (given : first ∈ plain)
    (also : second ∈ plain) (goes : first.GoesOn) : second.GoesOn := by
  by_contra ends
  obtain ⟨variant,member,joins⟩ := variant_compiled merges given
  obtain ⟨other,inside,joined⟩ := variant_compiled merges also
  have ordered := (compiled_variant accepts merges member).1
  have sequence := (compiled_variant accepts merges inside).1
  have longer := variant.goesOn_iff.mp ((Variant.merged_goesOn joins).mpr goes)
  have whole : other.fetchStage.length = other.steps.length :=
    other.fetchStage_length_le.antisymm
      (Nat.le_of_not_lt (mt other.goesOn_iff.mpr (mt (Variant.merged_goesOn joined).mp ends)))
  have more := List.length_pos_of_ne_nil sequence.not_nil
  have ticking := alike.length variant member
  have also := alike.length other inside
  obtain ⟨step,found⟩ : ∃ step, variant.steps[ticks - 1]? = some step :=
    ⟨_,List.getElem?_eq_getElem (by omega)⟩
  obtain ⟨last,ended⟩ : ∃ step, other.steps[ticks - 1]? = some step :=
    ⟨_,List.getElem?_eq_getElem (by omega)⟩
  obtain ⟨entry,listed,place,controls⟩ := ControlTable.step_entry lowered member found
  obtain ⟨final,among,index,assigned⟩ := ControlTable.step_entry lowered inside ended
  have equal := alike.entries entry listed final among (UInt8.toNat_inj.mp (place.trans index.symm))
    (by omega)
  rw [controls,assigned] at equal
  exact (ordered.counts found (by omega)).2 (equal ▸ (sequence.resets ended (by omega)).1)

/-- Where the step counter drives no bus, the fetch stage comes to as many ticks in every
variant, and these differ in nothing but how the last one counts. -/
theorem fetches_almost_alike (counts : ∀ line, compiler.counter.contains line = true →
    compiler.hardware.actionOf line = some .process) :
    ∃ ticks, table.FetchesAlmostAlike program compiler.counter ticks := by
  have uncounted {variant other : Variant} (member : variant ∈ program) (inside : other ∈ program) :
      variant.fetchStage.map (Step.uncounted compiler.counter) =
        other.fetchStage.map (Step.uncounted compiler.counter) := by
    obtain ⟨_,first,given,joins⟩ := compiled_variant accepts merges member
    obtain ⟨_,second,also,joined⟩ := compiled_variant accepts merges inside
    have same := Program.checkFetchStage_ok.mp accepts.fetchStage first given second also
    exact Variant.fetchStage_uncounted joins joined same counts
  obtain ⟨ticks,lengths⟩ := program.ticks_of_same fun variant member other inside => by
    simpa using congrArg List.length (uncounted member inside)
  -- Two entries of one fetch step come from steps that differ in the counter's lines alone.
  have lines : ∀ entry ∈ table.entries, ∀ other ∈ table.entries, entry.step = other.step →
      entry.step.toNat < ticks → ∀ line, compiler.counter.contains line = false →
        (line ∈ entry.controls ↔ line ∈ other.controls) := by
    intro entry member other also place early line apart
    obtain ⟨variant,inside,step,found,controls⟩ := ControlTable.entry_step lowered member
    obtain ⟨second,within,next,given,assigned⟩ := ControlTable.entry_step lowered also
    rw [← variant.fetchStage_getElem? (lengths variant inside ▸ early)] at found
    rw [← place,← second.fetchStage_getElem? (lengths second within ▸ early)] at given
    have mapped := congrArg (·[entry.step.toNat]?) (uncounted inside within)
    simp only [List.getElem?_map,found,given,Option.map_some,Option.some.injEq] at mapped
    have same : line ∈ (step.uncounted compiler.counter).controls ↔
        line ∈ (next.uncounted compiler.counter).controls := by rw [mapped]
    rw [controls,assigned]
    simpa only [Step.mem_uncounted,apart,and_true] using same
  refine ⟨ticks,lengths,lines,?_⟩
  intro entry member other also place early
  have ordered {entry : Entry} (member : entry ∈ table.entries) (early : entry.step.toNat + 1 < ticks) :
      compiler.counter.increment ∈ entry.controls ∧ compiler.counter.reset ∉ entry.controls := by
    obtain ⟨variant,inside,step,found,controls⟩ := ControlTable.entry_step lowered member
    rw [controls]
    exact (compiled_variant accepts merges inside).1.counts found
      ((lengths variant inside ▸ early).trans_le variant.fetchStage_length_le)
  have first := ordered member early
  have second := ordered also (place ▸ early)
  refine SortedSet.ext_mem fun line => ?_
  cases counted : compiler.counter.contains line with
  | false => exact lines entry member other also place (by omega) line counted
  | true =>
    simp only [StepCounter.contains,Bool.or_eq_true,decide_eq_true_eq] at counted
    rcases counted with rfl | rfl
    · exact iff_of_true first.1 second.1
    · exact iff_of_false first.2 second.2

end Accepted

/-- The ticks of the fetch stage are the same for all opcodes and statuses exactly if all
variants go on after it or none does. Otherwise they part in the step counter of the last. -/
theorem fetch_independent {descriptors : List Descriptor}
    (cataloged : Catalog.ofList descriptors = .ok compiler.catalog)
    (compiled : compiler.compile drafts = .ok table) :
    ∃ program, compiler.compileProgram drafts = .ok program ∧
      ((∃ ticks, table.FetchesAlike program compiler.catalog ticks) ↔
        (∀ draft ∈ drafts, draft.variant.GoesOn) ∨ ∀ draft ∈ drafts, ¬draft.variant.GoesOn) ∧
      ((∀ line, compiler.counter.contains line = true →
          compiler.hardware.actionOf line = some .process) →
        ∃ ticks, table.FetchesAlmostAlike program compiler.counter ticks) := by
  obtain ⟨program,ended,lowered⟩ := compile_ok.mp compiled
  obtain ⟨plain,made,accepts,merges⟩ := compileProgram_ok.mp ended
  have given (draft : Draft) (member : draft ∈ drafts) : draft.variant ∈ plain :=
    (Program.mem_ofDrafts made).mpr ⟨draft,member,rfl⟩
  refine ⟨program,ended,⟨?_,?_⟩,fetches_almost_alike accepts merges lowered⟩
  · rintro ⟨ticks,alike⟩
    refine or_iff_not_imp_right.mpr fun some draft member => ?_
    simp only [not_forall,not_not] at some
    obtain ⟨first,listed,goes⟩ := some
    exact goesOn_of_fetchesAlike accepts merges lowered alike (given first listed)
      (given draft member) goes
  · intro uniform
    refine ControlTable.fetchesAlike_of_same lowered (accepts.dispatches.merged merges)
      (Catalog.ofList_distinct cataloged) fun variant member other inside => ?_
    obtain ⟨_,first,among,joins⟩ := compiled_variant accepts merges member
    obtain ⟨_,second,also,joined⟩ := compiled_variant accepts merges inside
    refine Variant.fetchStage_congr joins joined
      (Program.checkFetchStage_ok.mp accepts.fetchStage first among second also) ?_
    obtain ⟨draft,listed,rfl⟩ := (Program.mem_ofDrafts made).mp among
    obtain ⟨next,within,rfl⟩ := (Program.mem_ofDrafts made).mp also
    rcases uniform with all | none
    · exact iff_of_true (all draft listed) (all next within)
    · exact iff_of_false (none draft listed) (none next within)

def pairDescriptors : List Descriptor := [⟨1,"nop",.none,""⟩,⟨2,"inx",.none,""⟩]

/-- Two instructions that fetch; the first one goes on by the given edits. -/
def pairDrafts (idle : List Edit) : List Draft := [
  .ofEdits ⟨1,"nop",.none,""⟩ (Computer.fetch .standard ++ idle),
  .ofEdits ⟨2,"inx",.none,""⟩ (Computer.fetch .standard ++ Computer.increment Layout.standard.x)]

theorem pair_fetches_alike : ∃ catalog table program,
    Catalog.ofList pairDescriptors = .ok catalog ∧
      (Computer.compiler .standard catalog).compile (pairDrafts [.step [] []]) = .ok table ∧
      (Computer.compiler .standard catalog).compileProgram (pairDrafts [.step [] []]) = .ok program ∧
      ∃ ticks, table.FetchesAlike program catalog ticks := by
  have goes : ∀ draft ∈ pairDrafts [.step [] []], draft.variant.GoesOn := by decide +kernel
  obtain ⟨catalog,table,cataloged,compiled⟩ :=
    @compiles_of_isOk (pairDrafts [.step [] []]) (Computer.compiler .standard) pairDescriptors
      (by decide +kernel)
  obtain ⟨program,ended,alike,_⟩ := fetch_independent cataloged compiled
  exact ⟨catalog,table,program,cataloged,compiled,ended,alike.mpr (.inl goes)⟩

/-- An instruction that ends with its fetch stage begins anew in the tick in which the
other one goes on. -/
theorem pair_fetches_apart : ∃ catalog table program,
    Catalog.ofList pairDescriptors = .ok catalog ∧
      (Computer.compiler .standard catalog).compile (pairDrafts []) = .ok table ∧
      (Computer.compiler .standard catalog).compileProgram (pairDrafts []) = .ok program ∧
      ¬∃ ticks, table.FetchesAlike program catalog ticks := by
  have goes : (∃ draft ∈ pairDrafts [], draft.variant.GoesOn) ∧
      ∃ draft ∈ pairDrafts [], ¬draft.variant.GoesOn := by decide +kernel
  obtain ⟨catalog,table,cataloged,compiled⟩ :=
    @compiles_of_isOk (pairDrafts []) (Computer.compiler .standard) pairDescriptors
      (by decide +kernel)
  obtain ⟨program,ended,lowered⟩ := compile_ok.mp compiled
  obtain ⟨plain,drafted,accepts,merges⟩ := compileProgram_ok.mp ended
  refine ⟨catalog,table,program,cataloged,compiled,ended,?_⟩
  rintro ⟨ticks,alike⟩
  obtain ⟨⟨first,listed,on⟩,second,among,ends⟩ := goes
  exact ends (goesOn_of_fetchesAlike accepts merges lowered alike
    ((Program.mem_ofDrafts drafted).mpr ⟨first,listed,rfl⟩)
    ((Program.mem_ofDrafts drafted).mpr ⟨second,among,rfl⟩) on)

end Compiler
end Microprogram
