import Microprogram.Proofs.ControlTable.Encoding
import Microprogram.Proofs.ControlTable.FetchStage

/-! Sequencing in a compiled table. The entries of a variant are numbered from zero on without
a gap; all but the last of them count up, and the last begins anew. -/
namespace Microprogram

namespace ControlTable
variable {program : Program} {catalog : Catalog} {table : ControlTable}

/-- The entries of one variant of an instruction, in their order. -/
def entriesUnder (table : ControlTable) (descriptor : Descriptor) (guard : Guard) : List Entry :=
  table.entries.filter fun entry => entry.descriptor = descriptor && entry.guard = guard

/-- Entries that go through the steps of a variant, one after the other. -/
structure Sequences (counter : StepCounter) (variant : Variant) (entries : List Entry) : Prop where
  controls : entries.map Entry.controls = variant.steps.map Step.controls
  places : entries.map (fun entry => entry.step.toNat) = List.range variant.steps.length
  some : variant.steps ≠ []
  counts : ∀ entry ∈ entries, entry.step.toNat + 1 < variant.steps.length →
    counter.increment ∈ entry.controls ∧ counter.reset ∉ entry.controls
  resets : ∀ entry ∈ entries, entry.step.toNat + 1 = variant.steps.length →
    counter.reset ∈ entry.controls ∧ counter.increment ∉ entry.controls

theorem mem_entriesUnder {descriptor : Descriptor} {guard : Guard} {entry : Entry} :
    entry ∈ table.entriesUnder descriptor guard ↔
      entry ∈ table.entries ∧ entry.descriptor = descriptor ∧ entry.guard = guard := by
  simp [entriesUnder]

theorem entriesOf_ascending {variant : Variant} (short : variant.steps.length ≤ 256) :
    Sorted.Ascending Entry.key (entriesOf variant) := by
  apply List.pairwise_iff_getElem.mpr
  intro place other low high before
  simp only [entriesOf,List.length_map,List.length_zipIdx] at low high
  simp only [entriesOf,List.getElem_map,List.getElem_zipIdx,Nat.zero_add]
  have steps : compare (UInt8.ofNat place) (UInt8.ofNat other) = .lt := by
    apply Std.compare_eq_lt.mpr
    rw [UInt8.lt_iff_toNat_lt,UInt8.toNat_ofNat_of_lt' (by omega : place < 256),
      UInt8.toNat_ofNat_of_lt' (by omega : other < 256)]
    exact before
  change (compare variant.descriptor variant.descriptor).then
    ((compare (UInt8.ofNat place) (UInt8.ofNat other)).then _) = .lt
  rw [Std.ReflOrd.compare_self,steps]
  rfl

section Lowered
variable (lowered : lower program = .ok table)
include lowered

theorem lower_ascending : Sorted.Ascending Entry.key table.entries := by
  obtain ⟨lists,_,made⟩ := except_bind_ok.mp lowered
  exact ofEntries_ascending made

theorem entriesUnder_eq (dispatches : program.Dispatches catalog) {variant : Variant}
    (member : variant ∈ program) :
    table.entriesUnder variant.descriptor variant.guard = entriesOf variant := by
  refine Sorted.Ascending.ext (List.Pairwise.filter _ (lower_ascending lowered))
    (entriesOf_ascending (fits_of_lower lowered variant member)) fun entry => ?_
  rw [mem_entriesUnder,(lower_ok lowered).2]
  constructor
  · rintro ⟨⟨other,inside,listed⟩,of,guarded⟩
    obtain ⟨place,step,found,rfl⟩ := mem_entriesOf.mp listed
    rw [← dispatches.single other inside variant member of (guarded ▸ Guard.overlaps_self _)]
    exact listed
  · intro listed
    refine ⟨⟨variant,member,listed⟩,?_⟩
    obtain ⟨place,step,found,rfl⟩ := mem_entriesOf.mp listed
    exact ⟨rfl,rfl⟩

end Lowered

theorem sequences_entriesOf {counter : StepCounter} {variant : Variant}
    (short : variant.steps.length ≤ 256) (ordered : Variant.InSequence counter variant.steps) :
    Sequences counter variant (entriesOf variant) where
  controls := by
    apply List.ext_getElem
    · simp [entriesOf]
    · intro place low high
      simp [entriesOf]
  places := by
    apply List.ext_getElem
    · simp [entriesOf]
    · intro place low high
      have low : place < variant.steps.length := by simpa [entriesOf] using low
      simp [entriesOf,Nat.mod_eq_of_lt (by omega : place < 256)]
  some := ordered.not_nil
  counts entry listed := by
    obtain ⟨place,step,found,rfl⟩ := mem_entriesOf.mp listed
    have low : place < variant.steps.length := (List.getElem?_eq_some_iff.mp found).1
    rw [UInt8.toNat_ofNat_of_lt' (by omega : place < 256)]
    exact ordered.counts found
  resets entry listed := by
    obtain ⟨place,step,found,rfl⟩ := mem_entriesOf.mp listed
    have low : place < variant.steps.length := (List.getElem?_eq_some_iff.mp found).1
    rw [UInt8.toNat_ofNat_of_lt' (by omega : place < 256)]
    exact ordered.resets found

end ControlTable

namespace Compiler
variable {compiler : Compiler} {drafts : List Draft} {table : ControlTable}

theorem compiled_sequences (compiled : compiler.compile drafts = .ok table) :
    ∃ program, compiler.compileProgram drafts = .ok program ∧
      (∀ entry ∈ table.entries, ∃ variant ∈ program,
        entry ∈ table.entriesUnder variant.descriptor variant.guard) ∧
      ∀ variant ∈ program, ControlTable.Sequences compiler.counter variant
        (table.entriesUnder variant.descriptor variant.guard) := by
  obtain ⟨program,ended,lowered⟩ := compile_ok.mp compiled
  obtain ⟨plain,_,accepts,merges⟩ := compileProgram_ok.mp ended
  have dispatches := accepts.dispatches.merged merges
  refine ⟨program,ended,fun entry listed => ?_,fun variant member => ?_⟩
  · obtain ⟨variant,member,inside⟩ := ((ControlTable.lower_ok lowered).2 entry).mp listed
    exact ⟨variant,member,ControlTable.entriesUnder_eq lowered dispatches member ▸ inside⟩
  · rw [ControlTable.entriesUnder_eq lowered dispatches member]
    exact ControlTable.sequences_entriesOf (ControlTable.fits_of_lower lowered variant member)
      (compiled_variant accepts merges member).1

end Compiler
end Microprogram
