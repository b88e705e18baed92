import Mathlib.Data.List.Nodup
import Microprogram.Proofs.ControlTable.Lookup
import Microprogram.Proofs.Microcode.Dispatch

/-! Lookup in a lowered program. The variant that applies to an opcode gives its steps
in their order, and an opcode without a descriptor gives nothing. -/
namespace Microprogram.ControlTable

def Fits (program : Program) : Prop := ∀ variant ∈ program, variant.steps.length ≤ 256

private theorem mapM_lowerVariant {variants : List Variant}
    (short : ∀ variant ∈ variants, variant.steps.length ≤ 256) :
    variants.mapM lowerVariant = .ok (variants.map entriesOf) := by
  induction variants with
  | nil => rfl
  | cons variant rest ih =>
    obtain ⟨first,others⟩ := List.forall_mem_cons.mp short
    rw [List.mapM_cons,lowerVariant_ok.mpr ⟨first,rfl⟩,except_ok_bind,ih others]
    rfl

private theorem keys_entriesOf (variant : Variant) :
    (entriesOf variant).map Entry.key = (List.range variant.steps.length).map fun place =>
      ⟨variant.descriptor,UInt8.ofNat place,variant.guard⟩ := by
  rw [List.range_eq_range',← List.zipIdx_map_snd 0 variant.steps,entriesOf,List.map_map,List.map_map]
  rfl

theorem ofNat_inj {place other : Nat} (low : place < 256) (also : other < 256)
    (same : UInt8.ofNat place = UInt8.ofNat other) : place = other := by
  have values := congrArg UInt8.toNat same
  rwa [UInt8.toNat_ofNat_of_lt' low,UInt8.toNat_ofNat_of_lt' also] at values

theorem lower_total {program : Program} {catalog : Catalog} (dispatches : program.Dispatches catalog)
    (short : Fits program) : ∃ table, lower program = .ok table := by
  unfold lower
  rw [mapM_lowerVariant short,except_ok_bind]
  refine ofEntries_total ?_
  rw [List.map_flatten,List.map_map,List.nodup_flatten]
  constructor
  · intro keys member
    obtain ⟨variant,inside,rfl⟩ := List.mem_map.mp member
    rw [Function.comp_apply,keys_entriesOf]
    refine List.Nodup.map_on ?_ List.nodup_range
    intro place low other also same
    have bound := short variant inside
    rw [List.mem_range] at low also
    exact ofNat_inj (by omega) (by omega) (congrArg Entry.Key.step same)
  · rw [List.pairwise_map]
    refine program.nodup.pairwise_of_forall_ne ?_
    intro variant member other also different
    simp only [Function.comp_apply,keys_entriesOf]
    rw [List.disjoint_left]
    intro key first second
    obtain ⟨_,_,rfl⟩ := List.mem_map.mp first
    obtain ⟨_,_,same⟩ := List.mem_map.mp second
    have guards : other.guard = variant.guard := congrArg Entry.Key.guard same
    refine different (dispatches.single variant member other also ?_ ?_)
    · exact (congrArg Entry.Key.descriptor same).symm
    · rw [guards]
      exact Guard.overlaps_self _

theorem fits_of_lower {program : Program} {table : ControlTable} (lowered : lower program = .ok table) :
    Fits program := by
  intro variant member
  obtain ⟨lists,listed,_⟩ := except_bind_ok.mp lowered
  obtain ⟨entries,_,made⟩ := (except_mapM_ok listed).1 variant member
  exact (lowerVariant_ok.mp made).1

section Lookup
variable {program : Program} {catalog : Catalog} {table : ControlTable}
  (lowered : lower program = .ok table) {opcode : UInt8} {status : StatusId → Bool}
include lowered

theorem lookup_unknown (unknown : ∀ variant ∈ program, variant.descriptor.opcode ≠ opcode)
    (place : UInt8) : table.lookup opcode place status = none := by
  obtain ⟨sorted,members⟩ := lower_ok lowered
  rw [sorted]
  refine lookup_none fun entry member of => ?_
  obtain ⟨variant,inside,listed⟩ := (members entry).mp member
  obtain ⟨_,_,_,rfl⟩ := mem_entriesOf.mp listed
  exact absurd of (unknown variant inside)

/-- At each place the table has the step of the variant that applies. -/
theorem lookup_entry (dispatches : program.Dispatches catalog) (distinct : catalog.Distinct)
    {variant : Variant} (member : variant ∈ program) (applies : variant.Answers opcode status)
    (place : UInt8) : table.lookup opcode place status = variant.steps[place.toNat]?.map fun step =>
      ⟨variant.descriptor,place,variant.guard,step.controls⟩ := by
  obtain ⟨sorted,members⟩ := lower_ok lowered
  have short := fits_of_lower lowered
  have answering : ∀ entry ∈ table.entries, entry.descriptor.opcode = opcode →
      entry.answers place status = true → ∃ step, variant.steps[place.toNat]? = some step ∧
        entry = ⟨variant.descriptor,place,variant.guard,step.controls⟩ := by
    intro entry among of answers
    obtain ⟨other,inside,listed⟩ := (members entry).mp among
    obtain ⟨index,step,found,rfl⟩ := mem_entriesOf.mp listed
    simp only [Entry.answers,Bool.and_eq_true,decide_eq_true_iff] at answers
    obtain ⟨rfl,holds⟩ := answers
    obtain rfl := dispatches.unique distinct inside member ⟨of,holds⟩ applies
    have low : index < other.steps.length := (List.getElem?_eq_some_iff.mp found).1
    have bound := short other inside
    rw [UInt8.toNat_ofNat_of_lt' (by omega : index < 256)]
    exact ⟨step,found,rfl⟩
  rw [sorted]
  cases found : variant.steps[place.toNat]? with
  | none =>
    refine lookup_none fun entry among of => ?_
    rw [← Bool.not_eq_true]
    intro answers
    obtain ⟨step,given,_⟩ := answering entry among of answers
    rw [found] at given
    cases given
  | some step =>
    have listed : ⟨variant.descriptor,place,variant.guard,step.controls⟩ ∈ entriesOf variant :=
      mem_entriesOf.mpr ⟨place.toNat,step,found,by rw [UInt8.ofNat_toNat]⟩
    refine lookup_unique ((members _).mpr ⟨variant,member,listed⟩) applies.opcode ?_ ?_
    · simp [Entry.answers,applies.guard]
    · intro other among of answers
      obtain ⟨given,same,equal⟩ := answering other among of answers
      rw [found,Option.some.injEq] at same
      rw [equal,same]

theorem lookup_step (dispatches : program.Dispatches catalog) (distinct : catalog.Distinct)
    {variant : Variant} (member : variant ∈ program) (applies : variant.Answers opcode status)
    (place : UInt8) : (table.lookup opcode place status).map Entry.controls =
      variant.steps[place.toNat]?.map Step.controls := by
  rw [lookup_entry lowered dispatches distinct member applies,Option.map_map]
  rfl

theorem lower_size : table.size = program.stepCount := by
  obtain ⟨lists,listed,made⟩ := except_bind_ok.mp lowered
  rw [mapM_lowerVariant (fits_of_lower lowered)] at listed
  cases listed
  rw [ofEntries_size made,Program.stepCount_eq,Program.steps,List.length_flatten,List.map_map,
    List.length_flatMap]
  refine congrArg List.sum (List.map_congr_left fun variant _ => ?_)
  simp [entriesOf]

end Lookup
end Microprogram.ControlTable
