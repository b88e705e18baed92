import Mathlib.Data.List.Pairwise
import Microprogram.Microcode.Completeness
import Microprogram.Microcode.Pass
import Microprogram.Proofs.Instruction.Catalog
import Microprogram.Proofs.Microcode.Compiled
import Microprogram.Proofs.Microcode.Sequencing
import Microprogram.Proofs.Sorted.Map

/-! Dispatch. In an accepted program every instruction of the catalog has exactly one
variant for each state of the statuses. -/
namespace Microprogram

namespace Guard

theorem holds_iff {guard : Guard} {status : StatusId → Bool} :
    guard.holds status = true ↔ ∀ line value, guard.get? line = some value → status line = value := by
  simp only [holds,List.all_eq_true,beq_iff_eq,Prod.forall,SortedMap.get?_eq_some]

theorem overlaps_iff {guard other : Guard} :
    guard.overlaps other = true ↔ ∀ line value also, guard.get? line = some value →
      other.get? line = some also → also = value := by
  simp only [overlaps,List.all_eq_true,Prod.forall]
  constructor
  · intro agree line value also first second
    have given := agree line value ((SortedMap.get?_eq_some _ _ _).mp first)
    rw [second] at given
    exact beq_iff_eq.mp given
  · intro agree line value first
    cases second : other.get? line with
    | none => rfl
    | some also =>
      exact beq_iff_eq.mpr (agree line value also ((SortedMap.get?_eq_some _ _ _).mpr first) second)

theorem overlaps_comm {guard other : Guard} (meets : guard.overlaps other = true) :
    other.overlaps guard = true :=
  overlaps_iff.mpr fun line value also first second =>
    (overlaps_iff.mp meets line also value second first).symm

theorem overlaps_of_holds {guard other : Guard} {status : StatusId → Bool}
    (first : guard.holds status = true) (second : other.holds status = true) :
    guard.overlaps other = true :=
  overlaps_iff.mpr fun line value also given found =>
    (holds_iff.mp second line also found).symm.trans (holds_iff.mp first line value given)

theorem overlaps_self (guard : Guard) : guard.overlaps guard = true :=
  overlaps_iff.mpr fun _ _ _ first second => Option.some.inj (second.symm.trans first)

theorem exists_of_overlaps {guard other : Guard} (meets : guard.overlaps other = true) :
    ∃ status, guard.holds status = true ∧ other.holds status = true := by
  refine ⟨fun line => ((guard.get? line).or (other.get? line)).getD false,?_,?_⟩
  · apply holds_iff.mpr
    intro line value given
    simp [given]
  · apply holds_iff.mpr
    intro line value given
    cases found : guard.get? line with
    | none => simp [given]
    | some also => simp [overlaps_iff.mp meets line also value found given]

theorem eq_of_apart {variants : List Variant}
    (apart : (variants.map Variant.guard).Pairwise fun guard other => guard.overlaps other = false)
    {variant other : Variant} (member : variant ∈ variants) (also : other ∈ variants)
    (meets : variant.guard.overlaps other.guard = true) : variant = other := by
  by_contra different
  have symmetric : Std.Symm fun left right : Variant => left.guard.overlaps right.guard = false := by
    refine ⟨fun left right separate => ?_⟩
    rw [← Bool.not_eq_true] at separate ⊢
    exact fun meets => separate (overlaps_comm meets)
  have separate := (List.pairwise_map.mp apart).forall member also different
  rw [separate] at meets
  contradiction

theorem firstOverlap?_none {guards : List Guard} :
    firstOverlap? guards = none ↔ guards.Pairwise fun guard other => guard.overlaps other = false := by
  induction guards with
  | nil => simp [firstOverlap?]
  | cons guard rest ih =>
    rw [List.pairwise_cons,← ih,firstOverlap?]
    split
    next other found =>
      have meets : guard.overlaps other = true := List.find?_some found
      have member := List.mem_of_find?_eq_some found
      simp only [reduceCtorEq,false_iff,not_and]
      intro apart
      rw [apart other member] at meets
      contradiction
    next absent =>
      have apart : ∀ other ∈ rest, guard.overlaps other = false := fun other member =>
        Bool.not_eq_true _ ▸ List.find?_eq_none.mp absent other member
      exact ⟨fun later => ⟨apart,later⟩,And.right⟩

theorem unpaired?_none {guards : List Guard} {guard : Guard} :
    unpaired? guards guard = none ↔ ∀ line value, guard.get? line = some value →
      guard.flip line value ∈ guards := by
  simp [unpaired?,SortedMap.get?_eq_some]

theorem checkComplete_ok {hw : Registry} {label : String} {guards : List Guard} :
    checkComplete hw label guards = .ok () ↔ (∀ guard ∈ guards, unpaired? guards guard = none) ∧
      guards.Pairwise fun guard other => guard.overlaps other = false := by
  unfold checkComplete
  rw [← firstOverlap?_none,except_bind_ok]
  constructor
  · rintro ⟨⟨⟩,paired,apart⟩
    rw [except_forM_ok] at paired
    refine ⟨fun guard member => ?_,?_⟩
    · have given := paired guard member
      cases found : unpaired? guards guard with
      | none => rfl
      | some pair =>
        rw [found] at given
        cases given
    · cases found : firstOverlap? guards with
      | none => rfl
      | some pair =>
        rw [found] at apart
        cases apart
  · rintro ⟨paired,apart⟩
    refine ⟨(),except_forM_ok.mpr fun guard member => ?_,?_⟩
    · rw [paired guard member]
    · rw [apart]
      rfl

/-- Where each guard has its siblings, one with the same statuses holds. The statuses that a
guard names are turned over one by one. -/
theorem exists_holds {guards : List Guard} (paired : ∀ guard ∈ guards, unpaired? guards guard = none)
    {start : Guard} (member : start ∈ guards) (status : StatusId → Bool) :
    ∃ guard ∈ guards, guard.keys = start.keys ∧ guard.holds status = true := by
  have partly (lines : List StatusId) : ∃ guard ∈ guards,
      (∀ line, (guard.get? line).isSome = (start.get? line).isSome) ∧
        ∀ line ∈ lines, ∀ value, guard.get? line = some value → status line = value := by
    induction lines with
    | nil => exact ⟨start,member,fun _ => rfl,by simp⟩
    | cons line rest ih =>
      obtain ⟨guard,inside,names,agrees⟩ := ih
      by_cases wrong : guard.get? line = some !status line
      · refine ⟨_,unpaired?_none.mp (paired guard inside) line _ wrong,?_,?_⟩
        · intro other
          rw [flip,Bool.not_not]
          by_cases same : other = line
          · rw [← names other,same,SortedMap.get?_insert_self,wrong]
            rfl
          · rw [SortedMap.get?_insert_of_ne _ _ _ _ same,names other]
        · rw [flip,Bool.not_not]
          intro other listed value found
          by_cases same : other = line
          · rw [same,SortedMap.get?_insert_self,Option.some.injEq] at found
            rw [same,found]
          · rw [SortedMap.get?_insert_of_ne _ _ _ _ same] at found
            exact agrees other ((List.mem_cons.mp listed).resolve_left same) value found
      · refine ⟨guard,inside,names,?_⟩
        intro other listed value found
        rcases List.mem_cons.mp listed with rfl | later
        · rw [found,Option.some.injEq] at wrong
          exact (Bool.not_not _ ▸ Bool.eq_not_of_ne wrong).symm
        · exact agrees other later value found
  obtain ⟨guard,inside,names,agrees⟩ := partly (start.toList.map Prod.fst)
  refine ⟨guard,inside,SortedMap.keys_eq_iff.mpr names,
    holds_iff.mpr fun line value found => agrees line ?_ value found⟩
  have named := names line
  rw [found,Option.isSome_some] at named
  obtain ⟨first,given⟩ := Option.isSome_iff_exists.mp named.symm
  exact List.mem_map_of_mem ((SortedMap.get?_eq_some _ _ _).mp given)

end Guard

/-- The variant applies to an opcode under a status state. -/
structure Variant.Answers (variant : Variant) (opcode : UInt8) (status : StatusId → Bool) : Prop where
  opcode : variant.descriptor.opcode = opcode
  guard : variant.guard.holds status = true

namespace Program

/-- Every instruction of the catalog has exactly one variant for each state of the statuses. -/
structure Dispatches (program : Program) (catalog : Catalog) : Prop where
  known : ∀ variant ∈ program, variant.descriptor ∈ catalog.descriptors
  total : ∀ d ∈ catalog.descriptors, ∀ status, ∃ variant ∈ program,
    variant.descriptor = d ∧ variant.guard.holds status = true
  single : ∀ variant ∈ program, ∀ other ∈ program, variant.descriptor = other.descriptor →
    variant.guard.overlaps other.guard = true → variant = other

theorem mem_descriptors {program : Program} {d : Descriptor} :
    d ∈ program.descriptors ↔ ∃ variant ∈ program, variant.descriptor = d := by
  rw [descriptors,SortedSet.mem_ofList,List.mem_map]
  exact .rfl

theorem checkCoverage_ok {catalog : Catalog} {program : Program} :
    program.checkCoverage catalog = .ok () ↔
      ∀ d, d ∈ program.descriptors ↔ d ∈ catalog.descriptors := by
  unfold checkCoverage
  split
  next d found =>
    have absent := List.find?_some found
    have member := List.mem_of_find?_eq_some found
    simp only [Catalog.contains,Bool.not_eq_true',SortedSet.contains_eq_false] at absent
    simp only [reduceCtorEq,false_iff,not_forall]
    exact ⟨d,fun same => absent (same.mp member)⟩
  next known =>
    simp only [List.find?_eq_none,Catalog.contains,Bool.not_eq_true',SortedSet.contains_eq_false,
      not_not] at known
    split
    next none =>
      simp only [List.filter_eq_nil_iff,Bool.not_eq_true',SortedSet.contains_eq_false,
        not_not] at none
      simp only [true_iff]
      exact fun d => ⟨known d,none d⟩
    next missing some =>
      simp only [reduceCtorEq,false_iff,not_forall]
      obtain ⟨d,inside⟩ := List.exists_mem_of_ne_nil _ some
      simp only [List.mem_filter,Bool.not_eq_true',SortedSet.contains_eq_false] at inside
      exact ⟨d,fun same => inside.2 (same.mpr inside.1)⟩

theorem checkCompleteness_ok {hw : Registry} {program : Program} :
    program.checkCompleteness hw = .ok () ↔ ∀ d ∈ program.descriptors,
      Guard.checkComplete hw d.label ((program.variantsOf d).map Variant.guard) = .ok () :=
  except_forM_ok

theorem mem_variantsOf {program : Program} {d : Descriptor} {variant : Variant} :
    variant ∈ program.variantsOf d ↔ variant ∈ program ∧ variant.descriptor = d := by
  rw [variantsOf,List.mem_filter,decide_eq_true_iff]
  exact .rfl

def steps (program : Program) : List Step := program.toList.flatMap Variant.steps

theorem stepCount_eq (program : Program) : program.stepCount = program.steps.length := by
  have counted (variants : List Variant) (count : Nat) :
      variants.foldl (fun count variant => count + variant.steps.length) count =
        count + (variants.flatMap Variant.steps).length := by
    induction variants generalizing count with
    | nil => rfl
    | cons variant rest ih =>
      rw [List.foldl_cons,ih,List.flatMap_cons,List.length_append,Nat.add_assoc]
  rw [stepCount,counted,Nat.zero_add]
  rfl

theorem steps_perm {program : Program} {variants : List Variant}
    (listed : program.toList.Perm variants) : program.steps.Perm (variants.flatMap Variant.steps) :=
  listed.flatMap_right _

theorem dispatches_of_checks {hw : Registry} {catalog : Catalog} {program : Program}
    (covers : ∀ d, d ∈ program.descriptors ↔ d ∈ catalog.descriptors)
    (complete : program.checkCompleteness hw = .ok ()) : program.Dispatches catalog := by
  have checked (d : Descriptor) (inside : d ∈ program.descriptors) :=
    Guard.checkComplete_ok.mp (checkCompleteness_ok.mp complete d inside)
  refine ⟨?_,?_,?_⟩
  · intro variant member
    exact (covers _).mp (mem_descriptors.mpr ⟨variant,member,rfl⟩)
  · intro d member status
    have inside := (covers d).mpr member
    obtain ⟨start,listed,of⟩ := mem_descriptors.mp inside
    obtain ⟨guard,among,_,holds⟩ := Guard.exists_holds (checked d inside).1
      (List.mem_map_of_mem (mem_variantsOf.mpr ⟨listed,of⟩)) status
    obtain ⟨variant,found,rfl⟩ := List.mem_map.mp among
    obtain ⟨listed,of⟩ := mem_variantsOf.mp found
    exact ⟨variant,listed,of,holds⟩
  · intro variant member other also same meets
    have apart := (checked other.descriptor (mem_descriptors.mpr ⟨other,also,rfl⟩)).2
    exact Guard.eq_of_apart apart (mem_variantsOf.mpr ⟨member,same⟩) (mem_variantsOf.mpr ⟨also,rfl⟩)
      meets

namespace Dispatches
variable {program : Program} {catalog : Catalog} (dispatches : program.Dispatches catalog)
include dispatches

theorem unique (distinct : catalog.Distinct) {variant other : Variant} (member : variant ∈ program)
    (also : other ∈ program) {opcode : UInt8} {status : StatusId → Bool}
    (first : variant.Answers opcode status) (second : other.Answers opcode status) :
    variant = other := by
  have same : variant.descriptor = other.descriptor := distinct _ (dispatches.known variant member) _
    (dispatches.known other also) (first.opcode.trans second.opcode.symm)
  exact dispatches.single variant member other also same
    (Guard.overlaps_of_holds first.guard second.guard)

theorem merged {hw : Registry} {counter : StepCounter} {joined : Program}
    (merges : program.merged hw counter = .ok joined) : joined.Dispatches catalog := by
  have images {variant : Variant} (member : variant ∈ joined) : ∃ plain ∈ program,
      plain.merged hw counter = .ok variant ∧ variant.descriptor = plain.descriptor ∧
        variant.guard = plain.guard := by
    obtain ⟨plain,inside,done⟩ := (mem_merged merges).mp member
    obtain ⟨descriptor,guard,_⟩ := merged_steps done
    exact ⟨plain,inside,done,descriptor,guard⟩
  refine ⟨?_,?_,?_⟩
  · intro variant member
    obtain ⟨plain,inside,_,descriptor,_⟩ := images member
    exact descriptor ▸ dispatches.known plain inside
  · intro d member status
    obtain ⟨plain,inside,of,holds⟩ := dispatches.total d member status
    obtain ⟨variant,done⟩ : ∃ variant, plain.merged hw counter = .ok variant := by
      obtain ⟨variants,mapped,_⟩ := except_bind_ok.mp merges
      obtain ⟨variant,_,done⟩ := (except_mapM_ok mapped).1 plain inside
      exact ⟨variant,done⟩
    obtain ⟨descriptor,guard,_⟩ := merged_steps done
    exact ⟨variant,(mem_merged merges).mpr ⟨plain,inside,done⟩,descriptor.trans of,guard ▸ holds⟩
  · intro variant member other also same meets
    obtain ⟨plain,inside,done,descriptor,guard⟩ := images member
    obtain ⟨second,within,later,also,gate⟩ := images also
    rw [descriptor,also] at same
    rw [guard,gate] at meets
    obtain rfl := dispatches.single plain inside second within same meets
    exact Except.ok.inj (done.symm.trans later)

end Dispatches
end Program

namespace Compiler.Accepts
variable {compiler : Compiler} {plain : Program} (accepts : compiler.Accepts plain)
include accepts

theorem dispatches : (plain.sequenced compiler.counter).Dispatches compiler.catalog := by
  refine Program.dispatches_of_checks (fun d => ?_) accepts.completeness
  rw [← Program.checkCoverage_ok.mp accepts.coverage d,Program.mem_descriptors,
    Program.mem_descriptors]
  constructor
  · rintro ⟨variant,member,rfl⟩
    obtain ⟨first,inside,rfl⟩ := Program.mem_sequenced.mp member
    exact ⟨first,inside,rfl⟩
  · rintro ⟨first,inside,rfl⟩
    exact ⟨_,Program.mem_sequenced.mpr ⟨first,inside,rfl⟩,rfl⟩

theorem inSequence {variant : Variant} (member : variant ∈ plain.sequenced compiler.counter) :
    Variant.InSequence compiler.counter variant.steps :=
  Variant.checkSteps_ok.mp (except_forM_ok.mp accepts.sequencing variant member)

end Compiler.Accepts
end Microprogram
