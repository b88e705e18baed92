import Mathlib.Data.Fintype.BigOperators
import Mathlib.Data.Fintype.Sets
import Microprogram.Microcode.Pass
import Microprogram.Proofs.Microcode.Dispatch

/-! The check of guards. It accepts an instruction exactly if its variants make a full cube:
all are gated on the same statuses, and each assignment of values to these is the guard of
one variant. What it refuses is at fault as the refusal says. -/
namespace Microprogram

namespace Guard

/-- The guard that gives a value to each of the statuses and to no other. -/
def assign (lines : SortedSet StatusId) (values : StatusId → Bool) : Guard :=
  ⟨lines.toList.map fun line => (line,values line),List.pairwise_map.mpr lines.ascending⟩

theorem keys_assign (lines : SortedSet StatusId) (values : StatusId → Bool) :
    (assign lines values).keys = lines.toList := by
  simp [SortedMap.keys,assign,Function.comp_def]

theorem get?_assign {lines : SortedSet StatusId} (values : StatusId → Bool) {line : StatusId}
    (member : line ∈ lines) : (assign lines values).get? line = some (values line) := by
  simpa [SortedMap.get?_eq_some,assign] using member

theorem eq_of_overlaps {guard other : Guard} (named : guard.keys = other.keys)
    (meets : guard.overlaps other = true) : guard = other := by
  apply SortedMap.ext_get
  intro line
  have same := SortedMap.keys_eq_iff.mp named line
  cases found : guard.get? line with
  | none =>
    rw [found,Option.isSome_none,eq_comm,Option.isSome_eq_false_iff,Option.isNone_iff_eq_none] at same
    exact same.symm
  | some value =>
    cases given : other.get? line with
    | none => simp [found,given] at same
    | some also => rw [overlaps_iff.mp meets line value also found given]

theorem keys_flip {guard : Guard} {line : StatusId} {value : Bool}
    (gated : guard.get? line = some value) : (guard.flip line value).keys = guard.keys := by
  apply SortedMap.keys_eq_iff.mpr
  intro other
  by_cases same : other = line
  · simp [flip,same,SortedMap.get?_insert_self,gated]
  · simp [flip,SortedMap.get?_insert_of_ne _ _ _ _ same]

theorem unpaired?_some {guards : List Guard} {guard : Guard} {line : StatusId} {value : Bool}
    (found : unpaired? guards guard = some (line,value)) :
    guard.get? line = some value ∧ guard.flip line value ∉ guards := by
  have absent := List.find?_some found
  have member := List.mem_of_find?_eq_some found
  exact ⟨(SortedMap.get?_eq_some _ _ _).mpr member,by simpa using absent⟩

theorem firstOverlap?_some {guards : List Guard} {first second : Guard}
    (found : firstOverlap? guards = some (first,second)) :
    [first,second].Sublist guards ∧ first.overlaps second = true := by
  induction guards with
  | nil => cases found
  | cons guard rest ih =>
    rw [firstOverlap?] at found
    split at found
    next other meets =>
      cases found
      have member := List.mem_of_find?_eq_some meets
      exact ⟨(List.singleton_sublist.mpr member).cons_cons first,List.find?_some meets⟩
    next absent =>
      obtain ⟨later,meets⟩ := ih found
      exact ⟨later.cons guard,meets⟩

theorem checkComplete_error {hw : Registry} {label : String} {guards : List Guard}
    {rejection : Rejection} (failed : checkComplete hw label guards = .error rejection) :
    (∃ guard ∈ guards, ∃ line value, unpaired? guards guard = some (line,value) ∧
      rejection = .incompleteStatus label (hw.statusPath line) (!value)
        (Guard.text (guard.erase line) hw)) ∨
    ∃ first second, firstOverlap? guards = some (first,second) ∧
      rejection = .ambiguousVariants label (first.text hw) (second.text hw) := by
  unfold checkComplete at failed
  rcases except_bind_error.mp failed with unpaired | ⟨_,_,overlap⟩
  · obtain ⟨guard,member,failed⟩ := except_forM_error unpaired
    cases found : unpaired? guards guard with
    | none => simp [found] at failed
    | some pair =>
      rw [found,Except.error.injEq] at failed
      exact .inl ⟨guard,member,pair.1,pair.2,found,failed.symm⟩
  · cases found : firstOverlap? guards with
    | none =>
      rw [found] at overlap
      cases overlap
    | some pair =>
      rw [found] at overlap
      cases overlap
      exact .inr ⟨pair.1,pair.2,rfl,rfl⟩

end Guard

/-- The variants are gated on the same statuses, and each assignment of values to these is the
guard of exactly one of them. -/
structure FullCube (lines : SortedSet StatusId) (variants : List Variant) : Prop where
  gated : ∀ variant ∈ variants, variant.guard.keys = lines.toList
  full : ∀ guard : Guard, guard.keys = lines.toList →
    ∃! variant, variant ∈ variants ∧ variant.guard = guard

namespace FullCube
variable {lines : SortedSet StatusId} {variants : List Variant}

theorem length (cube : FullCube lines variants) (distinct : variants.Nodup) :
    variants.length = 2 ^ lines.size := by
  let Line := {line // line ∈ lines.toList.toFinset}
  let values (variant : Variant) (line : Line) : Bool := (variant.guard.get? line).getD false
  have apart : (variants.map values).Nodup := by
    apply distinct.map_on
    intro variant member other inside same
    have named := cube.gated variant member
    have meets : variant.guard.overlaps other.guard = true := by
      apply Guard.overlaps_iff.mpr
      intro line value also found given
      have listed : line ∈ variant.guard.keys := by simp [SortedMap.mem_keys,found]
      rw [named] at listed
      have equal := congrFun same ⟨line,List.mem_toFinset.mpr listed⟩
      simpa [values,found,given] using equal.symm
    have equal := Guard.eq_of_overlaps (named.trans (cube.gated other inside).symm) meets
    exact (cube.full _ named).unique ⟨member,rfl⟩ ⟨inside,equal.symm⟩
  have all : (variants.map values).toFinset = Finset.univ := by
    apply Finset.eq_univ_of_forall
    intro assigned
    let extended (line : StatusId) : Bool :=
      if listed : line ∈ lines.toList.toFinset then assigned ⟨line,listed⟩ else false
    obtain ⟨variant,⟨member,same⟩,_⟩ := cube.full _ (Guard.keys_assign lines extended)
    refine List.mem_toFinset.mpr (List.mem_map.mpr ⟨variant,member,?_⟩)
    ext ⟨line,listed⟩
    have given := Guard.get?_assign extended (List.mem_toFinset.mp listed)
    simp [values,same,given,extended,listed]
  have size : lines.toList.toFinset.card = lines.size := List.toFinset_card_of_nodup lines.nodup
  calc variants.length = (variants.map values).toFinset.card := by
        rw [List.toFinset_card_of_nodup apart,List.length_map]
    _ = Fintype.card (Line → Bool) := by rw [all,Finset.card_univ]
    _ = 2 ^ lines.size := by rw [Fintype.card_fun,Fintype.card_bool,Fintype.card_coe,size]

end FullCube

section Cubes
variable {variants : List Variant}

/-- Where each guard has its siblings and no two overlap, the variants make a cube. -/
theorem exists_fullCube (paired : ∀ guard ∈ variants.map Variant.guard,
      Guard.unpaired? (variants.map Variant.guard) guard = none)
    (apart : (variants.map Variant.guard).Pairwise fun guard other => guard.overlaps other = false)
    {first : Variant} (member : first ∈ variants) : ∃ lines, FullCube lines variants := by
  have reaches (start : Variant) (inside : start ∈ variants) (status : StatusId → Bool) :
      ∃ variant ∈ variants, variant.guard.keys = start.guard.keys ∧
        variant.guard.holds status = true := by
    obtain ⟨guard,listed,named,holds⟩ :=
      Guard.exists_holds paired (List.mem_map_of_mem inside) status
    obtain ⟨variant,among,rfl⟩ := List.mem_map.mp listed
    exact ⟨variant,among,named,holds⟩
  refine ⟨⟨first.guard.keys,List.pairwise_map.mpr first.guard.ascending⟩,?_,?_⟩
  · -- In any state one variant with the statuses of the first holds, and one with the statuses
    -- of the other. As they overlap they are the same.
    intro other inside
    obtain ⟨left,among,named,holds⟩ := reaches first member fun _ => false
    obtain ⟨right,within,also,applies⟩ := reaches other inside fun _ => false
    obtain rfl := Guard.eq_of_apart apart among within (Guard.overlaps_of_holds holds applies)
    exact also.symm.trans named
  · intro guard named
    obtain ⟨status,holds,_⟩ := Guard.exists_of_overlaps guard.overlaps_self
    obtain ⟨variant,inside,also,applies⟩ := reaches first member status
    have same := Guard.eq_of_overlaps (also.trans named.symm) (Guard.overlaps_of_holds applies holds)
    refine ⟨variant,⟨inside,same⟩,?_⟩
    intro other found
    apply Guard.eq_of_apart apart found.1 inside
    rw [found.2,same]
    exact guard.overlaps_self

variable {lines : SortedSet StatusId} (cube : FullCube lines variants)
include cube

theorem FullCube.paired : ∀ guard ∈ variants.map Variant.guard,
    Guard.unpaired? (variants.map Variant.guard) guard = none := by
  intro guard listed
  obtain ⟨variant,member,rfl⟩ := List.mem_map.mp listed
  apply Guard.unpaired?_none.mpr
  intro line value gated
  obtain ⟨sibling,⟨inside,same⟩,_⟩ :=
    cube.full _ ((Guard.keys_flip gated).trans (cube.gated variant member))
  exact List.mem_map.mpr ⟨sibling,inside,same⟩

theorem FullCube.apart (distinct : variants.Nodup) :
    (variants.map Variant.guard).Pairwise fun guard other => guard.overlaps other = false := by
  apply List.pairwise_map.mpr
  apply distinct.pairwise_of_forall_ne
  intro variant member other inside different
  rw [← Bool.not_eq_true]
  intro meets
  have named := cube.gated variant member
  have equal := Guard.eq_of_overlaps (named.trans (cube.gated other inside).symm) meets
  exact different ((cube.full _ named).unique ⟨member,rfl⟩ ⟨inside,equal.symm⟩)

end Cubes

namespace Program

theorem variantsOf_nodup (program : Program) (d : Descriptor) : (program.variantsOf d).Nodup :=
  program.nodup.filter _

/-- What may be at fault with the guards of a program, and the refusal that tells of it. -/
inductive Misguarded (hw : Registry) (program : Program) : Rejection → Prop
  | unpaired {variant : Variant} {line : StatusId} {value : Bool} (member : variant ∈ program)
      (gated : variant.guard.get? line = some value)
      (absent : ∀ other ∈ program, other.descriptor = variant.descriptor →
        other.guard ≠ variant.guard.flip line value) :
      Misguarded hw program (.incompleteStatus variant.label (hw.statusPath line) (!value)
        (Guard.text (variant.guard.erase line) hw))
  | ambiguous {variant other : Variant} {status : StatusId → Bool} (member : variant ∈ program)
      (also : other ∈ program) (different : variant ≠ other)
      (same : variant.descriptor = other.descriptor) (holds : variant.guard.holds status = true)
      (applies : other.guard.holds status = true) :
      Misguarded hw program (.ambiguousVariants variant.label (variant.guard.text hw)
        (other.guard.text hw))

theorem checkCompleteness_iff {hw : Registry} {program : Program} :
    program.checkCompleteness hw = .ok () ↔
      ∀ d ∈ program.descriptors, ∃ lines, FullCube lines (program.variantsOf d) := by
  rw [checkCompleteness_ok]
  apply forall₂_congr
  intro d listed
  rw [Guard.checkComplete_ok]
  constructor
  · intro checked
    obtain ⟨variant,member,of⟩ := mem_descriptors.mp listed
    exact exists_fullCube checked.1 checked.2 (mem_variantsOf.mpr ⟨member,of⟩)
  · intro found
    obtain ⟨lines,cube⟩ := found
    exact ⟨cube.paired,cube.apart (program.variantsOf_nodup d)⟩

theorem misguarded_of_error {hw : Registry} {program : Program} {rejection : Rejection}
    (failed : program.checkCompleteness hw = .error rejection) : program.Misguarded hw rejection := by
  obtain ⟨d,_,failed⟩ := except_forM_error failed
  rcases Guard.checkComplete_error failed with missing | overlap
  · obtain ⟨guard,listed,line,value,found,rfl⟩ := missing
    obtain ⟨variant,member,rfl⟩ := List.mem_map.mp listed
    obtain ⟨inside,rfl⟩ := mem_variantsOf.mp member
    obtain ⟨gated,absent⟩ := Guard.unpaired?_some found
    apply Misguarded.unpaired inside gated
    intro other among of same
    exact absent (List.mem_map.mpr ⟨other,mem_variantsOf.mpr ⟨among,of⟩,same⟩)
  · obtain ⟨first,second,found,rfl⟩ := overlap
    obtain ⟨ordered,meets⟩ := Guard.firstOverlap?_some found
    obtain ⟨pair,within,mapped⟩ := List.sublist_map_iff.mp ordered
    obtain ⟨variant,rest,rfl,rfl,listed⟩ := List.map_eq_cons_iff.mp mapped.symm
    obtain ⟨other,none,rfl,rfl,ended⟩ := List.map_eq_cons_iff.mp listed
    obtain rfl := List.map_eq_nil_iff.mp ended
    have different : variant ≠ other := by
      simpa using (program.variantsOf_nodup d).sublist within
    obtain ⟨inside,rfl⟩ := mem_variantsOf.mp (within.subset (by simp : variant ∈ [variant,other]))
    obtain ⟨among,same⟩ := mem_variantsOf.mp (within.subset (by simp : other ∈ [variant,other]))
    obtain ⟨status,holds,applies⟩ := Guard.exists_of_overlaps meets
    exact Misguarded.ambiguous inside among different same.symm holds applies

end Program

/-- The check of guards accepts the programs in which the variants of each instruction make a
full cube, and tells of a real fault in the others. -/
theorem Pass.completeness_exact (compiler : Compiler) (program : Program) :
    ((Pass.completeness.run compiler program).isOk = true ↔
      ∀ d ∈ program.descriptors, ∃ lines, FullCube lines (program.variantsOf d)) ∧
    (∀ d lines, FullCube lines (program.variantsOf d) →
      (program.variantsOf d).length = 2 ^ lines.size) ∧
    ∀ rejection, Pass.completeness.run compiler program = .error rejection →
      program.Misguarded compiler.hardware rejection := by
  refine ⟨?_,?_,?_⟩
  · rw [← Program.checkCompleteness_iff]
    unfold Pass.run
    cases program.checkCompleteness compiler.hardware <;> simp [Except.map,Except.isOk,Except.toBool]
  · intro d lines cube
    exact cube.length (program.variantsOf_nodup d)
  · intro rejection failed
    exact Program.misguarded_of_error (except_map_error.mp failed)

end Microprogram
