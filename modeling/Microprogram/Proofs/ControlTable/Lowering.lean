import Microprogram.Proofs.ControlTable.Compilation
import Microprogram.Proofs.ControlTable.CreationOrder

/-! What may still go wrong with a program that passed its checks. The lines and statuses that it
names are declared and no two of its variants have one key, so merging cannot fail and the table
has room for every entry. All that is left is a variant with more steps than can be numbered. -/
namespace Microprogram

/-- The registry has every line and every status that the variant names. -/
structure Variant.Declared (hw : Registry) (variant : Variant) : Prop where
  controls : ∀ step ∈ variant.steps, ∀ line ∈ step.controls, (hw.control? line).isSome = true
  statuses : ∀ line ∈ variant.guard.keys, (hw.status? line).isSome = true

/-- The registry has every line and every status that the entry names. -/
structure Entry.Declared (hw : Registry) (entry : Entry) : Prop where
  controls : ∀ line ∈ entry.controls, (hw.control? line).isSome = true
  statuses : ∀ line ∈ entry.guard.keys, (hw.status? line).isSome = true

theorem Registry.isSome_of_known {kind : Kind} {δ : Type} {id : Ident kind} {found : Option δ}
    (known : (Registry.known id found).map (fun _ => ()) = .ok ()) : found.isSome = true := by
  cases found with
  | none => cases known
  | some decl => rfl

theorem Draft.check_declared {hw : Registry} {draft : Draft} (fine : draft.check hw = .ok ()) :
    draft.variant.Declared hw := by
  have calm := check_conflicts fine
  simp only [check,calm,List.head?_nil] at fine
  obtain ⟨_,statuses,steps⟩ := except_bind_ok.mp fine
  constructor
  · intro step member line inside
    obtain ⟨_,controls,_⟩ := except_bind_ok.mp (except_forM_ok.mp steps step member)
    exact Registry.isSome_of_known (except_forM_ok.mp controls line inside)
  · intro line member
    exact Registry.isSome_of_known (except_forM_ok.mp statuses line member)

theorem Variant.Declared.acts {hw : Registry} {variant : Variant} (declared : variant.Declared hw) :
    ∀ step ∈ variant.steps, ∀ line ∈ step.controls, ∃ action, hw.actionOf line = some action := by
  intro step member line inside
  obtain ⟨decl,found⟩ := Option.isSome_iff_exists.mp (declared.controls step member line inside)
  exact ⟨_,Registry.actionOf_of_declared found⟩

section Passes
variable {hw : Registry} {counter : StepCounter}

theorem Variant.Declared.sequenced {variant : Variant} (declared : variant.Declared hw)
    (increments : (hw.control? counter.increment).isSome = true)
    (resets : (hw.control? counter.reset).isSome = true) : (variant.sequenced counter).Declared hw := by
  constructor
  · intro ordered member line inside
    rcases mem_sequencedSteps member with ⟨step,early,rfl⟩ | ⟨step,last,rfl⟩
    · rcases (mem_withControl _ _ _).mp inside with rfl | old
      · exact increments
      · exact declared.controls step (List.dropLast_subset _ early) line old
    · rcases (mem_withControl _ _ _).mp inside with rfl | old
      · exact resets
      · exact declared.controls step last line old
  · exact declared.statuses

theorem Variant.Declared.merged {plain variant : Variant} (declared : plain.Declared hw)
    (merges : plain.merged hw counter = .ok variant) : variant.Declared hw := by
  obtain ⟨_,guard,joined⟩ := Program.merged_steps merges
  constructor
  · apply mergedSteps_forall ?_ joined declared.controls
    intro step next _ first second line inside
    rcases (Step.mem_merge _ _ _).mp inside with ⟨old,_⟩ | added
    · exact first line old
    · exact second line added
  · rw [guard]
    exact declared.statuses

end Passes

namespace ControlTable

def firstLong? (program : Program) : Option Variant :=
  program.toList.find? fun variant => 256 < variant.steps.length

theorem firstLong?_none {program : Program} : firstLong? program = none ↔ Fits program := by
  simp [firstLong?,Fits,SortedSet.mem_toList]

theorem lower_long {program : Program} {long : Variant} (found : firstLong? program = some long) :
    lower program = .error (.stepIndexOverflow long.label long.steps.length) := by
  have stops (variants : List Variant)
      (first : variants.find? (fun variant => 256 < variant.steps.length) = some long) :
      variants.mapM lowerVariant = .error (.stepIndexOverflow long.label long.steps.length) := by
    induction variants with
    | nil => cases first
    | cons variant rest ih =>
      rw [List.mapM_cons]
      rw [List.find?_cons] at first
      split at first
      next exceeds =>
        cases first
        rw [lowerVariant,if_pos (of_decide_eq_true exceeds)]
        rfl
      next short =>
        rw [lowerVariant,if_neg (of_decide_eq_false short),except_ok_bind,ih first]
        rfl
  rw [lower,stops _ found]
  rfl

theorem declared_of_lower {hw : Registry} {program : Program} {table : ControlTable}
    (lowered : lower program = .ok table) (declared : ∀ variant ∈ program, variant.Declared hw) :
    ∀ entry ∈ table.entries, entry.Declared hw := by
  obtain ⟨_,members⟩ := lower_ok lowered
  intro entry member
  obtain ⟨variant,inside,listed⟩ := (members entry).mp member
  obtain ⟨place,step,found,rfl⟩ := mem_entriesOf.mp listed
  constructor
  · exact (declared variant inside).controls step (List.mem_of_getElem? found)
  · exact (declared variant inside).statuses

end ControlTable

namespace Compiler
variable {compiler : Compiler} {drafts : List Draft} {plain : Program}

theorem runPasses_error {passes : List Pass} {program : Program} {error : CompileError}
    (failed : compiler.runPasses passes program = .error error) :
    ∃ pass ∈ passes, ∃ given rejection, pass.run compiler given = .error rejection ∧
      error = .rejected pass rejection := by
  obtain ⟨pass,member,given,failed⟩ := except_foldlM_error failed
  obtain ⟨rejection,refused,rfl⟩ := except_mapError_error.mp failed
  exact ⟨pass,member,given,rejection,refused,rfl⟩

section Counter
variable (increments : (compiler.hardware.control? compiler.counter.increment).isSome = true)
  (resets : (compiler.hardware.control? compiler.counter.reset).isSome = true)
include increments resets

theorem sequenced_declared (made : compiler.program drafts = .ok plain) :
    ∀ variant ∈ plain.sequenced compiler.counter, variant.Declared compiler.hardware := by
  intro variant member
  obtain ⟨first,inside,rfl⟩ := Program.mem_sequenced.mp member
  obtain ⟨draft,given,rfl⟩ := (Program.mem_ofDrafts (program_ok.mp made)).mp inside
  obtain ⟨fine,_⟩ := Program.ofDrafts_ok.mp (program_ok.mp made)
  exact (Draft.check_declared (fine draft given)).sequenced increments resets

/-- After the early passes only the number of steps is left to decide. -/
theorem compile_of_passed {ordered : Program} (made : compiler.program drafts = .ok plain)
    (passed : compiler.runPasses (Pass.pipeline.erase .merging) plain = .ok ordered) :
    ∃ merged, Pass.merging.run compiler ordered = .ok merged ∧
      (ControlTable.Fits merged → ∃ table, compiler.compile drafts = .ok table) ∧
      ∀ long, ControlTable.firstLong? merged = some long → compiler.compile drafts =
        .error (.table (.stepIndexOverflow long.label long.steps.length)) := by
  obtain ⟨accepts,rfl⟩ := runPasses_split.mp passed
  obtain ⟨merged,merges⟩ : ∃ merged, Pass.merging.run compiler (plain.sequenced compiler.counter) =
      .ok merged := Program.merged_total fun variant member =>
    (sequenced_declared increments resets made variant member).acts
  have lowers : compiler.compile drafts = lower merged := by
    rw [compile,compileProgram,made,except_ok_bind,runPasses_merging,passed,except_ok_bind,merges]
    rfl
  refine ⟨merged,merges,?_,?_⟩
  · intro short
    rw [lowers]
    obtain ⟨table,lowered⟩ := ControlTable.lower_total (accepts.dispatches.merged merges) short
    exact ⟨table,except_mapError_ok.mpr lowered⟩
  · intro long found
    rw [lowers,lower,ControlTable.lower_long found]
    rfl

/-- Where a compilation stops: the drafts make no program, a pass before merging refuses it, or a
variant is too long. -/
theorem compile_error {error : CompileError} (failed : compiler.compile drafts = .error error) :
    (∃ structural, error = .structural structural) ∨
    (∃ pass ∈ Pass.pipeline.erase .merging, ∃ rejection, error = .rejected pass rejection) ∨
    ∃ long : Variant, error = .table (.stepIndexOverflow long.label long.steps.length) := by
  cases made : compiler.program drafts with
  | error early =>
    rw [compile,compileProgram,made] at failed
    cases failed
    obtain ⟨structural,_,rfl⟩ := except_mapError_error.mp made
    exact .inl ⟨structural,rfl⟩
  | ok plain =>
    cases passed : compiler.runPasses (Pass.pipeline.erase .merging) plain with
    | error refused =>
      rw [compile,compileProgram,made,except_ok_bind,runPasses_merging,passed] at failed
      cases failed
      obtain ⟨pass,member,_,rejection,_,rfl⟩ := runPasses_error passed
      exact .inr (.inl ⟨pass,member,rejection,rfl⟩)
    | ok ordered =>
      obtain ⟨merged,_,total,exceeds⟩ := compile_of_passed increments resets made passed
      cases found : ControlTable.firstLong? merged with
      | none =>
        obtain ⟨table,compiled⟩ := total (ControlTable.firstLong?_none.mp found)
        rw [compiled] at failed
        cases failed
      | some long =>
        rw [exceeds long found] at failed
        cases failed
        exact .inr (.inr ⟨long,rfl⟩)

/-- Nothing fails late but a variant with too many steps, and the table names only what is
declared. -/
theorem late_errors (drafts : List Draft) :
    (∀ descriptor step guard, compiler.compile drafts ≠
      .error (.table (.duplicateEntry descriptor step guard))) ∧
    (∀ rejection, compiler.compile drafts ≠ .error (.rejected .merging rejection)) ∧
    (∀ table, compiler.compile drafts = .ok table →
      ∀ entry ∈ table.entries, entry.Declared compiler.hardware) ∧
    ∀ plain ordered, compiler.program drafts = .ok plain →
      compiler.runPasses (Pass.pipeline.erase .merging) plain = .ok ordered →
      ∃ merged, Pass.merging.run compiler ordered = .ok merged ∧
        (ControlTable.Fits merged → ∃ table, compiler.compile drafts = .ok table) ∧
        ∀ long, ControlTable.firstLong? merged = some long → compiler.compile drafts =
          .error (.table (.stepIndexOverflow long.label long.steps.length)) := by
  refine ⟨?_,?_,?_,?_⟩
  · intro descriptor step guard failed
    obtain ⟨_,other⟩ | ⟨_,_,_,other⟩ | ⟨_,other⟩ := compile_error increments resets failed <;>
      cases other
  · intro rejection failed
    obtain ⟨_,other⟩ | ⟨pass,early,_,same⟩ | ⟨_,other⟩ := compile_error increments resets failed
    · cases other
    · cases same
      exact absurd early (by decide)
    · cases other
  · intro table compiled
    obtain ⟨merged,ended,lowered⟩ := compile_ok.mp compiled
    obtain ⟨plain,made,_,merges⟩ := compileProgram_ok.mp ended
    apply ControlTable.declared_of_lower lowered
    intro variant member
    obtain ⟨ordered,inside,joins⟩ := (Program.mem_merged merges).mp member
    exact (sequenced_declared increments resets (program_ok.mpr made) ordered inside).merged joins
  · intro plain ordered made passed
    exact compile_of_passed increments resets made passed

end Counter

def overlongDrafts : List Draft :=
  [.ofEdits ⟨1,"nop",.none,"No operation"⟩ (List.replicate 257 (.raise ⟨2⟩))]

theorem overlong_fails_late : ∃ catalog,
    Catalog.ofList [⟨1,"nop",.none,"No operation"⟩] = .ok catalog ∧
      ((skipping catalog).hardware.control? (skipping catalog).counter.increment).isSome = true ∧
      ((skipping catalog).hardware.control? (skipping catalog).counter.reset).isSome = true ∧
      (skipping catalog).compile overlongDrafts =
        .error (.table (.stepIndexOverflow "nop (none)" 257)) := by
  have long : ((Catalog.ofList [⟨1,"nop",.none,"No operation"⟩]).mapError .structural >>= fun catalog =>
      ((skipping catalog).compileProgram overlongDrafts).map fun merged =>
        (ControlTable.firstLong? merged).map fun variant => (variant.label,variant.steps.length)) =
      .ok (some ("nop (none)",257)) := by
    decide +kernel
  obtain ⟨catalog,cataloged,compiled⟩ := except_bind_ok.mp long
  obtain ⟨merged,ended,found⟩ := except_map_ok.mp compiled
  obtain ⟨variant,first,same⟩ := Option.map_eq_some_iff.mp found
  obtain ⟨plain,made,accepts,merges⟩ := compileProgram_ok.mp ended
  obtain ⟨_,_,_,decided⟩ := @late_errors (skipping catalog) rfl rfl overlongDrafts
  obtain ⟨joined,joins,_,exceeds⟩ :=
    decided plain _ (program_ok.mpr made) (runPasses_split.mpr ⟨accepts,rfl⟩)
  obtain rfl := Except.ok.inj (joins.symm.trans merges)
  refine ⟨catalog,except_mapError_ok.mp cataloged,rfl,rfl,?_⟩
  rw [exceeds variant first,(Prod.mk.inj same).1,(Prod.mk.inj same).2]

end Compiler
end Microprogram
