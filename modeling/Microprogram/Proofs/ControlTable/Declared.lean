import Mathlib.Data.List.Forall2
import Microprogram.Proofs.ControlTable.Compilation
import Microprogram.Proofs.Microcode.Drafts
import Microprogram.Proofs.Microcode.FetchStage

/-! What becomes of each draft. Two drafts may overlap only if they are the same variant once
they are sequenced, which they are not as long as they leave the step counter alone. Then a
compiled program has one variant for each draft. -/
namespace Microprogram

theorem Guard.exists_status (guard : Guard) : ∃ status, guard.holds status = true :=
  (exists_of_overlaps guard.overlaps_self).imp fun _ => And.left

namespace Draft

/-- Drafts of one instruction that apply in some state of the statuses both. -/
def Overlaps (draft other : Draft) : Prop :=
  draft.descriptor = other.descriptor ∧
    ∃ status, draft.guard.holds status = true ∧ other.guard.holds status = true

/-- What sequencing and merging make of a draft. -/
structure CompiledAs (compiler : Compiler) (draft : Draft) (variant : Variant) : Prop where
  descriptor : variant.descriptor = draft.descriptor
  guard : variant.guard = draft.guard
  merges : (draft.variant.sequenced compiler.counter).merged compiler.hardware compiler.counter =
    .ok variant

theorem overlaps_of_same {draft other : Draft} (descriptor : draft.descriptor = other.descriptor)
    (guard : draft.guard = other.guard) : draft.Overlaps other := by
  obtain ⟨status,holds⟩ := draft.guard.exists_status
  exact ⟨descriptor,status,holds,guard ▸ holds⟩

/-- No step of the draft drives the step counter. -/
def LeavesCounter (counter : StepCounter) (draft : Draft) : Prop :=
  ∀ step ∈ draft.steps, ∀ line ∈ step.controls, counter.contains line = false

theorem LeavesCounter.uncounted {counter : StepCounter} {draft : Draft}
    (leaves : draft.LeavesCounter counter) : draft.steps.map (Step.uncounted counter) = draft.steps := by
  refine (List.map_congr_left fun step member => ?_).trans (List.map_id _)
  have same : step.controls.filter (fun line => !counter.contains line) = step.controls := by
    refine SortedSet.ext_mem fun line => ?_
    simpa using leaves step member line
  exact congrArg (fun controls => ({ step with controls } : Step)) same

theorem LeavesCounter.variant_eq {counter : StepCounter} {draft other : Draft}
    (first : draft.LeavesCounter counter) (second : other.LeavesCounter counter)
    (same : draft.variant.sequenced counter = other.variant.sequenced counter) :
    draft.variant = other.variant := by
  have steps : draft.steps = other.steps := by
    have ordered := congrArg (fun variant : Variant => variant.steps.map (Step.uncounted counter)) same
    simp only [Variant.sequenced,Variant.sequencedSteps_uncounted] at ordered
    exact first.uncounted.symm.trans (ordered.trans second.uncounted)
  have descriptor : draft.descriptor = other.descriptor := congrArg Variant.descriptor same
  have guard : draft.guard = other.guard := congrArg Variant.guard same
  unfold variant
  rw [steps,descriptor,guard]

end Draft

namespace Compiler
variable {compiler : Compiler} {drafts : List Draft} {plain program : Program}

/-- The program has a variant for each of the drafts, and no two of the drafts overlap. -/
structure Keeps (compiler : Compiler) (drafts : List Draft) (program : Program) : Prop where
  size : program.size = drafts.length
  matched : ∃ variants, variants.Perm program.toList ∧
    List.Forall₂ (Draft.CompiledAs compiler) drafts variants
  apart : drafts.Pairwise fun draft other => ¬draft.Overlaps other

theorem mem_sequenced_of_draft (made : Program.ofDrafts compiler.hardware drafts = .ok plain)
    {draft : Draft} (given : draft ∈ drafts) :
    draft.variant.sequenced compiler.counter ∈ plain.sequenced compiler.counter :=
  Program.mem_sequenced.mpr ⟨_,(Program.mem_ofDrafts made).mpr ⟨draft,given,rfl⟩,rfl⟩

theorem sequenced_eq_of_overlaps (made : Program.ofDrafts compiler.hardware drafts = .ok plain)
    (accepts : compiler.Accepts plain) {draft other : Draft} (first : draft ∈ drafts)
    (second : other ∈ drafts) (overlaps : draft.Overlaps other) :
    draft.variant.sequenced compiler.counter = other.variant.sequenced compiler.counter := by
  obtain ⟨descriptor,status,holds,also⟩ := overlaps
  exact accepts.dispatches.single _ (mem_sequenced_of_draft made first) _
    (mem_sequenced_of_draft made second) descriptor (Guard.overlaps_of_holds holds also)

theorem apart_iff (made : Program.ofDrafts compiler.hardware drafts = .ok plain)
    (accepts : compiler.Accepts plain) :
    (drafts.Pairwise fun draft other => ¬draft.Overlaps other) ↔
      (drafts.map fun draft => draft.variant.sequenced compiler.counter).Nodup := by
  unfold List.Nodup
  rw [List.pairwise_map]
  constructor
  · intro apart
    refine apart.imp fun {draft other} distinct same => distinct ?_
    exact Draft.overlaps_of_same (congrArg Variant.descriptor same) (congrArg Variant.guard same)
  · intro apart
    refine apart.imp_of_mem fun {draft other} first second different overlaps => different ?_
    exact sequenced_eq_of_overlaps made accepts first second overlaps

theorem keeps_of_apart (made : Program.ofDrafts compiler.hardware drafts = .ok plain)
    (merges : (plain.sequenced compiler.counter).merged compiler.hardware compiler.counter = .ok program)
    (apart : drafts.Pairwise fun draft other => ¬draft.Overlaps other) :
    compiler.Keeps drafts program := by
  obtain ⟨all,mapped,_⟩ := except_bind_ok.mp merges
  obtain ⟨join,joins⟩ := except_mapM_choose id mapped
  have compiled {draft : Draft} (given : draft ∈ drafts) :
      draft.CompiledAs compiler (join (draft.variant.sequenced compiler.counter)) := by
    have done := joins _ (mem_sequenced_of_draft made given)
    obtain ⟨descriptor,guard,_⟩ := Program.merged_steps done
    exact ⟨descriptor,guard,done⟩
  have distinct : (drafts.map fun draft => join (draft.variant.sequenced compiler.counter)).Nodup := by
    unfold List.Nodup
    rw [List.pairwise_map]
    refine apart.imp_of_mem fun {draft other} first second separate same => separate ?_
    have left := compiled first
    have right := compiled second
    rw [same] at left
    exact Draft.overlaps_of_same (left.descriptor.symm.trans right.descriptor)
      (left.guard.symm.trans right.guard)
  have perm : (drafts.map fun draft => join (draft.variant.sequenced compiler.counter)).Perm
      program.toList := by
    refine (List.perm_ext_iff_of_nodup distinct program.nodup).mpr fun variant => ?_
    rw [SortedSet.mem_toList,Program.mem_merged merges,List.mem_map]
    constructor
    · rintro ⟨draft,given,rfl⟩
      exact ⟨_,mem_sequenced_of_draft made given,(compiled given).merges⟩
    · rintro ⟨ordered,inside,done⟩
      obtain ⟨first,among,rfl⟩ := Program.mem_sequenced.mp inside
      obtain ⟨draft,given,rfl⟩ := (Program.mem_ofDrafts made).mp among
      exact ⟨draft,given,Except.ok.inj ((compiled given).merges.symm.trans done)⟩
  refine ⟨?_,⟨_,perm,?_⟩,apart⟩
  · exact perm.length_eq.symm.trans (List.length_map _)
  · rw [List.forall₂_map_right_iff,List.forall₂_same]
    exact fun draft given => compiled given

theorem sequenced_nodup (made : Program.ofDrafts compiler.hardware drafts = .ok plain)
    (leaves : ∀ draft ∈ drafts, draft.LeavesCounter compiler.counter) :
    (drafts.map fun draft => draft.variant.sequenced compiler.counter).Nodup := by
  obtain ⟨_,distinct,_⟩ := Program.ofDrafts_ok.mp made
  unfold List.Nodup at distinct ⊢
  rw [List.pairwise_map] at distinct ⊢
  refine distinct.imp_of_mem fun {draft other} first second different same => different ?_
  exact (leaves draft first).variant_eq (leaves other second) same

/-- Of accepted drafts none gets lost as long as no two of them are the same once they are
sequenced, and none are where the step counter is left to the compiler. -/
theorem compile_keeps {table : ControlTable} (compiled : compiler.compile drafts = .ok table) :
    ∃ program, compiler.compileProgram drafts = .ok program ∧
      (compiler.Keeps drafts program ↔
        (drafts.map fun draft => draft.variant.sequenced compiler.counter).Nodup) ∧
      ((∀ draft ∈ drafts, draft.LeavesCounter compiler.counter) → compiler.Keeps drafts program) := by
  obtain ⟨program,ended,_⟩ := compile_ok.mp compiled
  obtain ⟨plain,made,accepts,merges⟩ := compileProgram_ok.mp ended
  have apart := apart_iff made accepts
  have keeps : compiler.Keeps drafts program ↔
      (drafts.map fun draft => draft.variant.sequenced compiler.counter).Nodup :=
    ⟨fun kept => apart.mp kept.apart,fun distinct => keeps_of_apart made merges (apart.mpr distinct)⟩
  exact ⟨program,ended,keeps,fun leaves => keeps.mpr (sequenced_nodup made leaves)⟩

theorem skipping_keeps : ∃ catalog table program,
    Catalog.ofList skippingDescriptors = .ok catalog ∧
      (skipping catalog).compile skippingDrafts = .ok table ∧
      (skipping catalog).compileProgram skippingDrafts = .ok program ∧
      (skipping catalog).Keeps skippingDrafts program := by
  obtain ⟨catalog,table,cataloged,compiled⟩ :=
    @compiles_of_isOk skippingDrafts skipping skippingDescriptors (by decide +kernel)
  obtain ⟨program,ended,_,keeps⟩ := compile_keeps compiled
  refine ⟨catalog,table,program,cataloged,compiled,ended,keeps ?_⟩
  unfold Draft.LeavesCounter
  simp only [← SortedSet.mem_toList]
  change ∀ draft ∈ skippingDrafts, ∀ step ∈ draft.steps, ∀ line ∈ step.controls.toList,
    StepCounter.contains ⟨⟨0⟩,⟨1⟩⟩ line = false
  decide +kernel

/-- One instruction twice. The second draft also goes back to the first step by itself. -/
def resettingDrafts : List Draft := [
  .ofEdits ⟨1,"nop",.none,"No operation"⟩ [.nextStage,.raise ⟨2⟩],
  .ofEdits ⟨1,"nop",.none,"No operation"⟩ [.nextStage,.step [⟨2⟩,(skipping default).counter.reset] []]]

theorem resetting_lost : ∃ catalog table program,
    Catalog.ofList [⟨1,"nop",.none,"No operation"⟩] = .ok catalog ∧
      (skipping catalog).compile resettingDrafts = .ok table ∧
      (skipping catalog).compileProgram resettingDrafts = .ok program ∧
      program.size = 1 ∧ ¬(skipping catalog).Keeps resettingDrafts program := by
  obtain ⟨catalog,table,cataloged,compiled⟩ :=
    @compiles_of_isOk resettingDrafts skipping [⟨1,"nop",.none,"No operation"⟩] (by decide +kernel)
  have one : ((Catalog.ofList [⟨1,"nop",.none,"No operation"⟩]).mapError .structural >>= fun catalog =>
      ((skipping catalog).compileProgram resettingDrafts).map SortedSet.size) = .ok 1 := by
    decide +kernel
  rw [cataloged] at one
  obtain ⟨program,ended,size⟩ := except_map_ok.mp one
  refine ⟨catalog,table,program,cataloged,compiled,ended,size,fun keeps => ?_⟩
  have kept := keeps.size
  rw [size] at kept
  contradiction

end Compiler
end Microprogram
