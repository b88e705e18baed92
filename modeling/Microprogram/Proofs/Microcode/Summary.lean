import Mathlib.Algebra.GroupWithZero.Nat
import Mathlib.Data.List.Forall2
import Microprogram.Microcode.Summary
import Microprogram.Proofs.ControlTable.Declared
import Microprogram.Proofs.ControlTable.Lowering
import Microprogram.Proofs.Microcode.Grouping
import Microprogram.Proofs.Microcode.Minimality

/-! Counts before and after compilation. A compiled program raises the lines that its plain
program raises, and in each step one line of the step counter besides. So the counts differ by
the number of steps that merging leaves. -/
namespace Microprogram

namespace Step
variable {hw : Registry} {counter : StepCounter}

/-- What the steps raise, one step after the other. -/
def linesOf (steps : List Step) : List ControlId := steps.flatMap fun step => step.controls.toList

/-- The lines of the step counter that a step raises. -/
def counted (counter : StepCounter) (step : Step) : ControlSet := step.controls.filter counter.contains

theorem linesOf_append (steps others : List Step) :
    linesOf (steps ++ others) = linesOf steps ++ linesOf others := List.flatMap_append

theorem linesOf_perm {steps others : List Step} (perm : steps.Perm others) :
    (linesOf steps).Perm (linesOf others) := perm.flatMap_right _

theorem linesOf_split (counter : StepCounter) (steps : List Step) : (linesOf steps).Perm
    (linesOf (steps.map (uncounted counter)) ++ steps.flatMap fun step => (step.counted counter).toList) := by
  unfold linesOf
  rw [List.flatMap_map]
  refine .trans ?_ (List.flatMap_append_perm _ _ _).symm
  apply List.Perm.flatMap_left
  intro step _
  exact (List.filter_append_perm counter.contains step.controls.toList).symm.trans
    List.perm_append_comm

theorem counted_single {step : Step} {line other : ControlId}
    (covers : ∀ l, counter.contains l = true ↔ l = line ∨ l = other)
    (raised : line ∈ step.controls) (silent : other ∉ step.controls) :
    (step.counted counter).toList.length = 1 := by
  have only : step.counted counter = (∅ : ControlSet).insert line := by
    refine SortedSet.ext_mem fun l => ?_
    rw [counted,SortedSet.mem_filter,covers,SortedSet.mem_insert]
    simp only [SortedSet.not_mem_empty,or_false]
    constructor
    · rintro ⟨member,same | rfl⟩
      · exact same
      · exact absurd member silent
    · rintro rfl
      exact ⟨raised,.inl rfl⟩
  rw [only]
  rfl

/-- No line gets lost where steps merge, because they have none in common. -/
theorem merge_uncounted_perm {step next : Step} (joins : mergeable hw counter step next = .ok true) :
    ((step.merge counter next).uncounted counter).controls.toList.Perm
      ((step.uncounted counter).controls.toList ++ (next.uncounted counter).controls.toList) := by
  obtain ⟨staged,before⟩ := mergeable_precedes joins
  have apart := before.disjoint (mergeable_declared staged joins).1
  have distinct : ((step.uncounted counter).controls.toList ++
      (next.uncounted counter).controls.toList).Nodup := by
    refine List.nodup_append.mpr ⟨SortedSet.nodup _,SortedSet.nodup _,?_⟩
    rintro line first _ second rfl
    obtain ⟨member,aloof⟩ := mem_uncounted.mp first
    exact apart line member aloof (mem_uncounted.mp second).1
  refine (List.perm_ext_iff_of_nodup (SortedSet.nodup _) distinct).mpr fun line => ?_
  rw [List.mem_append,SortedSet.mem_toList,SortedSet.mem_toList,SortedSet.mem_toList,mem_uncounted,
    mem_uncounted,mem_uncounted,← or_and_right]
  exact and_congr_left mem_merge_of_not_contains

end Step

namespace Variant
open Step
variable {hw : Registry} {counter : StepCounter}

theorem mergedSteps_lines {steps merged : List Step}
    (joined : mergedSteps hw counter steps = .ok merged) :
    (linesOf (merged.map (uncounted counter))).Perm (linesOf (steps.map (uncounted counter))) := by
  cases steps with
  | nil =>
    cases joined
    exact .refl _
  | cons step rest =>
    refine absorb_induction (motive := fun current rest merged =>
      (linesOf (merged.map (uncounted counter))).Perm
        (linesOf ((current :: rest).map (uncounted counter)))) ?_ ?_ ?_ joined
    · exact fun current => .refl _
    · intro current next rest merged joins ih
      have first := (merge_uncounted_perm joins).append_right (linesOf (rest.map (uncounted counter)))
      rw [List.append_assoc] at first
      exact ih.trans first
    · intro current next rest merged _ ih
      exact ih.append_left _

theorem InSequence.counted {steps : List Step} (ordered : InSequence counter steps) :
    ∀ step ∈ steps, (step.counted counter).toList.length = 1 := by
  have counting {step : Step} (counts : counter.increment ∈ step.controls)
      (stays : counter.reset ∉ step.controls) : (step.counted counter).toList.length = 1 :=
    counted_single (by simp [StepCounter.contains]) counts stays
  have resetting {step : Step} (resets : counter.reset ∈ step.controls)
      (stays : counter.increment ∉ step.controls) : (step.counted counter).toList.length = 1 :=
    counted_single (by simp [StepCounter.contains,or_comm]) resets stays
  induction steps with
  | nil => exact ordered.elim
  | cons step rest ih =>
    cases rest with
    | nil => exact List.forall_mem_singleton.mpr (resetting ordered.1 ordered.2)
    | cons next later =>
      obtain ⟨⟨counts,stays⟩,others⟩ := (inSequence_cons (by simp)).mp ordered
      exact List.forall_mem_cons.mpr ⟨counting counts stays,ih others⟩

/-- The variant raises what the plain one does in no more steps, and the step counter goes
through them in sequence. -/
structure Condenses (counter : StepCounter) (plain variant : Variant) : Prop where
  descriptor : variant.descriptor = plain.descriptor
  ordered : InSequence counter variant.steps
  fewer : variant.steps.length ≤ plain.steps.length
  lines : (linesOf (variant.steps.map (uncounted counter))).Perm (linesOf plain.steps)

theorem condenses_of_merged {plain joined : Variant}
    (leaves : plain.steps.map (uncounted counter) = plain.steps)
    (ordered : InSequence counter (plain.sequenced counter).steps)
    (merges : (plain.sequenced counter).merged hw counter = .ok joined) :
    Condenses counter plain joined := by
  obtain ⟨descriptor,_,joins⟩ := Program.merged_steps merges
  refine ⟨descriptor,mergedSteps_inSequence joins ordered,?_,?_⟩
  · exact Nat.le_trans (mergedSteps_length joins) (Nat.le_of_eq (sequencedSteps_length plain.steps))
  · have kept := mergedSteps_lines joins
    rwa [Variant.sequenced,sequencedSteps_uncounted,leaves] at kept

/-! Lists of variants, each of which condenses its plain one. -/

section Lists
variable {plains variants : List Variant} (each : List.Forall₂ (Condenses counter) plains variants)
include each

theorem condensed_descriptors : variants.map descriptor = plains.map descriptor := by
  induction each with
  | nil => rfl
  | cons first _ ih => exact congrArg₂ List.cons first.descriptor ih

theorem condensed_steps : variants.length ≤ (variants.flatMap steps).length ∧
    (variants.flatMap steps).length ≤ (plains.flatMap steps).length := by
  induction each with
  | nil => simp
  | cons first _ ih =>
    have some := List.length_pos_iff.mpr first.ordered.not_nil
    have fewer := first.fewer
    simp only [List.length_cons,List.flatMap_cons,List.length_append]
    omega

theorem condensed_counted : ∀ step ∈ variants.flatMap steps, (step.counted counter).toList.length = 1 := by
  induction each with
  | nil => simp
  | cons first _ ih =>
    rw [List.flatMap_cons]
    exact List.forall_mem_append.mpr ⟨first.ordered.counted,ih⟩

theorem condensed_lines : (linesOf ((variants.flatMap steps).map (uncounted counter))).Perm
    (linesOf (plains.flatMap steps)) := by
  induction each with
  | nil => exact .refl _
  | cons first _ ih =>
    rw [List.flatMap_cons,List.map_append,linesOf_append,List.flatMap_cons,linesOf_append]
    exact first.lines.append ih

end Lists
end Variant

namespace Phase

theorem length_eq_sum (phases : List Phase) : phases.length = (all.map phases.count).sum := by
  induction phases with
  | nil => rfl
  | cons phase rest ih =>
    cases phase <;> simp [all,List.count_cons] at ih ⊢ <;> omega

end Phase

theorem Registry.control_phase {hw : Registry} {line : ControlId} {phase : Phase} :
    (∃ decl, hw.control line = .ok decl ∧ decl.action.phase = phase) ↔
      hw.phaseOf line = some phase := by
  unfold control phaseOf actionOf
  cases hw.control? line <;> simp [known]

namespace Summary
open Step
variable {hw : Registry} {program : Program}

theorem phasesOf_ok {phases : List Phase} : phasesOf hw program = .ok phases ↔
    (linesOf program.steps).map hw.phaseOf = phases.map some := by
  have each (lines : List ControlId) (phases : List Phase) :
      lines.mapM (fun line => do return (← hw.control line).action.phase) = .ok phases ↔
        lines.map hw.phaseOf = phases.map some := by
    induction lines generalizing phases with
    | nil => cases phases <;> simp [pure,Except.pure]
    | cons line rest ih =>
      rw [List.mapM_cons]
      simp only [except_bind_ok,ih]
      cases phases <;> simp [pure,Except.pure,Registry.control_phase]
  unfold phasesOf
  rw [each,linesOf,Program.steps,List.flatMap_assoc]

theorem ofProgram_ok {summary : Summary} : ofProgram hw program = .ok summary ↔
    ∃ phases : List Phase, (linesOf program.steps).map hw.phaseOf = phases.map some ∧
      summary = ⟨program.descriptors.size,program.size,program.steps.length,phases.length,
        Phase.all.map fun phase => (phase,phases.count phase)⟩ := by
  unfold ofProgram
  simp only [except_bind_ok,phasesOf_ok,← Program.stepCount_eq]
  exact exists_congr fun phases => and_congr_right fun _ => ⟨fun made => (Except.ok.inj made).symm,
    fun same => congrArg Except.ok same.symm⟩

theorem ofProgram_total (declared : ∀ variant ∈ program, variant.Declared hw) :
    ∃ summary, ofProgram hw program = .ok summary := by
  have each : ∀ line ∈ program.toList.flatMap fun variant =>
      variant.steps.flatMap fun step => step.controls.toList,
      ∃ phase, (do return (← hw.control line).action.phase) = Except.ok phase := by
    intro line member
    obtain ⟨variant,inside,among⟩ := List.mem_flatMap.mp member
    obtain ⟨step,listed,raised⟩ := List.mem_flatMap.mp among
    obtain ⟨decl,found⟩ :=
      Option.isSome_iff_exists.mp ((declared variant inside).controls step listed line raised)
    exact ⟨decl.action.phase,by rw [Registry.control,found]; rfl⟩
  obtain ⟨phases,phased⟩ := except_mapM_total each
  exact ⟨_,by rw [ofProgram,phasesOf,phased]; rfl⟩

/-- Every assertion is counted under its phase, and none is due in the control phase. -/
structure AddsUp (summary : Summary) : Prop where
  phases : summary.perPhase.map Prod.fst = Phase.all
  total : summary.assertions = (summary.perPhase.map Prod.snd).sum
  control : summary.perPhase.lookup .control = some 0

theorem addsUp {summary : Summary} (counted : ofProgram hw program = .ok summary) :
    summary.AddsUp := by
  obtain ⟨phases,phased,rfl⟩ := ofProgram_ok.mp counted
  have none : phases.count .control = 0 := by
    rw [List.count_eq_zero]
    intro member
    have raised := List.mem_map_of_mem (f := some) member
    rw [← phased] at raised
    obtain ⟨line,_,acts⟩ := List.mem_map.mp raised
    obtain ⟨decl,_,same⟩ := Registry.control_phase.mpr acts
    cases action : decl.action <;> simp [action,ControlAction.phase] at same
  refine ⟨by simp [Function.comp_def],?_,?_⟩
  · rw [List.map_map]
    exact Phase.length_eq_sum phases
  · simp [Phase.all,none]

/-- What sequencing and merging do to the counts: of all that is counted only steps may get
fewer, and each step adds one assertion in the process phase. -/
structure Balances (before after : Summary) : Prop where
  instructions : after.instructions = before.instructions
  variants : after.variants = before.variants
  stepped : after.variants ≤ after.steps
  fewer : after.steps ≤ before.steps
  assertions : after.assertions = before.assertions + after.steps
  perPhase : after.perPhase = before.perPhase.map fun (phase,count) =>
    (phase,if phase = .process then count + after.steps else count)

/-! Two programs whose variants correspond, those of the second condensing those of the first. -/

section Condensed
variable {counter : StepCounter} {plain : Program} {plains variants : List Variant}
  (first : plain.toList.Perm plains) (second : program.toList.Perm variants)
  (each : List.Forall₂ (Variant.Condenses counter) plains variants)
include first second each

theorem condensed_lines : ∃ counted : List ControlId,
    (∀ line ∈ counted, counter.contains line = true) ∧ counted.length = program.steps.length ∧
      (linesOf program.steps).Perm (linesOf plain.steps ++ counted) := by
  have before := Program.steps_perm first
  have after := Program.steps_perm second
  refine ⟨(variants.flatMap Variant.steps).flatMap fun step => (step.counted counter).toList,?_,?_,?_⟩
  · simp [Step.counted]
  · rw [List.length_flatMap,after.length_eq,List.map_congr_left (Variant.condensed_counted each)]
    simp
  · refine (linesOf_perm after).trans ((linesOf_split counter _).trans ?_)
    exact ((Variant.condensed_lines each).trans (linesOf_perm before).symm).append_right _

theorem condensed_phases
    (counts : ∀ line, counter.contains line = true → hw.actionOf line = some .process)
    {before : List Phase} (phased : (linesOf plain.steps).map hw.phaseOf = before.map some) :
    ∃ after : List Phase, (linesOf program.steps).map hw.phaseOf = after.map some ∧
      after.Perm (before ++ List.replicate program.steps.length .process) := by
  obtain ⟨counted,driving,length,lines⟩ := condensed_lines first second each
  have processed : counted.map hw.phaseOf = List.replicate program.steps.length (some .process) := by
    rw [← length]
    refine List.map_eq_replicate_iff.mpr fun line member => ?_
    exact Registry.phaseOf_of_action (counts line (driving line member))
  have raised := lines.map hw.phaseOf
  rw [List.map_append,phased,processed,← List.map_replicate,← List.map_append] at raised
  -- A list in another order than a list of images is a list of images, too.
  exact (congrFun₂ (List.eq_map_comp_perm some) _ _).mpr raised

theorem condensed_balances
    (counts : ∀ line, counter.contains line = true → hw.actionOf line = some .process)
    {before : Summary} (counted : ofProgram hw plain = .ok before) :
    ∃ after, ofProgram hw program = .ok after ∧ before.Balances after := by
  obtain ⟨phases,phased,rfl⟩ := ofProgram_ok.mp counted
  obtain ⟨later,also,perm⟩ := condensed_phases first second each counts phased
  obtain ⟨stepped,fewer⟩ := Variant.condensed_steps each
  have before := Program.steps_perm first
  have after := Program.steps_perm second
  have descriptors : program.descriptors = plain.descriptors := by
    unfold Program.descriptors
    rw [SortedSet.ofList_perm (second.map _),SortedSet.ofList_perm (first.map _),
      Variant.condensed_descriptors each]
  have sizes : program.size = plain.size :=
    second.length_eq.trans (each.length_eq.symm.trans first.length_eq.symm)
  refine ⟨_,ofProgram_ok.mpr ⟨later,also,rfl⟩,congrArg SortedSet.size descriptors,sizes,?_,?_,?_,?_⟩
  · rw [after.length_eq]
    exact Nat.le_trans (Nat.le_of_eq second.length_eq) stepped
  · rw [after.length_eq,before.length_eq]
    exact fewer
  · simpa using perm.length_eq
  · rw [List.map_map]
    refine List.map_congr_left fun phase _ => congrArg (Prod.mk phase) ?_
    rw [perm.count_eq,List.count_append,List.count_replicate]
    grind

end Condensed
end Summary

namespace Compiler
variable {compiler : Compiler} {drafts : List Draft} {plain program : Program}

theorem condenses_drafts (made : Program.ofDrafts compiler.hardware drafts = .ok plain)
    (leaves : ∀ draft ∈ drafts, draft.LeavesCounter compiler.counter) (accepts : compiler.Accepts plain)
    (merges : (plain.sequenced compiler.counter).merged compiler.hardware compiler.counter = .ok program) :
    ∃ variants, program.toList.Perm variants ∧
      List.Forall₂ (Variant.Condenses compiler.counter) (drafts.map Draft.variant) variants := by
  have keeps := keeps_of_apart made merges ((apart_iff made accepts).mpr (sequenced_nodup made leaves))
  obtain ⟨variants,listed,matched⟩ := keeps.matched
  refine ⟨variants,listed.symm,List.forall₂_map_left_iff.mpr ?_⟩
  have among := (List.forall₂_and_left drafts variants).mpr ⟨fun _ given => given,matched⟩
  refine among.imp fun draft variant ⟨given,done⟩ => ?_
  exact Variant.condenses_of_merged (leaves draft given).uncounted
    (accepts.inSequence (mem_sequenced_of_draft made given)) done.merges

/-- What compilation counts before and after balances, as long as the drafts leave the step
counter to it. -/
theorem summaries_balance
    (counts : ∀ line, compiler.counter.contains line = true →
      compiler.hardware.actionOf line = some .process)
    (leaves : ∀ draft ∈ drafts, draft.LeavesCounter compiler.counter)
    (compiled : compiler.compileProgram drafts = .ok program) :
    ∃ plain before after, compiler.program drafts = .ok plain ∧
      Summary.ofProgram compiler.hardware plain = .ok before ∧
      Summary.ofProgram compiler.hardware program = .ok after ∧
      before.Balances after ∧ before.AddsUp ∧ after.AddsUp := by
  obtain ⟨plain,made,accepts,merges⟩ := compileProgram_ok.mp compiled
  obtain ⟨variants,listed,each⟩ := condenses_drafts made leaves accepts merges
  obtain ⟨fine,distinct,rfl⟩ := Program.ofDrafts_ok.mp made
  have declared : ∀ variant ∈ SortedSet.ofList (drafts.map Draft.variant),
      variant.Declared compiler.hardware := by
    intro variant member
    obtain ⟨draft,given,rfl⟩ := List.mem_map.mp ((SortedSet.mem_ofList _ _).mp member)
    exact Draft.check_declared (fine draft given)
  obtain ⟨before,counted⟩ := Summary.ofProgram_total declared
  obtain ⟨after,recounted,balances⟩ := Summary.condensed_balances
    (SortedSet.toList_perm distinct (SortedSet.mem_ofList _)) listed each counts counted
  exact ⟨_,before,after,program_ok.mpr made,counted,recounted,balances,Summary.addsUp counted,
    Summary.addsUp recounted⟩

/-- A transfer of A to X and two counts of X, the first of them in the cycle of the transfer. -/
def countedTransfer : List Draft := [.ofEdits ⟨0x20,"tax",.none,"Transfer A to X"⟩
  [.copy Layout.standard.a.tap Layout.standard.x.tap,.step Layout.standard.x.increment.toList [],
    .step Layout.standard.x.increment.toList []]]

theorem countedTransfer_leaves :
    ∀ draft ∈ countedTransfer, draft.LeavesCounter Layout.standard.controller.counter := by
  unfold Draft.LeavesCounter
  simp only [← SortedSet.mem_toList]
  decide +kernel

theorem countedTransfer_balances : ∃ catalog program plain before after,
    Catalog.ofList [⟨0x20,"tax",.none,"Transfer A to X"⟩] = .ok catalog ∧
    (Computer.compiler .standard catalog).compileProgram countedTransfer = .ok program ∧
    (Computer.compiler .standard catalog).program countedTransfer = .ok plain ∧
    Summary.ofProgram Layout.standard.hardware plain = .ok before ∧
    Summary.ofProgram Layout.standard.hardware program = .ok after ∧
    before.Balances after ∧ before.AddsUp ∧ after.AddsUp ∧ after.steps = 2 ∧ before.steps = 3 := by
  have two : ((Catalog.ofList [⟨0x20,"tax",.none,"Transfer A to X"⟩]).mapError .structural >>=
      fun catalog => ((Computer.compiler .standard catalog).compileProgram countedTransfer).map
        fun program => program.steps.length) = .ok 2 := by
    decide +kernel
  have three : (Program.ofDrafts Layout.standard.hardware countedTransfer).map
      (fun plain => plain.steps.length) = .ok 3 := by
    decide +kernel
  obtain ⟨catalog,cataloged,compiled⟩ := except_bind_ok.mp two
  obtain ⟨program,compiled,size⟩ := except_map_ok.mp compiled
  obtain ⟨plain,before,after,made,counted,recounted,balances,adds,also⟩ :=
    summaries_balance Layout.standard_wired.counter_line countedTransfer_leaves compiled
  refine ⟨catalog,program,plain,before,after,except_mapError_ok.mp cataloged,compiled,made,counted,
    recounted,balances,adds,also,?_,?_⟩
  · obtain ⟨_,_,rfl⟩ := Summary.ofProgram_ok.mp recounted
    exact size
  · obtain ⟨listed,drafted,size⟩ := except_map_ok.mp three
    obtain rfl := Except.ok.inj (drafted.symm.trans (program_ok.mp made))
    obtain ⟨_,_,rfl⟩ := Summary.ofProgram_ok.mp counted
    exact size

end Compiler
end Microprogram
