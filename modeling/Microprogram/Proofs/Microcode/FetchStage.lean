import Mathlib.Data.List.Forall2
import Mathlib.Data.List.TakeWhile
import Microprogram.Microcode.Pass
import Microprogram.Proofs.Microcode.Compiled
import Microprogram.Proofs.Microcode.Sequencing

/-! The fetch stage through compilation. Merging stays inside a stage, so the steps of
stage zero become those that the fetch stage merges into. They are the same in two variants
that both go on after it, and up to the step counter in any two. -/
namespace Microprogram

namespace Step
variable {hw : Registry} {counter : StepCounter}

def isFetch (step : Step) : Bool := step.stage = 0

theorem absorb_fetch {current : Step} {rest merged : List Step}
    (absorbed : current.absorb hw counter rest = .ok merged) :
    (∃ first others, merged = first :: others ∧ first.stage = current.stage) ∧
      (current.isFetch = true → current.absorb hw counter (rest.takeWhile isFetch) =
        .ok (merged.takeWhile isFetch)) := by
  refine absorb_induction (motive := fun current rest merged =>
    (∃ first others, merged = first :: others ∧ first.stage = current.stage) ∧
      (current.isFetch = true → current.absorb hw counter (rest.takeWhile isFetch) =
        .ok (merged.takeWhile isFetch))) ?_ ?_ ?_ absorbed
  · intro current
    refine ⟨⟨current,[],rfl,rfl⟩,fun fetch => ?_⟩
    rw [List.takeWhile_cons_of_pos fetch]
    rfl
  · rintro current next rest merged joins ⟨head,stays⟩
    refine ⟨head,fun fetch => ?_⟩
    have also : next.isFetch = true := by
      unfold isFetch
      rw [← (mergeable_precedes joins).1]
      exact fetch
    rw [List.takeWhile_cons_of_pos also]
    unfold absorb
    rw [joins]
    exact stays fetch
  · rintro current next rest merged apart ⟨⟨first,others,rfl,same⟩,stays⟩
    refine ⟨⟨current,_,rfl,rfl⟩,fun fetch => ?_⟩
    rw [List.takeWhile_cons_of_pos fetch]
    cases goes : next.isFetch with
    | true =>
      rw [List.takeWhile_cons_of_pos goes]
      unfold absorb
      rw [apart,except_ok_bind,if_neg Bool.false_ne_true,stays goes]
      rfl
    | false =>
      have ended : first.isFetch = false := by
        unfold isFetch
        rw [same]
        exact goes
      rw [List.takeWhile_cons_of_neg (by simp [goes]),List.takeWhile_cons_of_neg (by simp [ended])]
      rfl

end Step

namespace Variant
variable {hw : Registry} {counter : StepCounter}

theorem mergedSteps_fetch {steps merged : List Step}
    (joined : mergedSteps hw counter steps = .ok merged) :
    mergedSteps hw counter (steps.takeWhile Step.isFetch) = .ok (merged.takeWhile Step.isFetch) := by
  cases steps with
  | nil =>
    cases joined
    rfl
  | cons step rest =>
    obtain ⟨⟨first,others,rfl,same⟩,stays⟩ := Step.absorb_fetch joined
    cases fetch : step.isFetch with
    | true =>
      rw [List.takeWhile_cons_of_pos fetch]
      exact stays fetch
    | false =>
      have ended : first.isFetch = false := by
        unfold Step.isFetch
        rw [same]
        exact fetch
      rw [List.takeWhile_cons_of_neg (by simp [fetch]),List.takeWhile_cons_of_neg (by simp [ended])]
      rfl

/-- The variant has steps after its fetch stage. -/
def GoesOn (variant : Variant) : Prop := ∃ step ∈ variant.steps, step.isFetch = false

instance (variant : Variant) : Decidable variant.GoesOn :=
  inferInstanceAs (Decidable (∃ step ∈ variant.steps, step.isFetch = false))

theorem steps_split (variant : Variant) :
    ∃ later, variant.steps = variant.fetchStage ++ later ∧ (later = [] ↔ ¬variant.GoesOn) ∧
      ∀ step ∈ later.head?, step.isFetch = false := by
  refine ⟨variant.steps.dropWhile Step.isFetch,List.takeWhile_append_dropWhile.symm,?_,?_⟩
  · simp [GoesOn,List.dropWhile_eq_nil_iff]
  · intro step first
    have head := List.head?_dropWhile_not Step.isFetch variant.steps
    rw [first] at head
    simpa using head

theorem fetchStage_isFetch (variant : Variant) : ∀ step ∈ variant.fetchStage, step.isFetch = true :=
  fun _ member => List.mem_takeWhile_imp member

theorem sequencedSteps_isFetch (steps : List Step) :
    (sequencedSteps counter steps).map Step.isFetch = steps.map Step.isFetch :=
  sequencedSteps_map (fun _ _ _ => rfl) steps

theorem sequenced_fetchStage (variant : Variant) : (variant.sequenced counter).fetchStage =
    if variant.GoesOn then variant.fetchStage.map (Step.withControl · counter.increment)
    else sequencedSteps counter variant.fetchStage := by
  obtain ⟨later,split,ends,apart⟩ := variant.steps_split
  have fetch := variant.fetchStage_isFetch
  change (sequencedSteps counter variant.steps).takeWhile Step.isFetch = _
  split
  next on =>
    obtain ⟨next,rest,rfl⟩ := List.exists_cons_of_ne_nil fun none => ends.mp none on
    have ended := apart next rfl
    have kept : ∀ step ∈ variant.fetchStage.map (Step.withControl · counter.increment),
        step.isFetch = true := List.forall_mem_map.mpr fetch
    have stages := @sequencedSteps_isFetch counter (next :: rest)
    rw [split,sequencedSteps_append _ (List.cons_ne_nil next rest),
      List.takeWhile_append_of_pos kept]
    cases listed : sequencedSteps counter (next :: rest) with
    | nil => exact List.append_nil _
    | cons first others =>
      rw [listed,List.map_cons,List.map_cons,List.cons.injEq] at stages
      rw [List.takeWhile_cons_of_neg (by simp [stages.1,ended]),List.append_nil]
  next stops =>
    rw [ends.mpr stops,List.append_nil] at split
    rw [split,List.takeWhile_eq_self_iff]
    intro step member
    have listed := List.mem_map_of_mem (f := Step.isFetch) member
    rw [sequencedSteps_isFetch] at listed
    obtain ⟨first,inside,same⟩ := List.mem_map.mp listed
    rw [← same]
    exact fetch first inside

theorem merged_fetchStage {ordered joined : Variant} (merges : ordered.merged hw counter = .ok joined) :
    mergedSteps hw counter ordered.fetchStage = .ok joined.fetchStage :=
  mergedSteps_fetch (Program.merged_steps merges).2.2

end Variant

namespace Variant
variable {hw : Registry} {counter : StepCounter}

theorem goesOn_iff (variant : Variant) :
    variant.GoesOn ↔ variant.fetchStage.length < variant.steps.length := by
  obtain ⟨later,split,ends,_⟩ := variant.steps_split
  have lengths := congrArg List.length split
  rw [List.length_append] at lengths
  rw [← not_iff_not,← ends,← List.length_eq_zero_iff]
  omega

theorem fetchStage_length_le (variant : Variant) : variant.fetchStage.length ≤ variant.steps.length :=
  (List.takeWhile_prefix _).length_le

theorem fetchStage_getElem? (variant : Variant) {place : Nat}
    (early : place < variant.fetchStage.length) :
    variant.fetchStage[place]? = variant.steps[place]? := by
  obtain ⟨later,split,_⟩ := variant.steps_split
  rw [split,List.getElem?_append_left early]

theorem mergedSteps_stages {steps merged : List Step}
    (joined : mergedSteps hw counter steps = .ok merged) :
    ∀ step ∈ steps, ∃ other ∈ merged, other.stage = step.stage := by
  cases steps with
  | nil => simp
  | cons step rest =>
    refine Step.absorb_induction (motive := fun current rest merged =>
      ∀ step ∈ current :: rest, ∃ other ∈ merged, other.stage = step.stage) ?_ ?_ ?_ joined
    · intro current
      simp
    · intro current next rest merged joins ih
      obtain ⟨first,others⟩ := List.forall_mem_cons.mp ih
      have same : current.stage = next.stage := (Step.mergeable_precedes joins).1
      refine List.forall_mem_cons.mpr ⟨first,List.forall_mem_cons.mpr ⟨?_,others⟩⟩
      rw [← same]
      exact first
    · intro current next rest merged _ ih
      refine List.forall_mem_cons.mpr ⟨⟨current,List.mem_cons_self,rfl⟩,fun step member => ?_⟩
      obtain ⟨other,inside,same⟩ := ih step member
      exact ⟨other,List.mem_cons_of_mem _ inside,same⟩

theorem merged_goesOn {plain joined : Variant}
    (merges : (plain.sequenced counter).merged hw counter = .ok joined) :
    joined.GoesOn ↔ plain.GoesOn := by
  have stages := @sequencedSteps_isFetch counter plain.steps
  have joins := (Program.merged_steps merges).2.2
  have ordered : plain.GoesOn ↔ ∃ step ∈ sequencedSteps counter plain.steps, step.isFetch = false := by
    have mapped (steps : List Step) : (∃ step ∈ steps, step.isFetch = false) ↔
        false ∈ steps.map Step.isFetch := by simp
    rw [GoesOn,mapped,mapped,stages]
  rw [ordered]
  constructor
  · rintro ⟨step,member,ended⟩
    by_contra none
    have fetch : ∀ step ∈ sequencedSteps counter plain.steps, step.isFetch = true := by simpa using none
    have kept : ∀ step ∈ joined.steps, step.isFetch = true :=
      mergedSteps_forall (fun _ _ _ first _ => first) joins fetch
    rw [kept step member] at ended
    contradiction
  · rintro ⟨step,member,ended⟩
    obtain ⟨other,inside,same⟩ := mergedSteps_stages joins step member
    refine ⟨other,inside,?_⟩
    unfold Step.isFetch
    rw [same]
    exact ended

end Variant

/-! Merging looks at the lines of the step counter only for the buses they write. Where
they write none, steps that differ in those lines merge alike. -/

theorem SortedSet.filter_union {α : Type} [Ord α] [Std.TransOrd α] [Std.LawfulEqOrd α]
    (keep : α → Bool) (s t : SortedSet α) :
    (s.union t).filter keep = (s.filter keep).union (t.filter keep) :=
  ext_mem fun a => by simp only [mem_filter,mem_union]; grind

namespace Step
variable {hw : Registry} {counter : StepCounter}

def uncounted (counter : StepCounter) (step : Step) : Step :=
  { step with controls := step.controls.filter fun line => !counter.contains line }

theorem mem_uncounted {step : Step} {line : ControlId} :
    line ∈ (step.uncounted counter).controls ↔ line ∈ step.controls ∧ counter.contains line = false := by
  rw [uncounted,SortedSet.mem_filter,Bool.not_eq_true']

theorem uncounted_withControl (step : Step) {line : ControlId} (counted : counter.contains line = true) :
    (step.withControl line).uncounted counter = step.uncounted counter := by
  have same : (step.withControl line).controls.filter (fun line => !counter.contains line) =
      step.controls.filter fun line => !counter.contains line := by
    refine SortedSet.ext_mem fun other => ?_
    rw [SortedSet.mem_filter,SortedSet.mem_filter,Variant.mem_withControl]
    grind
  exact congrArg (fun controls => ({ step with controls } : Step)) same

theorem phases_uncounted (lines : List ControlId) :
    phases hw counter (lines.filter fun line => !counter.contains line) = phases hw counter lines := by
  induction lines with
  | nil => rfl
  | cons line rest ih =>
    cases counted : counter.contains line with
    | true =>
      rw [List.filter_cons_of_neg (by simp [counted]),ih,phases,if_pos counted]
    | false =>
      rw [List.filter_cons_of_pos (by simp [counted]),phases,phases,ih,counted]

theorem merge_uncounted (step next : Step) : (step.merge counter next).uncounted counter =
    (step.uncounted counter).merge counter (next.uncounted counter) := by
  have same : ((step.merge counter next).uncounted counter).controls =
      ((step.uncounted counter).merge counter (next.uncounted counter)).controls := by
    refine SortedSet.ext_mem fun line => ?_
    simp only [mem_uncounted,mem_merge]
    grind
  exact congrArg (fun controls => (⟨step.stage,controls,step.buses.union next.buses⟩ : Step)) same

section Counting
variable (counts : ∀ line, counter.contains line = true → hw.actionOf line = some .process)
include counts

theorem writesTwice_uncounted (written : SortedSet BusId) (lines : List ControlId) :
    writesTwice hw written (lines.filter fun line => !counter.contains line) =
      writesTwice hw written lines := by
  induction lines generalizing written with
  | nil => rfl
  | cons line rest ih =>
    cases counted : counter.contains line with
    | true =>
      obtain ⟨decl,found,acts⟩ := (hw.actionOf_eq_some line .process).mp (counts line counted)
      rw [List.filter_cons_of_neg (by simp [counted]),ih,writesTwice,Registry.stepControl_ok.mpr found,
        except_ok_bind,acts]
    | false =>
      rw [List.filter_cons_of_pos (by simp [counted]),writesTwice,writesTwice]
      refine bind_congr fun decl => ?_
      split
      · rw [ih]
      · rw [ih]

theorem mergeable_uncounted (step next : Step) :
    mergeable hw counter (step.uncounted counter) (next.uncounted counter) =
      mergeable hw counter step next := by
  have phased (step : Step) : phases hw counter (step.uncounted counter).controls.toList =
      phases hw counter step.controls.toList := phases_uncounted _
  have wrote : writesTwice hw ∅
      ((step.uncounted counter).controls.union (next.uncounted counter).controls).toList =
        writesTwice hw ∅ (step.controls.union next.controls).toList := by
    unfold uncounted
    rw [← SortedSet.filter_union]
    exact writesTwice_uncounted counts ∅ _
  unfold mergeable
  rw [phased,phased,wrote]
  rfl

theorem absorb_uncounted (current : Step) (rest : List Step) :
    (current.uncounted counter).absorb hw counter (rest.map (uncounted counter)) =
      (current.absorb hw counter rest).map (List.map (uncounted counter)) := by
  induction rest generalizing current with
  | nil => rfl
  | cons next rest ih =>
    rw [List.map_cons]
    unfold absorb
    rw [mergeable_uncounted counts]
    cases mergeable hw counter current next with
    | error rejection => rfl
    | ok joins =>
      cases joins with
      | true =>
        rw [except_ok_bind,except_ok_bind,if_pos rfl,if_pos rfl,← merge_uncounted]
        exact ih (current.merge counter next)
      | false =>
        rw [except_ok_bind,except_ok_bind,if_neg Bool.false_ne_true,if_neg Bool.false_ne_true,ih]
        cases next.absorb hw counter rest <;> rfl

end Counting
end Step

namespace Variant
variable {hw : Registry} {counter : StepCounter}

theorem mergedSteps_uncounted
    (counts : ∀ line, counter.contains line = true → hw.actionOf line = some .process)
    (steps : List Step) : mergedSteps hw counter (steps.map (Step.uncounted counter)) =
      (mergedSteps hw counter steps).map (List.map (Step.uncounted counter)) := by
  cases steps with
  | nil => rfl
  | cons step rest => exact Step.absorb_uncounted counts step rest

theorem sequencedSteps_uncounted (steps : List Step) :
    (sequencedSteps counter steps).map (Step.uncounted counter) =
      steps.map (Step.uncounted counter) :=
  sequencedSteps_map (fun step _ counted => step.uncounted_withControl counted) steps

theorem sequenced_uncounted (variant : Variant) :
    (variant.sequenced counter).fetchStage.map (Step.uncounted counter) =
      variant.fetchStage.map (Step.uncounted counter) := by
  rw [sequenced_fetchStage]
  split
  · rw [List.map_map]
    exact List.map_congr_left fun step _ =>
      step.uncounted_withControl (by simp [StepCounter.contains])
  · exact sequencedSteps_uncounted _

end Variant

section Pair
variable {hw : Registry} {counter : StepCounter} {plain other joined also : Variant}
  (merges : (plain.sequenced counter).merged hw counter = .ok joined)
  (merged : (other.sequenced counter).merged hw counter = .ok also)
  (same : plain.fetchStage = other.fetchStage)
include merges merged same

theorem Variant.fetchStage_congr (alike : plain.GoesOn ↔ other.GoesOn) :
    joined.fetchStage = also.fetchStage := by
  have first := merged_fetchStage merges
  have second := merged_fetchStage merged
  have staged : (plain.sequenced counter).fetchStage = (other.sequenced counter).fetchStage := by
    simp only [sequenced_fetchStage,same,alike]
  rw [staged] at first
  exact Except.ok.inj (first.symm.trans second)

theorem Variant.fetchStage_uncounted
    (counts : ∀ line, counter.contains line = true → hw.actionOf line = some .process) :
    joined.fetchStage.map (Step.uncounted counter) = also.fetchStage.map (Step.uncounted counter) := by
  have first := mergedSteps_uncounted counts (plain.sequenced counter).fetchStage
  have second := mergedSteps_uncounted counts (other.sequenced counter).fetchStage
  rw [sequenced_uncounted,merged_fetchStage merges] at first
  rw [sequenced_uncounted,merged_fetchStage merged,← same,first] at second
  exact Except.ok.inj second

end Pair

namespace Program

theorem firstDifference_none {steps others : List Step} :
    Variant.firstDifference steps others = none ↔ steps = others := by
  fun_induction Variant.firstDifference steps others with
  | case1 => simp
  | case2 step rest others ih => simpa using ih
  | case3 a rest b others apart => simp [apart]
  | case4 steps others empty both =>
    simp only [reduceCtorEq,false_iff]
    rintro rfl
    cases steps with
    | nil => exact empty rfl rfl
    | cons step rest => exact both step rest step rest rfl rfl

theorem checkFetchStage_ok {hw : Registry} {program : Program} :
    program.checkFetchStage hw = .ok () ↔
      ∀ variant ∈ program, ∀ other ∈ program, variant.fetchStage = other.fetchStage := by
  have members (variant : Variant) : variant ∈ program ↔ variant ∈ program.toList := .rfl
  unfold checkFetchStage
  simp only [members]
  cases program.toList with
  | nil => simp
  | cons reference others =>
    dsimp only
    rw [except_forM_ok]
    constructor
    · intro checked
      have agrees : ∀ variant ∈ others, variant.fetchStage = reference.fetchStage := by
        intro variant member
        have given := checked variant member
        split at given
        · cases given
        next found => exact firstDifference_none.mp found
      grind
    · intro alike variant member
      rw [firstDifference_none.mpr
        (alike variant (List.mem_cons_of_mem _ member) reference List.mem_cons_self)]

end Program
end Microprogram
