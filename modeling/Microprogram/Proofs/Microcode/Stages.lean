import Microprogram.Proofs.Microcode.Compiled
import Microprogram.Proofs.Microcode.Drafts
import Microprogram.Proofs.Microcode.Sequencing

/-! Stages of a draft. Stages are numbered by a byte, and the last number stays: as long as
there is a next one, a new stage keeps the steps before it out of the cycles of those after it. -/
namespace Microprogram

namespace Draft

theorem edits_append (draft : Draft) (before after : List Edit) :
    draft.edits (before ++ after) = (draft.edits before).edits after := List.foldl_append

theorem edits_stage (draft : Draft) (changes : List Edit) :
    (draft.edits changes).stage.toNat = min 255 (draft.stage.toNat + changes.count .nextStage) := by
  have bound := draft.stage.toNat_lt
  induction changes generalizing draft with
  | nil =>
    change draft.stage.toNat = _
    rw [List.count_nil]
    omega
  | cons change rest ih =>
    have later := ih (draft.edit change) (draft.edit change).stage.toNat_lt
    change ((draft.edit change).edits rest).stage.toNat = _
    rw [later,List.count_cons]
    cases change with
    | step lines buses => rfl
    | gate status value => rw [(draft.edit_gate_steps status value).2]; rfl
    | nextStage =>
      change min 255 ((stageAfter draft.stage).toNat + _) = _
      rw [stageAfter_toNat]
      simp
      omega

theorem edit_staged {draft : Draft} (staged : ∀ step ∈ draft.steps, step.stage ≤ draft.stage)
    (change : Edit) : ∀ step ∈ (draft.edit change).steps, step.stage ≤ (draft.edit change).stage := by
  cases change with
  | step lines buses =>
    exact List.forall_mem_append.mpr ⟨staged,List.forall_mem_singleton.mpr (UInt8.le_refl _)⟩
  | gate status value =>
    obtain ⟨steps,stage⟩ := draft.edit_gate_steps status value
    rwa [steps,stage]
  | nextStage => exact fun step member => UInt8.le_trans (staged step member) (le_stageAfter _)

theorem edits_staged {draft : Draft} (staged : ∀ step ∈ draft.steps, step.stage ≤ draft.stage)
    (changes : List Edit) :
    ∀ step ∈ (draft.edits changes).steps, step.stage ≤ (draft.edits changes).stage := by
  induction changes generalizing draft with
  | nil => exact staged
  | cons change rest ih => exact ih (edit_staged staged change)

/-- A new stage lies between the steps before it and those after it, if there is a next one. -/
theorem ofEdits_split {descriptor : Descriptor} {before after : List Edit}
    (early : before.count .nextStage < 255) : ∃ later,
      (ofEdits descriptor (before ++ .nextStage :: after)).steps =
        (ofEdits descriptor before).steps ++ later ∧
      ∀ step ∈ (ofEdits descriptor before).steps, ∀ next ∈ later, step.stage < next.stage := by
  obtain ⟨later,steps,_,staged⟩ := ((ofEdits descriptor before).edit .nextStage).edits_steps after
  refine ⟨later,?_,fun step member next inside => ?_⟩
  · unfold ofEdits
    rw [edits_append]
    exact steps
  · have below : step.stage ≤ (ofEdits descriptor before).stage :=
      edits_staged (by simp [start]) before step member
    have above := staged next inside
    have reached := (start descriptor).edits_stage before
    have follows := stageAfter_toNat (ofEdits descriptor before).stage
    rw [UInt8.le_iff_toNat_le] at below above
    rw [UInt8.lt_iff_toNat_lt]
    change (stageAfter (ofEdits descriptor before).stage).toNat ≤ _ at above
    change (ofEdits descriptor before).stage.toNat = min 255 (0 + _) at reached
    omega

theorem ofEdits_last {descriptor : Descriptor} {before after : List Edit}
    (late : 255 ≤ before.count .nextStage) :
    ofEdits descriptor (before ++ .nextStage :: after) = ofEdits descriptor (before ++ after) := by
  have reached := (start descriptor).edits_stage before
  have last : ((start descriptor).edits before).stage = 255 := by
    rw [← UInt8.toNat_inj,reached]
    change min 255 (0 + _) = 255
    omega
  have same : ((start descriptor).edits before).edit .nextStage = (start descriptor).edits before := by
    simp only [edit,stageAfter,if_pos last]
    rw [← last]
  unfold ofEdits
  rw [edits_append,edits_append]
  exact congrArg (edits · after) same

end Draft

namespace Variant
variable {hw : Registry} {counter : StepCounter}

/-- The steps before a place and those from there on are merged on their own. -/
def MergesApart (hw : Registry) (counter : StepCounter) (variant : Variant) (place : Nat) : Prop :=
  ∀ joined, variant.merged hw counter = .ok joined → ∃ front back,
    mergedBlocks hw counter variant.steps = .ok (front ++ back) ∧
      joined.steps = (front ++ back).map (Block.joined counter) ∧
      front.flatMap Block.steps = variant.steps.take place ∧
      back.flatMap Block.steps = variant.steps.drop place

theorem mergesApart_of_stages {variant : Variant} {stages others : List UInt8}
    (staged : variant.steps.map Step.stage = stages ++ others)
    (apart : ∀ stage ∈ stages, ∀ other ∈ others, stage < other) :
    MergesApart hw counter variant stages.length := by
  intro joined merges
  obtain ⟨blocks,cut,made⟩ := mergedSteps_ok.mp (Program.merged_steps merges).2.2
  obtain ⟨early,late,split,rfl,rfl⟩ := List.map_eq_append_iff.mp staged
  rw [split,List.length_map,List.take_left,List.drop_left]
  cases early with
  | nil =>
    refine ⟨[],blocks,split ▸ cut,made.symm,rfl,?_⟩
    rw [mergedBlocks_steps cut,split]
    rfl
  | cons step early =>
    have separate : ∀ former ∈ step :: early, ∀ next ∈ late.head?, former.stage ≠ next.stage := by
      intro former member next first same
      have less := apart _ (List.mem_map_of_mem member) _
        (List.mem_map_of_mem (List.mem_of_mem_head? first))
      rw [same] at less
      exact UInt8.lt_irrefl _ less
    have parted := cut
    rw [split,mergedBlocks_append (List.cons_ne_nil _ _) separate] at parted
    obtain ⟨front,former,remains⟩ := except_bind_ok.mp parted
    obtain ⟨back,latter,ended⟩ := except_bind_ok.mp remains
    cases ended
    exact ⟨front,back,split ▸ cut,made.symm,mergedBlocks_steps former,mergedBlocks_steps latter⟩

end Variant

namespace Draft

/-- What comes before a new stage is never merged with what comes after it, sequenced or not,
unless the stages have run out. Then a new stage is none. -/
theorem stages_apart (hw : Registry) (counter : StepCounter) (descriptor : Descriptor)
    (before after : List Edit) :
    (before.count .nextStage < 255 →
      (ofEdits descriptor (before ++ .nextStage :: after)).variant.MergesApart hw counter
        (ofEdits descriptor before).steps.length ∧
      ((ofEdits descriptor (before ++ .nextStage :: after)).variant.sequenced counter).MergesApart hw
        counter (ofEdits descriptor before).steps.length) ∧
    (255 ≤ before.count .nextStage →
      ofEdits descriptor (before ++ .nextStage :: after) = ofEdits descriptor (before ++ after)) := by
  refine ⟨fun early => ?_,ofEdits_last⟩
  obtain ⟨later,split,apart⟩ := @ofEdits_split descriptor before after early
  have parted (ordered : Variant) (staged : ordered.steps.map Step.stage =
      (ofEdits descriptor (before ++ .nextStage :: after)).steps.map Step.stage) :
      ordered.MergesApart hw counter (ofEdits descriptor before).steps.length := by
    rw [split,List.map_append] at staged
    rw [← List.length_map Step.stage]
    refine Variant.mergesApart_of_stages staged ?_
    simpa only [List.forall_mem_map] using apart
  exact ⟨parted _ rfl,parted _ (Variant.sequencedSteps_stage _)⟩

def transferIn (stages : Nat) : List Edit :=
  List.replicate stages .nextStage ++ [.copy Layout.standard.a.tap Layout.standard.x.tap]

/-- The transfer, and a count of X in the stage after it. -/
def transferThenCount (stages : Nat) : Draft :=
  ofEdits ⟨0x20,"tax",.none,"Transfer A to X"⟩
    (transferIn stages ++ .nextStage :: [.step Layout.standard.x.increment.toList []])

theorem transferThenCount_apart : (transferIn 254).count .nextStage < 255 ∧
    ((transferThenCount 254).variant.sequenced Layout.standard.controller.counter).MergesApart
      Layout.standard.hardware Layout.standard.controller.counter 1 ∧
    255 ≤ (transferIn 255).count .nextStage ∧ transferThenCount 255 =
      ofEdits ⟨0x20,"tax",.none,"Transfer A to X"⟩
        (transferIn 255 ++ [.step Layout.standard.x.increment.toList []]) := by
  have early : (transferIn 254).count .nextStage < 255 := by decide +kernel
  have late : 255 ≤ (transferIn 255).count .nextStage := by decide +kernel
  have apart := stages_apart Layout.standard.hardware Layout.standard.controller.counter
  exact ⟨early,((apart _ _ _).1 early).2,late,(apart _ _ _).2 late⟩

theorem transferThenCount_together :
    ¬((transferThenCount 255).variant.sequenced Layout.standard.controller.counter).MergesApart
      Layout.standard.hardware Layout.standard.controller.counter 1 := by
  have single : (Variant.mergedSteps Layout.standard.hardware Layout.standard.controller.counter
      ((transferThenCount 255).variant.sequenced Layout.standard.controller.counter).steps).map
        List.length = .ok 1 := by decide +kernel
  have two : ((transferThenCount 255).variant.sequenced
      Layout.standard.controller.counter).steps.length = 2 := by decide +kernel
  obtain ⟨merged,joins,size⟩ := except_map_ok.mp single
  intro apart
  obtain ⟨front,back,_,made,before,after⟩ := apart _ (Variant.merged_of_steps joins)
  -- One step stands on each side of the place, so there is a block on each side.
  have some : front ≠ [] := by
    rintro rfl
    have sides := congrArg List.length before
    rw [List.length_take,two] at sides
    simp at sides
  have more : back ≠ [] := by
    rintro rfl
    have sides := congrArg List.length after
    rw [List.length_drop,two] at sides
    simp at sides
  have blocks := congrArg List.length made
  rw [size,List.length_map,List.length_append] at blocks
  have left := List.length_pos_iff.mpr some
  have right := List.length_pos_iff.mpr more
  omega

end Draft
end Microprogram
