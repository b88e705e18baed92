import Mathlib.Data.List.Forall2
import Microprogram.Proofs.Microcode.Sequencing

/-! What merging leaves of a variant. Each merged step is a block of steps, one after the
other in one stage; it raises their lines in the order in which they did, none of them twice,
and drives the step counter as the last of them. -/
namespace Microprogram

theorem flatMap_append_of_apart {α : Type} {phases : List Phase}
    (sorted : phases.Pairwise fun p q => p.rank < q.rank) {first second both : Phase → List α}
    (each : ∀ p, both p = first p ++ second p)
    (apart : ∀ p q, first p ≠ [] → second q ≠ [] → p.rank < q.rank) :
    phases.flatMap both = phases.flatMap first ++ phases.flatMap second := by
  induction phases with
  | nil => rfl
  | cons phase rest ih =>
    obtain ⟨below,tail⟩ := List.pairwise_cons.mp sorted
    simp only [List.flatMap_cons,each phase,ih tail]
    by_cases none : second phase = []
    · simp [none]
    · -- Once the second begins, nothing is left of the first.
      have ended : rest.flatMap first = [] := by
        rw [List.flatMap_eq_nil_iff]
        intro later member
        by_contra more
        have order := apart later phase more none
        have order' := below later member
        omega
      simp [ended]

namespace Step
variable {hw : Registry} {counter : StepCounter}

/-- The lines that a step raises in a phase, those of the step counter aside. -/
def actionsIn (hw : Registry) (counter : StepCounter) (step : Step) (phase : Phase) : ControlSet :=
  step.controls.filter fun line => !counter.contains line && hw.phaseOf line == some phase

/-- All that a step does besides driving the step counter, phase after phase. -/
def actions (hw : Registry) (counter : StepCounter) (step : Step) : List ControlId :=
  Phase.all.flatMap fun phase => (step.actionsIn hw counter phase).toList

theorem mem_actionsIn {step : Step} {phase : Phase} {line : ControlId} :
    line ∈ step.actionsIn hw counter phase ↔
      line ∈ step.controls ∧ counter.contains line = false ∧ hw.phaseOf line = some phase := by
  simp [actionsIn]

theorem actions_merge {step next : Step}
    (before : Precedes hw counter step.controls next.controls) :
    (step.merge counter next).actions hw counter = step.actions hw counter ++ next.actions hw counter := by
  have apart (p q : Phase) (first : (step.actionsIn hw counter p).toList ≠ [])
      (second : (next.actionsIn hw counter q).toList ≠ []) : p.rank < q.rank := by
    obtain ⟨line,found⟩ := List.exists_mem_of_ne_nil _ first
    obtain ⟨other,given⟩ := List.exists_mem_of_ne_nil _ second
    obtain ⟨member,aloof,phased⟩ := mem_actionsIn.mp found
    obtain ⟨inside,aside,also⟩ := mem_actionsIn.mp given
    exact before line member other inside aloof aside p q phased also
  have merged (phase : Phase) (line : ControlId) :
      line ∈ (step.merge counter next).actionsIn hw counter phase ↔
        line ∈ step.actionsIn hw counter phase ∨ line ∈ next.actionsIn hw counter phase := by
    have either : counter.contains line = false → (line ∈ (step.merge counter next).controls ↔
        line ∈ step.controls ∨ line ∈ next.controls) := mem_merge_of_not_contains
    simp only [mem_actionsIn]
    tauto
  refine flatMap_append_of_apart (by decide) (fun phase => ?_) apart
  -- Both steps do not act in the same phase.
  by_cases none : (next.actionsIn hw counter phase).toList = []
  · rw [none,List.append_nil]
    refine congrArg SortedSet.toList (SortedSet.ext_mem fun line => ?_)
    rw [merged,or_iff_left]
    exact List.eq_nil_iff_forall_not_mem.mp none line
  · have ended : (step.actionsIn hw counter phase).toList = [] := by
      by_contra some
      exact Nat.lt_irrefl _ (apart phase phase some none)
    rw [ended,List.nil_append]
    refine congrArg SortedSet.toList (SortedSet.ext_mem fun line => ?_)
    rw [merged,or_iff_right]
    exact List.eq_nil_iff_forall_not_mem.mp ended line

theorem Precedes.disjoint {lines others : ControlSet} (before : Precedes hw counter lines others)
    (declared : ∀ line ∈ lines, counter.contains line = false → ∃ action, hw.actionOf line = some action) :
    ∀ line ∈ lines, counter.contains line = false → line ∉ others := by
  intro line member apart inside
  obtain ⟨action,acts⟩ := declared line member apart
  have phased := Registry.phaseOf_of_action acts
  exact Nat.lt_irrefl _ (before line member line inside apart apart _ _ phased phased)

end Step

namespace Block
variable {hw : Registry} {counter : StepCounter}

/-- The merged step holds what the steps of the block did, in one cycle. -/
structure Becomes (hw : Registry) (counter : StepCounter) (block : Block) (merged : Step) : Prop where
  staged : ∀ step ∈ block.steps, step.stage = merged.stage
  /-- The lines of the merged step are those of the block. -/
  gathers : ∀ line, counter.contains line = false →
    (line ∈ merged.controls ↔ ∃ step ∈ block.steps, line ∈ step.controls)
  /-- No line is raised by two steps of the block. -/
  disjoint : block.steps.Pairwise fun step other =>
    ∀ line ∈ step.controls, counter.contains line = false → line ∉ other.controls
  /-- The step counter is driven as by the last step of the block. -/
  counts : ∀ line, counter.contains line = true →
    (line ∈ merged.controls ↔ line ∈ block.last.controls)
  annotates : ∀ bus, bus ∈ merged.buses ↔ ∃ step ∈ block.steps, bus ∈ step.buses
  /-- An earlier step of the block is done before a later one begins. -/
  ascends : block.steps.Pairwise fun step other =>
    Step.Precedes hw counter step.controls other.controls
  /-- Where two steps of the block do something, no bus has two writers. -/
  single : 2 ≤ block.steps.countP (Step.busy counter) → SingleWriter hw merged.controls

namespace Grown
variable {block : Block} (grown : block.Grown hw counter)
include grown

theorem actions : (block.joined counter).actions hw counter =
    block.steps.flatMap (Step.actions hw counter) := by
  induction grown with
  | one step => simp [steps,joined]
  | @add block next grown joins ih =>
    rw [joined_add,Step.actions_merge (Step.mergeable_precedes joins).2,ih,steps_add,
      List.flatMap_append]
    simp

theorem becomes (counts : ∀ line, counter.contains line = true → hw.actionOf line = some .process)
    (declared : ∀ step ∈ block.steps, ∀ line ∈ step.controls, ∃ action, hw.actionOf line = some action)
    (onward : ∀ step ∈ block.steps.dropLast, counter.reset ∉ step.controls) :
    block.Becomes hw counter (block.joined counter) where
  staged := grown.staged
  gathers _ := mem_joined
  disjoint := grown.ascends.imp_of_mem fun member _ before =>
    before.disjoint fun line inside _ => declared _ member line inside
  counts _ := mem_joined_counted onward
  annotates _ := mem_joined_buses
  ascends := grown.ascends
  single := grown.single counts

end Grown
end Block

namespace Variant
variable {hw : Registry} {counter : StepCounter}

theorem dropLast_of_flatMap {blocks : List Block} {block : Block} (among : block ∈ blocks) :
    ∀ step ∈ block.steps.dropLast, step ∈ (blocks.flatMap Block.steps).dropLast := by
  obtain ⟨front,back,rfl⟩ := List.append_of_mem among
  intro step member
  have some : block.steps ++ back.flatMap Block.steps ≠ [] := by simp [Block.steps]
  rw [List.flatMap_append,List.flatMap_cons,List.dropLast_append_of_ne_nil some]
  refine List.mem_append_right _ ?_
  by_cases last : back.flatMap Block.steps = []
  · rwa [last,List.append_nil]
  · rw [List.dropLast_append_of_ne_nil last]
    exact List.mem_append_left _ (List.dropLast_subset _ member)

/-- A variant with the blocks into which merging cuts its steps. -/
structure Groups (hw : Registry) (counter : StepCounter) (variant joined : Variant)
    (blocks : List Block) : Prop where
  descriptor : joined.descriptor = variant.descriptor
  guard : joined.guard = variant.guard
  cut : blocks.flatMap Block.steps = variant.steps
  becomes : List.Forall₂ (Block.Becomes hw counter) blocks joined.steps
  /-- Nothing that the variant does is lost, repeated or done out of turn. -/
  actions : joined.steps.flatMap (Step.actions hw counter) =
    variant.steps.flatMap (Step.actions hw counter)
  accepted : checkSteps counter joined.label 0 joined.steps = .ok ()

/-- Merging cuts a variant that drives the step counter in sequence into blocks, and makes one
step of each. -/
theorem merging_groups (counts : ∀ line, counter.contains line = true → hw.actionOf line = some .process)
    {variant : Variant} (accepted : checkSteps counter variant.label 0 variant.steps = .ok ())
    (declared : ∀ step ∈ variant.steps, ∀ line ∈ step.controls, ∃ action,
      hw.actionOf line = some action) :
    ∃ joined blocks, variant.merged hw counter = .ok joined ∧
      Groups hw counter variant joined blocks := by
  have ordered := checkSteps_ok.mp accepted
  obtain ⟨merged,joins⟩ : ∃ merged, mergedSteps hw counter variant.steps = .ok merged :=
    mergedSteps_total declared
  obtain ⟨blocks,cut,rfl⟩ := mergedSteps_ok.mp joins
  have whole := mergedBlocks_steps cut
  have grown := mergedBlocks_grown cut
  refine ⟨_,blocks,merged_of_steps joins,⟨rfl,rfl,whole,?_,?_,?_⟩⟩
  · rw [List.forall₂_map_right_iff,List.forall₂_same]
    intro block among
    refine (grown block among).becomes counts (fun step member => ?_) (fun step early => ?_)
    · exact declared step (whole ▸ List.mem_flatMap.mpr ⟨block,among,member⟩)
    · exact (ordered.counts_dropLast step (whole ▸ dropLast_of_flatMap among step early)).2
  · rw [← whole,List.flatMap_map,List.flatMap_assoc]
    refine List.flatMap_congr fun block among => ?_
    exact (grown block among).actions
  · exact checkSteps_ok.mpr (mergedSteps_inSequence joins ordered)

/-- A transfer of A to X, a pause, a count of X, and another one in a stage of its own. -/
def countTwice : Variant :=
  sequenced Layout.standard.controller.counter ⟨⟨0x20,"tax",.none,"Transfer A to X"⟩,∅,
    [.ofLists 0 [Layout.standard.a.tap.write,Layout.standard.x.tap.read] [Layout.standard.dataBus],
      .ofLists 0 [] [],.ofLists 0 Layout.standard.x.increment.toList [],
      .ofLists 1 Layout.standard.x.increment.toList []]⟩

theorem countTwice_declared : ∀ step ∈ countTwice.steps, ∀ line ∈ step.controls, ∃ action,
    Layout.standard.hardware.actionOf line = some action := by
  simp only [← Option.isSome_iff_exists,← SortedSet.mem_toList]
  decide +kernel

theorem countTwice_groups : ∃ joined blocks,
    countTwice.merged Layout.standard.hardware Layout.standard.controller.counter = .ok joined ∧
      Groups Layout.standard.hardware Layout.standard.controller.counter countTwice joined blocks :=
  merging_groups Layout.standard_wired.counter_line (by decide) countTwice_declared

end Variant
end Microprogram
