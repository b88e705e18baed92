import Mathlib.Data.List.Induction
import Microprogram.Proofs.Microcode.Merging

/-! Merging by blocks. A block is the steps that end up in one cycle, in their order; what
absorption makes of a list of steps is told by the blocks into which it cuts the list. -/
namespace Microprogram

/-- A step and those that it takes in. -/
structure Block where
  first : Step
  others : List Step
deriving DecidableEq

namespace Block
variable {hw : Registry} {counter : StepCounter}

def steps (block : Block) : List Step := block.first :: block.others

def last (block : Block) : Step := block.steps.getLast (List.cons_ne_nil _ _)

def add (block : Block) (step : Step) : Block := ⟨block.first,block.others ++ [step]⟩

/-- The step that the block becomes. -/
def joined (counter : StepCounter) (block : Block) : Step :=
  block.others.foldl (Step.merge counter) block.first

/-- Absorption that keeps the steps of a block instead of what they become. -/
def absorb (hw : Registry) (counter : StepCounter) (block : Block) :
    List Step → Except Rejection (List Block)
  | [] => .ok [block]
  | next :: rest => do
    if ← Step.mergeable hw counter (block.joined counter) next then absorb hw counter (block.add next) rest
    else return block :: (← absorb hw counter ⟨next,[]⟩ rest)

@[simp]
theorem steps_add (block : Block) (step : Step) : (block.add step).steps = block.steps ++ [step] := rfl

@[simp]
theorem last_add (block : Block) (step : Step) : (block.add step).last = step := by
  simp [last]

@[simp]
theorem joined_add (block : Block) (step : Step) :
    (block.add step).joined counter = (block.joined counter).merge counter step := by
  simp [joined,add]

theorem last_mem (block : Block) : block.last ∈ block.steps := List.getLast_mem _

theorem add_induction {motive : Block → Prop} (one : ∀ step, motive ⟨step,[]⟩)
    (add : ∀ block step, motive block → motive (block.add step)) (block : Block) : motive block := by
  obtain ⟨first,others⟩ := block
  induction others using List.reverseRecOn with
  | nil => exact one first
  | append_singleton front step ih => exact add ⟨first,front⟩ step ih

@[simp]
theorem joined_stage (block : Block) : (block.joined counter).stage = block.first.stage := by
  induction block using add_induction with
  | one step => rfl
  | add block step ih => exact (congrArg Step.stage (joined_add block step)).trans ih

theorem mem_joined {block : Block} {line : ControlId} (apart : counter.contains line = false) :
    line ∈ (block.joined counter).controls ↔ ∃ step ∈ block.steps, line ∈ step.controls := by
  induction block using add_induction with
  | one step => simp [steps,joined]
  | add block step ih =>
    rw [joined_add,Step.mem_merge_of_not_contains apart,steps_add]
    simp [ih,or_and_right,exists_or]

theorem mem_joined_buses {block : Block} {bus : BusId} :
    bus ∈ (block.joined counter).buses ↔ ∃ step ∈ block.steps, bus ∈ step.buses := by
  induction block using add_induction with
  | one step => simp [steps,joined]
  | add block step ih =>
    rw [joined_add,steps_add,Step.merge,Step.union,SortedSet.mem_union]
    change bus ∈ (block.joined counter).buses ∨ _ ↔ _
    rw [ih]
    simp [or_and_right,exists_or]

theorem mem_joined_counted {block : Block}
    (onward : ∀ step ∈ block.steps.dropLast, counter.reset ∉ step.controls)
    {line : ControlId} (counted : counter.contains line = true) :
    line ∈ (block.joined counter).controls ↔ line ∈ block.last.controls := by
  induction block using add_induction with
  | one step => rfl
  | add block step ih =>
    rw [steps_add,List.dropLast_concat] at onward
    have kept := ih fun step member => onward step (List.dropLast_subset _ member)
    rw [joined_add,last_add,Step.mem_merge,kept,or_iff_right_iff_imp]
    rintro ⟨inside,other⟩
    simp only [StepCounter.contains,Bool.or_eq_true,decide_eq_true_eq,other,false_or] at counted
    subst counted
    exact absurd inside (onward _ block.last_mem)

theorem absorb_joined (block : Block) (rest : List Step) :
    (block.joined counter).absorb hw counter rest =
      (block.absorb hw counter rest).map (List.map (joined counter)) := by
  induction rest generalizing block with
  | nil => rfl
  | cons next rest ih =>
    unfold absorb Step.absorb
    cases Step.mergeable hw counter (block.joined counter) next with
    | error rejection => rfl
    | ok joins =>
      cases joins with
      | true =>
        rw [except_ok_bind,except_ok_bind,if_pos rfl,if_pos rfl,← joined_add]
        exact ih (block.add next)
      | false =>
        rw [except_ok_bind,except_ok_bind,if_neg Bool.false_ne_true,if_neg Bool.false_ne_true]
        change (Step.absorb hw counter (joined counter ⟨next,[]⟩) rest >>= _) = _
        rw [ih]
        cases absorb hw counter ⟨next,[]⟩ rest <;> rfl

theorem absorb_induction {motive : Block → List Step → List Block → Prop}
    (last : ∀ block, motive block [] [block])
    (join : ∀ block next rest blocks,
      Step.mergeable hw counter (block.joined counter) next = .ok true →
        motive (block.add next) rest blocks → motive block (next :: rest) blocks)
    (keep : ∀ block next rest blocks,
      Step.mergeable hw counter (block.joined counter) next = .ok false →
        motive ⟨next,[]⟩ rest blocks → motive block (next :: rest) (block :: blocks))
    {block : Block} {rest : List Step} {blocks : List Block}
    (absorbed : block.absorb hw counter rest = .ok blocks) : motive block rest blocks := by
  induction rest generalizing block blocks with
  | nil =>
    cases absorbed
    exact last block
  | cons next rest ih =>
    obtain ⟨joins,checked,absorbed⟩ := except_bind_ok.mp absorbed
    cases joins with
    | true => exact join block next rest blocks checked (ih absorbed)
    | false =>
      rw [if_neg Bool.false_ne_true] at absorbed
      obtain ⟨others,later,ended⟩ := except_bind_ok.mp absorbed
      cases ended
      exact keep block next rest others checked (ih later)

/-- Built up from its first step by steps that could join. -/
inductive Grown (hw : Registry) (counter : StepCounter) : Block → Prop
  | one (step : Step) : Grown hw counter ⟨step,[]⟩
  | add {block : Block} {next : Step} (grown : Grown hw counter block)
      (joins : Step.mergeable hw counter (block.joined counter) next = .ok true) :
      Grown hw counter (block.add next)

theorem absorb_steps {block : Block} {rest : List Step} {blocks : List Block}
    (absorbed : block.absorb hw counter rest = .ok blocks) :
    blocks.flatMap steps = block.steps ++ rest := by
  refine absorb_induction
    (motive := fun block rest blocks => blocks.flatMap steps = block.steps ++ rest) ?_ ?_ ?_ absorbed
  · exact fun block => by simp
  · intro block next rest blocks _ ih
    rw [ih,steps_add,List.append_assoc]
    rfl
  · intro block next rest blocks _ ih
    rw [List.flatMap_cons,ih]
    rfl

theorem absorb_grown {block : Block} {rest : List Step} {blocks : List Block}
    (absorbed : block.absorb hw counter rest = .ok blocks) (grown : block.Grown hw counter) :
    ∀ block ∈ blocks, block.Grown hw counter := by
  refine absorb_induction (motive := fun block _ blocks =>
    block.Grown hw counter → ∀ block ∈ blocks, block.Grown hw counter) ?_ ?_ ?_ absorbed grown
  · exact fun block grown => List.forall_mem_singleton.mpr grown
  · exact fun block next rest blocks joins ih grown => ih (.add grown joins)
  · exact fun block next rest blocks _ ih grown => List.forall_mem_cons.mpr ⟨grown,ih (.one next)⟩

theorem absorb_append (block : Block) (front : List Step) {next : Step} (rest : List Step)
    (apart : ∀ step ∈ block.first :: front, step.stage ≠ next.stage) :
    block.absorb hw counter (front ++ next :: rest) = do
      return (← block.absorb hw counter front) ++ (← absorb hw counter ⟨next,[]⟩ rest) := by
  induction front generalizing block with
  | nil =>
    have alone : Step.mergeable hw counter (block.joined counter) next = .ok false :=
      if_pos (block.joined_stage ▸ apart block.first List.mem_cons_self)
    change (Step.mergeable hw counter (block.joined counter) next >>= _) = _
    rw [alone]
    rfl
  | cons step more ih =>
    obtain ⟨first,others⟩ := List.forall_mem_cons.mp apart
    change (Step.mergeable hw counter (block.joined counter) step >>= _) =
      (Step.mergeable hw counter (block.joined counter) step >>= _) >>= _
    rw [bind_assoc]
    refine bind_congr fun joins => ?_
    cases joins with
    | true =>
      exact ih (block.add step)
        (List.forall_mem_cons.mpr ⟨first,(List.forall_mem_cons.mp others).2⟩)
    | false =>
      change (absorb hw counter ⟨step,[]⟩ (more ++ next :: rest) >>= _) =
        (absorb hw counter ⟨step,[]⟩ more >>= _) >>= _
      rw [ih ⟨step,[]⟩ others]
      simp only [bind_assoc,pure_bind]
      rfl

namespace Grown
variable {block : Block} (grown : block.Grown hw counter)
include grown

theorem staged : ∀ step ∈ block.steps, step.stage = (block.joined counter).stage := by
  induction grown with
  | one step => exact List.forall_mem_singleton.mpr rfl
  | @add block next grown joins ih =>
    have same := (Step.mergeable_precedes joins).1
    rw [steps_add,List.forall_mem_append,joined_add]
    exact ⟨ih,List.forall_mem_singleton.mpr same.symm⟩

theorem ascends : block.steps.Pairwise fun step other =>
    Step.Precedes hw counter step.controls other.controls := by
  induction grown with
  | one step => exact List.pairwise_singleton _ _
  | @add block next grown joins ih =>
    have before := (Step.mergeable_precedes joins).2
    rw [steps_add,List.pairwise_append]
    refine ⟨ih,List.pairwise_singleton _ _,fun step member other found => ?_⟩
    obtain rfl := List.mem_singleton.mp found
    intro line inside also within apart
    exact before line ((mem_joined apart).mpr ⟨step,member,inside⟩) also within apart

theorem single (counts : ∀ line, counter.contains line = true → hw.actionOf line = some .process)
    (several : 2 ≤ block.steps.countP (Step.busy counter)) :
    SingleWriter hw (block.joined counter).controls := by
  induction grown with
  | one step =>
    have alone : [step].countP (Step.busy counter) ≤ 1 := List.countP_le_length
    change 2 ≤ [step].countP _ at several
    omega
  | @add block next grown joins ih =>
    rw [steps_add,List.countP_append] at several
    rw [joined_add]
    cases acts : next.busy counter with
    | false =>
      have several : 2 ≤ block.steps.countP (Step.busy counter) := by simpa [acts] using several
      refine (ih several).of_writes fun line member bus writes => ?_
      have apart := StepCounter.not_contains_of_action counts writes (by simp)
      refine ((Step.mem_merge_of_not_contains apart).mp member).resolve_right fun inside => ?_
      rw [Step.busy_iff.mpr ⟨line,inside,apart⟩] at acts
      contradiction
    | true =>
      have some : 0 < block.steps.countP (Step.busy counter) := by
        simp only [List.countP_singleton,acts,if_true] at several
        omega
      obtain ⟨step,among,busy⟩ := List.countP_pos_iff.mp some
      obtain ⟨first,raised,apart⟩ := Step.busy_iff.mp busy
      have before : (block.joined counter).busy counter = true :=
        Step.busy_iff.mpr ⟨first,(mem_joined apart).mpr ⟨step,among,raised⟩,apart⟩
      obtain ⟨_,_,single⟩ := (Step.mergeable_iff joins).mp rfl
      refine (single before acts).of_writes fun line member _ _ => ?_
      exact (SortedSet.mem_union _ _ _).mpr (((Step.mem_merge _ _ _).mp member).imp_left And.left)

end Grown
end Block

namespace Variant
variable {hw : Registry} {counter : StepCounter}

def mergedBlocks (hw : Registry) (counter : StepCounter) : List Step → Except Rejection (List Block)
  | [] => .ok []
  | step :: rest => Block.absorb hw counter ⟨step,[]⟩ rest

theorem mergedSteps_eq (steps : List Step) : mergedSteps hw counter steps =
    (mergedBlocks hw counter steps).map (List.map (Block.joined counter)) := by
  cases steps with
  | nil => rfl
  | cons step rest => exact Block.absorb_joined ⟨step,[]⟩ rest

theorem mergedSteps_ok {steps merged : List Step} :
    mergedSteps hw counter steps = .ok merged ↔ ∃ blocks,
      mergedBlocks hw counter steps = .ok blocks ∧ blocks.map (Block.joined counter) = merged := by
  rw [mergedSteps_eq,except_map_ok]

section Blocks
variable {steps : List Step} {blocks : List Block} (cut : mergedBlocks hw counter steps = .ok blocks)
include cut

theorem mergedBlocks_steps : blocks.flatMap Block.steps = steps := by
  cases steps with
  | nil =>
    cases cut
    rfl
  | cons step rest => exact Block.absorb_steps cut

theorem mergedBlocks_grown : ∀ block ∈ blocks, block.Grown hw counter := by
  cases steps with
  | nil =>
    cases cut
    simp
  | cons step rest => exact Block.absorb_grown cut (.one step)

end Blocks

theorem mergedBlocks_append {front rest : List Step} (some : front ≠ [])
    (apart : ∀ step ∈ front, ∀ next ∈ rest.head?, step.stage ≠ next.stage) :
    mergedBlocks hw counter (front ++ rest) = do
      return (← mergedBlocks hw counter front) ++ (← mergedBlocks hw counter rest) := by
  obtain ⟨step,front,rfl⟩ := List.exists_cons_of_ne_nil some
  cases rest with
  | nil =>
    rw [List.append_nil]
    cases mergedBlocks hw counter (step :: front) with
    | error rejection => rfl
    | ok blocks => exact congrArg Except.ok (List.append_nil blocks).symm
  | cons next rest =>
    exact Block.absorb_append ⟨step,[]⟩ front rest fun step member => apart step member next rfl

end Variant
end Microprogram
